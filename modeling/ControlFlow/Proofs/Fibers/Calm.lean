import ControlFlow.Proofs.Fibers.Accounts
import ControlFlow.Proofs.Fibers.Obedient

/-! # Jobs that reset no scheduler

A job is calm if neither it nor a job nested in it resets a scheduler. To be calm is to keep to a
rule, so that calm jobs take only the turns that this rule allows. In a world with one scheduler,
each of these turns counts the fibers that it allocates.
-/

namespace ControlFlow.Fibers

variable {α : Type}

/-! ## Calm jobs -/

mutual

/-- The step resets no scheduler, nor does one that comes with it. -/
def Step.isCalm : Step α → Bool
  | .reset _ => false
  | .yieldElse cleanup => areCalm cleanup
  | .repeat _ body => areCalm body
  | .spawn _ job => areCalm job
  | _ => true

def areCalm : List (Step α) → Bool
  | [] => true
  | s :: rest => s.isCalm && areCalm rest

end

/-- Steps that reset no scheduler. -/
def calm : Rule α
  | .reset _ => false
  | _ => true

mutual

theorem Step.isCalm_eq_obeys (s : Step α) : s.isCalm = s.obeys calm := by
  cases s with
  | yieldElse cleanup => exact areCalm_eq_allObey cleanup
  | «repeat» _ body => exact areCalm_eq_allObey body
  | spawn _ job => exact areCalm_eq_allObey job
  | _ => rfl

/-- A job is calm if it keeps to the rule. -/
theorem areCalm_eq_allObey (steps : List (Step α)) : areCalm steps = allObey calm steps := by
  cases steps with
  | nil => rfl
  | cons s rest => rw [areCalm, allObey, s.isCalm_eq_obeys, areCalm_eq_allObey rest]

end

/-! ## Turns in which every fiber is counted -/

namespace World

variable {w : World α} {x : Scheduler α}

/-- The scheduler keeps its total. -/
theorem uncounted_modify (hx : w.schedulers = [x]) (s : Nat) {change : Scheduler α → Scheduler α}
    (htotal : (change x).counters.total = x.counters.total) :
    (w.modify s change).uncounted = w.uncounted := by
  rw [modify_eq hx]
  by_cases hs : s = 0 <;> simp [uncounted, hx, hs, htotal]

theorem uncounted_allocate (hx : w.schedulers = [x]) :
    (w.allocate 0).2.uncounted = w.uncounted := by
  simp only [uncounted, schedulers_allocate hx, hx, List.head?_cons, Option.map_some,
    Option.getD_some]
  exact Nat.add_sub_add_right w.allocations 1 x.counters.total

theorem uncounted_create (hx : w.schedulers = [x]) : (w.create 0).2.uncounted = w.uncounted := by
  have hs : w.schedulers[0]? = some x := by simp [hx]
  cases hcache : x.cache with
  | nil =>
      simp only [create, next, hs, Option.map_some, Option.getD_some, hcache]
      exact uncounted_allocate hx
  | cons f rest =>
      simp only [create, next, hs, Option.map_some, Option.getD_some, hcache]
      exact uncounted_modify hx 0 rfl

theorem uncounted_lose (hx : w.schedulers = [x]) (tag : Tag) :
    (w.lose tag).uncounted = w.uncounted :=
  uncounted_modify (w := w.record _) hx tag.2 rfl

theorem uncounted_takeBack (hx : w.schedulers = [x]) (s : Nat) (f : Fiber α) :
    (w.takeBack s f).uncounted = w.uncounted := by
  have hchange (s : Nat) {change : Scheduler α → Scheduler α}
      (htotal : (change x).counters.total = x.counters.total) :
      ((w.record (.givenBack f.number)).modify s change).uncounted = w.uncounted :=
    uncounted_modify (w := w.record _) hx s htotal
  simp only [takeBack]
  split
  · split
    · exact hchange s rfl
    · exact hchange f.home rfl
  · exact hchange f.home rfl

theorem uncounted_addFresh (hx : w.schedulers = [x]) (n : Nat) :
    (addFresh n 0 w).uncounted = w.uncounted := by
  induction n generalizing w x with
  | zero => rfl
  | succ n ih =>
      have hmade := schedulers_allocate hx
      have hkept := congrArg World.schedulers (modify_eq hmade 0 fun y =>
        { y with cache := (w.allocate 0).1 :: y.cache })
      calc (addFresh (n + 1) 0 w).uncounted
          = ((w.allocate 0).2.keep 0 (w.allocate 0).1).uncounted := ih hkept
        _ = (w.allocate 0).2.uncounted := uncounted_modify hmade 0 rfl
        _ = w.uncounted := uncounted_allocate hx

theorem uncounted_prime (hx : w.schedulers = [x]) (s : Nat) :
    (w.prime s).uncounted = w.uncounted := by
  cases s with
  | zero => simpa [prime, hx] using uncounted_addFresh hx _
  | succ s => simp [prime, hx]

end World

variable {v w : World α}

/-- Where there is one scheduler, a calm turn leaves no fiber uncounted. -/
theorem Turn.uncounted (h : Turn calm w v) (hw : w.schedulers.length = 1) :
    v.uncounted = w.uncounted := by
  obtain ⟨x, hx⟩ := List.length_eq_one_iff.mp hw
  cases h with
  | note => rfl
  | enter s => exact World.uncounted_modify hx s rfl
  | @create s hs =>
      have hzero : s = 0 := by omega
      rw [hzero]
      exact World.uncounted_create hx
  | @giveBack s f => exact World.uncounted_takeBack hx s f
  | drop tag => exact World.uncounted_lose hx tag
  | @prime s => exact World.uncounted_prime hx s
  | reset hrule => cases hrule

theorem Turns.uncounted (h : Turns calm w v) (hw : w.Stands 1) : v.uncounted = w.uncounted := by
  induction h with
  | refl => rfl
  | tail hbefore hlast ih => exact (hlast.uncounted (Turns.stands hbefore hw).length).trans ih

end ControlFlow.Fibers
