import ControlFlow.Proofs.Fibers.Held
import Mathlib.Logic.Relation

/-! # How fibers change hands

Whatever jobs do, they do it to the world in a few kinds of moves. Each move tells which fibers are
held before and after it. A cache that is tidy at first stays so: only fibers that are ready for a
job are put into it.
-/

namespace ControlFlow.Fibers

variable {α : Type}

namespace World

/-- Take back a fiber that is ready for a job, into the cache if there is room. -/
def takeBack (w : World α) (s : Nat) (f : Fiber α) : World α :=
  let w := w.record (.givenBack f.number)
  match w.schedulers[s]? with
  | some scheduler =>
      if scheduler.cache.length < scheduler.config.cacheSize then w.keep s f
      else w.count f.home .freed
  | none => w.count f.home .freed

theorem ledger_takeBack (w : World α) (s : Nat) (f : Fiber α) :
    (w.takeBack s f).ledger = .givenBack f.number :: w.ledger := by
  simp only [takeBack]
  split
  · split <;> rfl
  · rfl

/-- A fiber is freed without its scheduler, and counted as gone. -/
def lose (w : World α) (tag : Tag) : World α := (w.record (.dropped tag.1)).count tag.2 .freed

/-- Every cached fiber is ready for a job. -/
def Tidy (w : World α) : Prop := ∀ s ∈ w.schedulers, ∀ f ∈ s.cache, f.Ready

end World

/-- A fiber at rest that is given back is taken back once nothing is suspended on it any more. -/
theorem Fiber.destroy_eq {e : Engine α} {f : Fiber α} (h : f.Resting) {s : Nat} {w : World α} :
    f.destroy e s w = (f.stopped e w).2.takeBack s (f.stopped e w).1.clear := by
  have hjob : (f.stopped e w).1.clear.job = none := h.stopped.1.job_eq_none h.stopped.2
  simp only [Fiber.destroy, Fiber.free, hjob]
  rfl

/-- A fiber that is ready for a job is given back as it is. -/
theorem Fiber.Ready.destroy_eq {e : Engine α} {f : Fiber α} (h : f.Ready) (s : Nat)
    (w : World α) : f.destroy e s w = w.takeBack s f := by
  have hstate := h.resting.isFree_iff.mp h.isFree
  have hclear : f.clear = f := by
    obtain ⟨number, home, state, entered, result, failure, job⟩ := f
    cases h.result
    cases h.failure
    rfl
  rw [Fiber.destroy_eq h.resting, Fiber.stopped, Fiber.abort_of_not_yielded hstate, hclear]

/-- A fiber that is dropped is lost before its suspended job is given up. -/
theorem Fiber.drop_of_some {e : Engine α} {f : Fiber α} {j : Suspended α} (h : f.job = some j)
    (w : World α) : f.drop e w = e.giveUp j (w.lose f.tag) := by
  simp only [Fiber.drop, Fiber.free, h]
  rfl

theorem Fiber.drop_of_none {e : Engine α} {f : Fiber α} (h : f.job = none) (w : World α) :
    f.drop e w = w.lose f.tag := by
  simp only [Fiber.drop, Fiber.free, h]
  rfl

/-- One move in a world, with the fibers that are held before and after it. -/
inductive Move : World α × Multiset Tag → World α × Multiset Tag → Prop where
  | note (w : World α) (held : Multiset Tag) (entry : Entry α) : Move (w, held) (w.note entry, held)
  /-- A job is started in a fresh context. -/
  | enter (w : World α) (held : Multiset Tag) (s : Nat) : Move (w, held) (w.count s .entered, held)
  | create (w : World α) (held : Multiset Tag) (s : Nat) :
      Move (w, held) ((w.create s).2, (w.create s).1.tag ::ₘ held)
  | giveBack (w : World α) (held : Multiset Tag) (s : Nat) {f : Fiber α} : f.Ready →
      Move (w, f.tag ::ₘ held) (w.takeBack s f, held)
  | drop (w : World α) (held : Multiset Tag) (tag : Tag) : Move (w, tag ::ₘ held) (w.lose tag, held)
  | prime (w : World α) (held : Multiset Tag) (s : Nat) : Move (w, held) (w.prime s, held)
  | reset (w : World α) (held : Multiset Tag) (s : Nat) : Move (w, held) (w.reset s, held)

theorem Move.frame {p q : World α × Multiset Tag} (h : Move p q) (others : Multiset Tag) :
    Move (p.1, p.2 + others) (q.1, q.2 + others) := by
  cases h with
  | note w held entry => exact .note w _ entry
  | enter w held s => exact .enter w _ s
  | create w held s =>
      dsimp only
      rw [Multiset.cons_add]
      exact .create w _ s
  | giveBack w held s hready =>
      dsimp only
      rw [Multiset.cons_add]
      exact .giveBack w _ s hready
  | drop w held tag =>
      dsimp only
      rw [Multiset.cons_add]
      exact .drop w _ tag
  | prime w held s => exact .prime w _ s
  | reset w held s => exact .reset w _ s

/-- Any number of moves. -/
def Moves (w : World α) (held : Multiset Tag) (w' : World α) (held' : Multiset Tag) : Prop :=
  Relation.ReflTransGen Move (w, held) (w', held')

namespace Moves

variable {w w' w'' : World α} {held held' held'' : Multiset Tag}

theorem refl (w : World α) (held : Multiset Tag) : Moves w held w held :=
  Relation.ReflTransGen.refl

theorem trans (h : Moves w held w' held') (h' : Moves w' held' w'' held'') :
    Moves w held w'' held'' :=
  Relation.ReflTransGen.trans h h'

theorem single (h : Move (w, held) (w', held')) : Moves w held w' held' :=
  Relation.ReflTransGen.single h

/-- The same moves while others hold fibers too. -/
theorem frame (h : Moves w held w' held') (others : Multiset Tag) :
    Moves w (held + others) w' (held' + others) :=
  Relation.ReflTransGen.lift (p := Move) (fun q : World α × Multiset Tag => (q.1, q.2 + others))
    (fun _ _ hmove => hmove.frame others) _ _ h

/-- The same moves while one more fiber is held. -/
theorem under (h : Moves w held w' held') (tag : Tag) :
    Moves w (tag ::ₘ held) w' (tag ::ₘ held') := by
  have hframe := h.frame {tag}
  rwa [add_comm held, add_comm held', Multiset.singleton_add, Multiset.singleton_add] at hframe

/-- A property that each move keeps. -/
theorem keeps {P : World α × Multiset Tag → Prop} (hmove : ∀ p q, Move p q → P p → P q)
    (h : Moves w held w' held') (hP : P (w, held)) : P (w', held') := by
  have hall {p q : World α × Multiset Tag} (hpq : Relation.ReflTransGen Move p q) (hp : P p) :
      P q := by
    induction hpq with
    | refl => exact hp
    | tail _ hlast ih => exact hmove _ _ hlast ih
  exact hall h hP

end Moves

namespace World

variable {w : World α} {s : Nat} {f : Fiber α}

/-- A change to a scheduler replaces it where it is, and does nothing where there is none. -/
theorem schedulers_modify (w : World α) (s : Nat) (change : Scheduler α → Scheduler α) :
    (w.modify s change).schedulers =
      match w.schedulers[s]? with
      | some x => w.schedulers.set s (change x)
      | none => w.schedulers := by
  simp only [modify, List.modify_eq_set_getElem?]
  cases w.schedulers[s]? <;> rfl

theorem Tidy.modify (h : w.Tidy) (s : Nat) {change : Scheduler α → Scheduler α}
    (hchange : ∀ x ∈ w.schedulers, ∀ f ∈ (change x).cache, f ∈ x.cache ∨ f.Ready) :
    (w.modify s change).Tidy := by
  intro x hx f hf
  rw [schedulers_modify] at hx
  split at hx
  next y hy =>
    rcases List.mem_or_eq_of_mem_set hx with hold | rfl
    · exact h x hold f hf
    · exact (hchange y (List.mem_of_getElem? hy) f hf).elim (h y (List.mem_of_getElem? hy) f) id
  next => exact h x hx f hf

theorem Tidy.count (h : w.Tidy) (s : Nat) (change : Counters → Counters) :
    (w.count s change).Tidy :=
  h.modify s fun _ _ _ hf => .inl hf

theorem Tidy.keep (h : w.Tidy) (s : Nat) (hf : f.Ready) : (w.keep s f).Tidy := by
  refine h.modify s fun x hx g hg => ?_
  rcases List.mem_cons.mp hg with rfl | hold
  · exact .inr hf
  · exact .inl hold

theorem ready_fresh (number home : Nat) : (Fiber.fresh number home : Fiber α).Ready :=
  ⟨rfl, rfl, rfl, rfl⟩

theorem Tidy.allocate (h : w.Tidy) (s : Nat) : (w.allocate s).2.Tidy := h.count s _

/-- What a tidy world hands out is ready for a job. -/
theorem Tidy.next (h : w.Tidy) (s : Nat) : (w.next s).1.Ready ∧ (w.next s).2.Tidy := by
  unfold World.next
  cases hs : w.schedulers[s]? with
  | none => exact ⟨ready_fresh _ _, h.allocate s⟩
  | some x =>
      simp only [Option.map_some, Option.getD_some]
      cases hcache : x.cache with
      | nil => exact ⟨ready_fresh _ _, h.allocate s⟩
      | cons f rest =>
          have hx := List.mem_of_getElem? hs
          refine ⟨h x hx f (by simp [hcache]), fun y hy g hg => ?_⟩
          rw [schedulers_modify, hs] at hy
          rcases List.mem_or_eq_of_mem_set hy with hold | rfl
          · exact h y hold g hg
          · exact h x hx g (by simp [hcache, hg])

theorem Tidy.create (h : w.Tidy) (s : Nat) : (w.create s).1.Ready ∧ (w.create s).2.Tidy := h.next s

theorem Tidy.takeBack (h : w.Tidy) (s : Nat) (hf : f.Ready) : (w.takeBack s f).Tidy := by
  simp only [World.takeBack]
  split
  · split
    · exact Tidy.keep (w := w.record _) h s hf
    · exact Tidy.count (w := w.record _) h _ _
  · exact Tidy.count (w := w.record _) h _ _

theorem Tidy.addFresh (h : w.Tidy) (s n : Nat) : (World.addFresh n s w).Tidy := by
  induction n generalizing w with
  | zero => exact h
  | succ n ih => exact ih ((h.allocate s).keep s (ready_fresh _ _))

theorem Tidy.reset (h : w.Tidy) (s : Nat) : (w.reset s).Tidy := by
  have hfreed (fs : List (Fiber α)) (w : World α) (hw : w.Tidy) :
      (fs.foldl (fun w f => w.count f.home .freed) w).Tidy := by
    induction fs generalizing w with
    | nil => exact hw
    | cons f rest ih => exact ih _ (hw.count _ _)
  exact (hfreed _ w h).modify s fun _ _ _ hf => absurd hf List.not_mem_nil

/-! ## Moves that log nothing -/

/-- A world becomes another one while nothing is logged. -/
structure Quiet (w v : World α) : Prop where
  log : v.log = w.log
  length : v.schedulers.length = w.schedulers.length
  tidy : w.Tidy → v.Tidy

theorem Quiet.refl (w : World α) : Quiet w w := ⟨rfl, rfl, id⟩

theorem Quiet.trans {u v w : World α} (h : Quiet w v) (h' : Quiet v u) : Quiet w u :=
  ⟨h'.log.trans h.log, h'.length.trans h.length, fun hw => h'.tidy (h.tidy hw)⟩

theorem length_modify (w : World α) (s : Nat) (change : Scheduler α → Scheduler α) :
    (w.modify s change).schedulers.length = w.schedulers.length :=
  List.length_modify ..

theorem quiet_count (w : World α) (s : Nat) (change : Counters → Counters) :
    Quiet w (w.count s change) :=
  ⟨rfl, w.length_modify s _, fun h => h.count s change⟩

theorem quiet_create (w : World α) (s : Nat) : Quiet w (w.create s).2 := by
  refine ⟨?_, ?_, fun h => (h.create s).2⟩ <;> simp only [World.create, World.next] <;> split
  · rfl
  · rfl
  · exact w.length_modify s _
  · exact length_modify _ s _

theorem quiet_takeBack (w : World α) (s : Nat) {f : Fiber α} (hf : f.Ready) :
    Quiet w (w.takeBack s f) := by
  refine ⟨?_, ?_, fun h => h.takeBack s hf⟩ <;> simp only [World.takeBack] <;> split
  · split <;> rfl
  · rfl
  · split <;> exact length_modify _ _ _
  · exact length_modify _ _ _

theorem quiet_lose (w : World α) (tag : Tag) : Quiet w (w.lose tag) :=
  ⟨rfl, length_modify (w.record _) tag.2 _, fun h => Tidy.count (w := w.record _) h tag.2 _⟩

theorem quiet_addFresh (n s : Nat) (w : World α) : Quiet w (addFresh n s w) := by
  refine ⟨?_, ?_, fun h => h.addFresh s n⟩
  · induction n generalizing w with
    | zero => rfl
    | succ n ih => exact ih _
  · induction n generalizing w with
    | zero => rfl
    | succ n ih => exact (ih _).trans ((length_modify _ s _).trans (length_modify _ s _))

theorem quiet_prime (w : World α) (s : Nat) : Quiet w (w.prime s) := by
  unfold World.prime
  split
  · exact quiet_addFresh _ s w
  · exact .refl w

theorem quiet_reset (w : World α) (s : Nat) : Quiet w (w.reset s) := by
  have hfreed (fs : List (Fiber α)) (w : World α) :
      Quiet w (fs.foldl (fun w f => w.count f.home .freed) w) := by
    induction fs generalizing w with
    | nil => exact .refl w
    | cons f rest ih => exact (quiet_count w _ _).trans (ih _)
  refine ⟨(hfreed _ w).log, ?_, fun h => h.reset s⟩
  exact (length_modify _ s _).trans (hfreed _ w).length

end World

/-- A move keeps the caches tidy, and adds and removes no scheduler. -/
theorem Move.tidy {p q : World α × Multiset Tag} (h : Move p q) :
    (p.1.Tidy → q.1.Tidy) ∧ q.1.schedulers.length = p.1.schedulers.length := by
  have hquiet {w v : World α} (h : World.Quiet w v) :
      (w.Tidy → v.Tidy) ∧ v.schedulers.length = w.schedulers.length := ⟨h.tidy, h.length⟩
  cases h with
  | note => exact ⟨id, rfl⟩
  | enter w held s => exact hquiet (World.quiet_count w s _)
  | create w held s => exact hquiet (World.quiet_create w s)
  | giveBack w held s hready => exact hquiet (World.quiet_takeBack w s hready)
  | drop w held tag => exact hquiet (World.quiet_lose w tag)
  | prime w held s => exact hquiet (World.quiet_prime w s)
  | reset w held s => exact hquiet (World.quiet_reset w s)

theorem Moves.tidy {w w' : World α} {held held' : Multiset Tag} (h : Moves w held w' held')
    (hw : w.Tidy) : w'.Tidy :=
  h.keeps (P := fun p => p.1.Tidy) (fun _ _ hmove => hmove.tidy.1) hw

theorem Moves.length {w w' : World α} {held held' : Multiset Tag} (h : Moves w held w' held') :
    w'.schedulers.length = w.schedulers.length :=
  h.keeps (P := fun p => p.1.schedulers.length = w.schedulers.length)
    (fun _ _ hmove hp => hmove.tidy.2.trans hp) rfl

end ControlFlow.Fibers
