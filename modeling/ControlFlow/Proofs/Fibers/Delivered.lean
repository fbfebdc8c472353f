import ControlFlow.Proofs.Fibers.Cache

/-! # Whom outcomes are delivered to

A job that is over leaves a value or a failure on its fiber. The call that drove the job takes it
from there, gives the fiber back with nothing left on it, and then delivers a failure, or keeps a
value in the task. What a job makes of being told to stop is dropped, but for a panic where a task
is aborted.
-/

namespace ControlFlow.Fibers

variable {α : Type}

namespace Stop

/-- What a job failed with. -/
def failure? : Stop α → Option Failure
  | failed how => some how
  | _ => none

/-- What a job returned, perhaps no value. -/
def value? : Stop α → Option (Option α)
  | returned value => some value
  | _ => none

end Stop

variable {e : Engine α} {w : World α}

/-! ## Fibers -/

namespace Fiber

variable {f : Fiber α}

/-- The world in which a job is started on a fiber. -/
def entry (f : Fiber α) (w : World α) : World α := if f.entered then w else w.count f.home .entered

/-- A fiber that control came back to has what its job left, and nothing of an earlier one. -/
theorem outcome_settle (hresult : f.result = none) (hfailure : f.failure = none) (stop : Stop α) :
    (f.settle .yielded stop).result = stop.value? ∧
      (f.settle .yielded stop).failure = stop.failure? := by
  cases stop with
  | returned value => exact ⟨rfl, hfailure⟩
  | failed how => cases how <;> exact ⟨hresult, rfl⟩
  | suspended j => exact ⟨hresult, hfailure⟩

/-- A fiber on which nothing is suspended is taken back as it is, with nothing left on it. -/
theorem destroy_of_not_yielded (hf : f.Resting) (hstate : f.state ≠ .yielded) (s : Nat) :
    f.clear.Ready ∧ f.destroy e s w = w.takeBack s f.clear := by
  refine ⟨hf.clear hstate, ?_⟩
  rw [destroy_eq hf, stopped, abort_of_not_yielded hstate]

/-- Of a job that is told to stop because its fiber goes back, nothing is left on the fiber. -/
theorem destroy_of_job (hf : f.Resting) {j : Suspended α} (hjob : f.job = some j) (s : Nat) :
    ∃ g : Fiber α, g.Ready ∧ g.tag = f.tag ∧ f.destroy e s w = (e.stop j w).takeBack s g := by
  have hstate := hf.yielded_of_job hjob
  obtain ⟨g, habort, hnumber, hhome, -⟩ := abort_of_yielded (e := e) (w := w) hstate hjob
  have hstopped : f.stopped e w = (g, e.stop j w) := by rw [stopped, habort]
  have hready := hf.stopped.1.clear (hf.stopped (e := e) (w := w)).2
  rw [hstopped] at hready
  refine ⟨g.clear, hready, ?_, by rw [destroy_eq hf, hstopped]⟩
  exact congrArg₂ Prod.mk hnumber hhome

end Fiber

/-! ## Tasks -/

namespace Task

variable {t : Task α}

/-- A task that is over. -/
def ended (t : Task α) (result : Option (Option α)) : Task α :=
  { t with body := none, fiber := none, result := result, done := true }

/-- A call in which the job of a task was driven on a fiber until it stopped. -/
structure Reports (t : Task α) (f : Fiber α) (stopped : Stop α × World α)
    (called : Delivery × Task α × World α) : Prop where
  /-- The call delivers what the job failed with, and nothing if it did not. -/
  delivery : called.1 = stopped.1.failure?
  /-- If the job is over, the task is done and has what the job returned; the last thing that
  happens before the delivery is that the fiber goes back, with nothing left on it. -/
  ended : (∀ j, stopped.1 ≠ .suspended j) → called.2.1 = t.ended stopped.1.value? ∧
    ∃ g : Fiber α, g.Ready ∧ g.tag = f.tag ∧ called.2.2 = stopped.2.takeBack t.scheduler g
  /-- If the job is suspended, it is so on the same fiber, and nothing else happens. -/
  suspended : ∀ j, stopped.1 = .suspended j → ∃ g : Fiber α, g.Suspends j ∧ g.tag = f.tag ∧
    called.2 = ({ t with body := none, fiber := some g }, stopped.2)

theorem reports_settle {f : Fiber α} (hresult : f.result = none) (hfailure : f.failure = none)
    (hbody : t.body = none) (hnone : t.result = none) (stop : Stop α) :
    t.Reports f (stop, w) (t.settle e (f.settle .yielded stop) w) := by
  obtain ⟨hvalue, hfails⟩ := Fiber.outcome_settle hresult hfailure stop
  have hrest := (Fiber.settle_resting hresult hfailure stop).1
  have htag := f.settle_tag .yielded stop
  -- The fiber goes back without what was taken from it.
  have hback {g : Fiber α} (hg : g.Resting) (hstate : g.state = (f.settle .yielded stop).state)
      (hsame : g.tag = f.tag) (hover : ∀ j, stop ≠ .suspended j) :
      ∃ g' : Fiber α, g'.Ready ∧ g'.tag = f.tag ∧
        g.destroy e t.scheduler w = w.takeBack t.scheduler g' := by
    have hne : g.state ≠ .yielded := by
      rw [hstate]
      cases stop with
      | returned value => simp [Fiber.settle]
      | failed how => cases how <;> simp [Fiber.settle, Fiber.rearm]
      | suspended j => exact absurd rfl (hover j)
    obtain ⟨hready, hdestroy⟩ := Fiber.destroy_of_not_yielded (e := e) (w := w) hg hne t.scheduler
    exact ⟨g.clear, hready, hsame, hdestroy⟩
  cases stop with
  | returned value =>
      have hgoes := hback (Fiber.Step.takeResult.resting hrest) rfl htag (by simp)
      simp only [Stop.value?, Stop.failure?] at hvalue hfails
      simp only [settle, hvalue, hfails, release]
      refine ⟨rfl, fun _ => ⟨?_, hgoes⟩, by simp⟩
      simp [ended, hbody, Stop.value?]
  | failed how =>
      have hgoes := hback (Fiber.Step.takeFailure.resting hrest) rfl htag (by simp)
      simp only [Stop.failure?] at hfails
      simp only [settle, hfails, release]
      refine ⟨rfl, fun _ => ⟨?_, hgoes⟩, by simp⟩
      simp [ended, hbody, hnone, Stop.value?]
  | suspended j =>
      refine ⟨by simp [settle, Fiber.settle, hresult, hfailure, Stop.failure?],
        fun hover => absurd rfl (hover j), fun i hi => ?_⟩
      cases hi
      refine ⟨f.settle .yielded (.suspended j), ⟨rfl, hresult, hfailure, rfl⟩, htag, ?_⟩
      simp [settle, Fiber.settle, hresult, hfailure, hbody]

/-- What the calls of a task deliver in a world, whatever carries its job out. -/
structure Delivers (e : Engine α) (t : Task α) (w : World α) : Prop where
  run : ∀ job, t.body = some job → t.Reports (w.create t.scheduler).1
    (e.start job ((w.create t.scheduler).1.entry (w.create t.scheduler).2)) (t.run e w)
  restart : t.body = none →
    t.run e w = (some (.panic (some "internal error: task started twice")), t, w)
  /-- The job of a task that has a fiber is suspended there. -/
  driven : ∀ f, t.fiber = some f → ∃ j, f.Suspends j
  resume : ∀ f j, t.fiber = some f → f.job = some j →
    t.Reports f (e.resume j w) (t.resume e w)
  misplaced : t.fiber = none → t.resume e w = (some (.panic (some
    "internal error: resume of a task without a suspended fiber")), t, w)
  /-- A task that is aborted is done and has no result. Its job's panic is delivered when the fiber
  has gone back; any other failure, and what the job returns, is dropped. -/
  abort : ∀ f j, t.fiber = some f → f.job = some j → ∃ g : Fiber α, g.Ready ∧ g.tag = f.tag ∧
    t.abort e w =
      ((e.cancel j w).1.panic?, t.ended none, (e.stop j w).takeBack t.scheduler g)
  idle : t.fiber = none → t.abort e w = (none, t.ended none, w)
  /-- When a task is dropped its job is told to stop, and nobody learns how that went. -/
  drop : ∀ f j, t.fiber = some f → f.job = some j → ∃ g : Fiber α, g.Ready ∧ g.tag = f.tag ∧
    t.drop e w = (e.stop j w).takeBack t.scheduler g
  vacant : t.fiber = none → t.drop e w = w

theorem Sound.delivers (ht : t.Sound) (hw : w.Tidy) (e : Engine α) : t.Delivers e w := by
  have hfiber {f : Fiber α} (hf : t.fiber = some f) : ∃ j, f.Suspends j := by
    obtain ⟨hrest, hstate, -⟩ := ht.of_fiber hf
    obtain ⟨⟨j, hjob⟩, hresult, hfailure⟩ := hrest.yielded hstate
    exact ⟨j, hstate, hresult, hfailure, hjob⟩
  refine ⟨fun job hjob => ?_, fun hbody => Session.run_rejected e hbody w, fun f hf => hfiber hf,
    fun f j hf hjob => ?_, fun hnone => Session.resume_rejected e hnone w, fun f j hf hjob => ?_,
    fun hnone => by simp [Task.abort, hnone, Task.ended], fun f j hf hjob => ?_,
    fun hnone => by simp [Task.drop, release, hnone]⟩
  · obtain ⟨hready, -⟩ := hw.create t.scheduler
    have hresult : t.result = none := by
      cases ht with
      | waiting => rfl
      | suspended => cases hjob
      | ended => cases hjob
    simp only [Task.run, hjob, Fiber.run_of_isFree hready.isFree]
    have hreports := reports_settle (e := e) (t := { t with body := none })
      (w := (e.start job ((w.create t.scheduler).1.entry (w.create t.scheduler).2)).2)
      (f := { (w.create t.scheduler).1.clear with entered := true, state := .running })
      rfl rfl rfl hresult (e.start job ((w.create t.scheduler).1.entry (w.create t.scheduler).2)).1
    exact ⟨hreports.delivery, hreports.ended, hreports.suspended⟩
  · obtain ⟨-, hstate, hbody⟩ := ht.of_fiber hf
    obtain ⟨i, -, hresult, hfailure, -⟩ := hfiber hf
    have hnone : t.result = none := by
      cases ht with
      | waiting => rfl
      | suspended => rfl
      | ended => cases hf
    simp only [Task.resume, hf, Fiber.resume_of_yielded hstate hjob]
    have hreports := reports_settle (e := e) (w := (e.resume j w).2)
      (f := { f with state := .running, job := none }) hresult hfailure hbody hnone (e.resume j w).1
    exact ⟨hreports.delivery, hreports.ended, hreports.suspended⟩
  · obtain ⟨hrest, hstate, -⟩ := ht.of_fiber hf
    obtain ⟨i, -, -, hfailure, -⟩ := hfiber hf
    obtain ⟨g, habort, hnumber, hhome, hfinished, -, -, -, hpanic⟩ :=
      Fiber.abort_of_yielded (e := e) (w := w) hstate hjob
    have hclean : Fiber.Resting { g with failure := none } :=
      Fiber.Step.takeFailure.resting (hrest.abort habort).1
    obtain ⟨hready, hdestroy⟩ := Fiber.destroy_of_not_yielded (e := e) (w := e.stop j w) hclean
      (by simp [hfinished]) t.scheduler
    refine ⟨_, hready, congrArg₂ Prod.mk hnumber hhome, ?_⟩
    simp only [Task.abort, hf, habort, hdestroy, hpanic hfailure, Task.ended]
  · simpa [Task.drop, release, hf] using
      Fiber.destroy_of_job (ht.of_fiber hf).1 hjob t.scheduler

/-- A task is made of its parts; that is not so by definition, for tasks occur in their fibers. -/
theorem eta (t : Task α) : (⟨t.scheduler, t.body, t.fiber, t.result, t.done⟩ : Task α) = t := by
  cases t
  rfl

/-- A task that is over and has given back its fiber. -/
structure Over (t : Task α) : Prop where
  body : t.body = none
  fiber : t.fiber = none
  done : t.done = true

/-- Only a task that is over has a result. -/
theorem Sound.over (ht : t.Sound) :
    (t.done = true → t.Over) ∧ (t.done = false → t.result = none) := by
  cases ht with
  | waiting => exact ⟨nofun, fun _ => rfl⟩
  | suspended => exact ⟨nofun, fun _ => rfl⟩
  | ended => exact ⟨fun _ => ⟨rfl, rfl, rfl⟩, nofun⟩

theorem Over.takeResult (h : t.Over) (r : Option (Option α)) : Over { t with result := r } :=
  ⟨h.body, h.fiber, h.done⟩

/-- All that aborting a task does that is over is to drop its result. -/
theorem Over.abort (h : t.Over) : t.abort e w = (none, { t with result := none }, w) := by
  simp only [Task.abort, h.fiber, h.body, h.done]

end Task

/-! ## Jobs that drive tasks -/

/-- A step of a job is a call of one of its tasks. -/
inductive Step.Calls (e : Engine α) (w : World α) (i : Nat) (t : Task α) :
    Step α → Task.Delivery × Task α × World α → Prop where
  | run : Calls e w i t (.run i) (t.run e w)
  | resume : Calls e w i t (.resume i) (t.resume e w)
  | abort : Calls e w i t (.abort i) (t.abort e w)

/-- What is delivered to a job that drives a task is what the job itself fails with. -/
theorem doJob_of_delivery {l : Local α} {i : Nat} {t : Task α} (ht : l.tasks[i]? = some t)
    {s : Step α} {called : Task.Delivery × Task α × World α} (hs : s.Calls e w i t called)
    {how : Failure} (hhow : called.1 = some how) (state : FiberState) (rest : List (Step α)) :
    doJob e state (s :: rest) l w =
      (.failed how, (l.setTask i called.2.1).leave e called.2.2) := by
  have hstep : doStep e state s l w = l.afterTask i called := by
    cases hs <;> simp only [doStep, Local.withTask, ht]
  obtain ⟨delivery, u, v⟩ := called
  cases hhow
  simp only [doJob, doSteps, hstep, Local.afterTask]

mutual

/-- The step neither takes the result of a task of its job nor aborts that task. -/
def Step.spares (i : Nat) : Step α → Bool
  | .take k | .abort k => k != i
  | .repeat _ body => allSpare i body
  | _ => true

def allSpare (i : Nat) : List (Step α) → Bool
  | [] => true
  | s :: rest => s.spares i && allSpare i rest

end

/-- A task that is over keeps its result, or loses it and never gets another one. -/
def Local.Retains (l : Local α) (i : Nat) (t : Task α) (spared : Bool) : Prop :=
  ∃ r, l.tasks[i]? = some { t with result := r } ∧ (r = none ∨ r = t.result) ∧
    (spared = true → r = t.result)

namespace Local

variable {l m : Local α} {i : Nat} {t : Task α} {a b : Bool}

theorem retains_self (h : l.tasks[i]? = some t) : l.Retains i t a :=
  ⟨t.result, by rw [h, t.eta], .inr rfl, fun _ => rfl⟩

theorem Retains.trans (h : l.Retains i t a)
    (hm : ∀ r, l.tasks[i]? = some { t with result := r } → m.Retains i { t with result := r } b) :
    m.Retains i t (a && b) := by
  obtain ⟨r, hr, hlost, hkept⟩ := h
  obtain ⟨r', hr', hlost', hkept'⟩ := hm r hr
  refine ⟨r', hr', ?_, fun hspared => ?_⟩
  · grind
  · obtain ⟨ha, hb⟩ := Bool.and_eq_true_iff.mp hspared
    exact (hkept' hb).trans (hkept ha)

theorem getElem?_setTask (h : l.tasks[i]? = some t) (k : Nat) (u : Task α) :
    (l.setTask k u).tasks[i]? = some (if k = i then u else t) := by
  have hlt := (Array.getElem?_eq_some_iff.mp h).1
  simp only [setTask, Array.getElem?_setIfInBounds]
  grind

/-- A call of some task, which leaves this one alone unless it is the one that is called. -/
theorem retains_afterTask (h : l.tasks[i]? = some t) {k : Nat}
    {called : Task.Delivery × Task α × World α}
    (hcalled : k = i → ∃ r, called.2.1 = { t with result := r } ∧ (r = none ∨ r = t.result) ∧
      (a = true → r = t.result)) :
    (l.afterTask k called).own.Retains i t a := by
  have hown : (l.afterTask k called).own = l.setTask k called.2.1 := by
    obtain ⟨_ | how, u, v⟩ := called <;> rfl
  rw [hown]
  by_cases hk : k = i
  · obtain ⟨r, hr, hkept⟩ := hcalled hk
    exact ⟨r, by rw [getElem?_setTask h, if_pos hk, hr], hkept⟩
  · exact retains_self (by rw [getElem?_setTask h, if_neg hk])

theorem retains_withTask (h : l.tasks[i]? = some t) {k : Nat} {act : Task α → Progress α}
    (hact : ∀ u, (k = i → u = t) → (act u).own.Retains i t a) :
    (l.withTask k w act).own.Retains i t a := by
  unfold withTask
  split
  next u hu =>
    refine hact u fun hk => ?_
    rw [hk, h] at hu
    exact (Option.some.inj hu).symm
  next => exact retains_self h

/-- A job keeps its tasks when it lets go of a fiber. -/
theorem retains_withFiber (h : l.tasks[i]? = some t) {k : Nat} {after : Fiber α → World α} :
    (l.withFiber k w fun f l => .through l (after f)).own.Retains i t a := by
  unfold withFiber
  split <;> exact retains_self h

end Local

open Local

theorem retains_doTimes_of_over {i : Nat} {body : List (Step α)}
    {once : Local α → World α → Progress α}
    (honce : ∀ l w (t : Task α), t.Over → l.tasks[i]? = some t →
      (once l w).own.Retains i t (allSpare i body)) (count : Nat) :
    ∀ l w (t : Task α), t.Over → l.tasks[i]? = some t →
      (doTimes body once count l w).own.Retains i t (allSpare i body) := by
  induction count with
  | zero => exact fun l w t _ h => retains_self h
  | succ count ih =>
      intro l w t ht h
      have hfirst := honce l w t ht h
      unfold doTimes
      split
      next l' w' hthrough =>
        rw [hthrough] at hfirst
        have hall := hfirst.trans fun r hr => ih l' w' _ (ht.takeResult r) hr
        rwa [Bool.and_self] at hall
      next pause left l' w' hpaused =>
        rw [hpaused] at hfirst
        exact hfirst
      next => exact hfirst

/-- Whatever a job does, a task of it that is over stays so. It keeps its result until the job takes
it or aborts the task, and never has another one. -/
theorem retains_doSteps_of_over (e : Engine α) (state : FiberState) (i : Nat) :
    ∀ (steps : List (Step α)) l w (t : Task α), t.Over → l.tasks[i]? = some t →
      (doSteps e state steps l w).own.Retains i t (allSpare i steps) := by
  refine steps_induction
    (P := fun s => ∀ l w (t : Task α), t.Over → l.tasks[i]? = some t →
      (doStep e state s l w).own.Retains i t (s.spares i))
    (Q := fun steps => ∀ l w (t : Task α), t.Over → l.tasks[i]? = some t →
      (doSteps e state steps l w).own.Retains i t (allSpare i steps)) ?step ?nil ?cons
  case nil => exact fun l w t _ h => retains_self h
  case cons =>
    intro s rest ihs ihrest l w t ht h
    have hfirst := ihs l w t ht h
    have hweak {m : Local α} (hm : m.Retains i t (s.spares i)) :
        m.Retains i t (allSpare i (s :: rest)) := by
      obtain ⟨r, hr, hlost, hkept⟩ := hm
      exact ⟨r, hr, hlost, fun hspared => hkept (Bool.and_eq_true_iff.mp hspared).1⟩
    unfold doSteps
    split
    next l' w' hthrough =>
      rw [hthrough] at hfirst
      exact hfirst.trans fun r hr => ihrest l' w' _ (ht.takeResult r) hr
    next pause left l' w' hpaused =>
      rw [hpaused] at hfirst
      exact hweak hfirst
    next => exact hweak hfirst
  case step =>
    intro s ihbody l w t ht h
    have hsame {how : Failure} {v : World α} {a : Bool} :
        ∃ r, (some how, t, v).2.1 = { t with result := r } ∧ (r = none ∨ r = t.result) ∧
          (a = true → r = t.result) :=
      ⟨t.result, t.eta.symm, .inr rfl, fun _ => rfl⟩
    cases s with
    | «repeat» count body =>
        simp only [doStep]
        exact retains_doTimes_of_over (fun l w t => ihbody count body rfl l w t) count l w t ht h
    | spawn k job =>
        simp only [doStep]
        split
        · refine retains_self ?_
          have hlt := (Array.getElem?_eq_some_iff.mp h).1
          simp [Progress.own, Array.getElem?_push, hlt.ne, h]
        · exact retains_self h
    | run k =>
        simp only [doStep]
        refine retains_withTask h fun u hu => retains_afterTask h fun hk => ?_
        rw [hu hk, Session.run_rejected e ht.body]
        exact hsame
    | resume k =>
        simp only [doStep]
        refine retains_withTask h fun u hu => retains_afterTask h fun hk => ?_
        rw [hu hk, Session.resume_rejected e ht.fiber]
        exact hsame
    | abort k =>
        simp only [doStep]
        refine retains_withTask h fun u hu => retains_afterTask h fun hk => ?_
        rw [hu hk, ht.abort]
        exact ⟨none, rfl, .inl rfl, by simp [Step.spares, hk]⟩
    | take k =>
        simp only [doStep]
        refine retains_withTask h fun u hu => ?_
        by_cases hk : k = i
        · refine ⟨none, ?_, .inl rfl, by simp [Step.spares, hk]⟩
          rw [Progress.own, getElem?_setTask h, if_pos hk, hu hk]
        · exact retains_self (by rw [Progress.own, getElem?_setTask h, if_neg hk])
    | isDone k =>
        simp only [doStep]
        exact retains_withTask h fun u _ => retains_self h
    | statistics k | prime k | reset k | create k =>
        simp only [doStep]
        split <;> exact retains_self h
    | destroy k target =>
        simp only [doStep]
        split
        · exact retains_withFiber h
        · exact retains_self h
    | drop k => exact retains_withFiber h
    | _ => exact retains_self h

/-! ## Sessions -/

/-- The command takes the result of a task, or aborts the task. -/
def Command.discards (i : Nat) : Command α → Bool
  | .takeTaskResult k | .abortTask k => k == i
  | _ => false

/-- The command drops a task. -/
def Command.drops (i : Nat) : Command α → Bool
  | .dropTask k => k == i
  | _ => false

/-- What a caller is told whose call delivers so. -/
def Reply.told : Task.Delivery → Reply α
  | none => .done
  | some how => .raised how

/-- The tasks that an activity is about. -/
def Activity.tasks : Activity α → List (Task α)
  | .job _ _ l _ | .steps _ _ l _ => l.tasks.toList
  | .stop j _ => j.tasks.toList
  | .drops ts _ _ => ts

theorem Activity.Fits.sound {n : Nat} {A : Activity α} (h : A.Fits n) {t : Task α}
    (ht : t ∈ A.tasks) : t.Sound := by
  cases A with
  | job state steps l w => exact (h.2.tasks t (Array.mem_toList_iff.mp ht)).1
  | steps state steps l w => exact (h.2.tasks t (Array.mem_toList_iff.mp ht)).1
  | stop j w => exact h.tasks t (Array.mem_toList_iff.mp ht)
  | drops ts fs w => exact (h.1 t ht).1

namespace Session

variable {s : Session α} {i : Nat} {t : Task α}

theorem afterTask_eq (s : Session α) (i : Nat) (called : Task.Delivery × Task α × World α) :
    s.afterTask i called = (.told called.1, s.setTask i (some called.2.1) called.2.2) := by
  obtain ⟨_ | how, u, w⟩ := called <;> rfl

/-- A task that is gone does not come back. -/
theorem gone_perform (h : s.tasks[i]? = some none) (c : Command α) :
    (s.perform c).2.tasks[i]? = some none := by
  by_cases hc : c.task? = some i
  · cases c <;> cases hc <;> simp [perform, withTask, h]
  · exact task_perform_of_ne h hc

theorem gone_after (h : s.tasks[i]? = some none) (cs : List (Command α)) :
    (s.after cs).tasks[i]? = some none := by
  induction cs generalizing s with
  | nil => exact h
  | cons c rest ih => exact ih (gone_perform h c)

theorem over_perform (h : s.tasks[i]? = some (some t)) (ht : t.Over) (c : Command α) :
    (s.perform c).2.tasks[i]? = some (if c.drops i then none
      else some { t with result := if c.discards i then none else t.result }) := by
  have hset (u : Option (Task α)) : (s.tasks.set i u)[i]? = some u :=
    List.getElem?_set_self (List.getElem?_eq_some_iff.mp h).1
  by_cases hc : c.task? = some i
  · cases c with
    | runTask k =>
        cases hc
        simp only [perform, withTask, h, run_rejected _ ht.body, afterTask_rejected h]
        simp [Command.drops, Command.discards, t.eta]
    | resumeTask k =>
        cases hc
        simp only [perform, withTask, h, resume_rejected _ ht.fiber, afterTask_rejected h]
        simp [Command.drops, Command.discards, t.eta]
    | abortTask k =>
        cases hc
        simp only [perform, withTask, h, ht.abort, afterTask_eq, setTask, hset]
        simp [Command.drops, Command.discards]
    | takeTaskResult k =>
        cases hc
        simp only [perform, withTask, h, setTask, hset]
        simp [Command.drops, Command.discards]
    | dropTask k =>
        cases hc
        simp only [perform, withTask, h, setTask, hset]
        simp [Command.drops]
    | isTaskDone k | taskResult k =>
        cases hc
        simp [perform, withTask, h, Command.drops, Command.discards, t.eta]
    | _ => cases hc
  · have hother : c.drops i = false ∧ c.discards i = false := by
      cases c <;> simp_all [Command.task?, Command.drops, Command.discards]
    rw [task_perform_of_ne h hc, hother.1, hother.2, if_neg Bool.false_ne_true,
      if_neg Bool.false_ne_true, t.eta]

/-- A task that is over has its result until that is taken, or dropped by aborting the task, or the
task itself is dropped; it never has another one. -/
theorem over_after (h : s.tasks[i]? = some (some t)) (ht : t.Over) (cs : List (Command α)) :
    (s.after cs).tasks[i]? = some (if cs.any (Command.drops i) then none
      else some { t with result := if cs.any (Command.discards i) then none else t.result }) := by
  induction cs generalizing s t with
  | nil => simpa [t.eta, after] using h
  | cons c rest ih =>
      have hfirst := over_perform h ht c
      cases hdrops : c.drops i with
      | true =>
          rw [hdrops, if_pos rfl] at hfirst
          rw [List.any_cons, hdrops, Bool.true_or, if_pos rfl]
          exact gone_after hfirst rest
      | false =>
          rw [hdrops, if_neg Bool.false_ne_true] at hfirst
          have hrest := ih hfirst (ht.takeResult _)
          simp only [List.any_cons, hdrops, Bool.false_or]
          refine hrest.trans ?_
          by_cases hdiscards : c.discards i = true <;> simp [hdiscards]

/-- How a session serves one of its tasks when commands are about it, now and later. -/
structure Serves (s : Session α) (i : Nat) (t : Task α) : Prop where
  delivers : t.Delivers (engine t.levels) s.world
  run : s.perform (.runTask i) = (.told (t.run (engine t.levels) s.world).1,
    s.setTask i (some (t.run (engine t.levels) s.world).2.1) (t.run (engine t.levels) s.world).2.2)
  resume : s.perform (.resumeTask i) = (.told (t.resume (engine t.levels) s.world).1,
    s.setTask i (some (t.resume (engine t.levels) s.world).2.1)
      (t.resume (engine t.levels) s.world).2.2)
  abort : s.perform (.abortTask i) = (.told (t.abort (engine t.levels) s.world).1,
    s.setTask i (some (t.abort (engine t.levels) s.world).2.1)
      (t.abort (engine t.levels) s.world).2.2)
  drop : s.perform (.dropTask i) = (.done, s.setTask i none (t.drop (engine t.levels) s.world))
  /-- Other commands about the task raise nothing. -/
  result : s.perform (.taskResult i) = (.result t.result, s)
  take : s.perform (.takeTaskResult i) =
    (.result t.result, s.setTask i (some { t with result := none }) s.world)
  isDone : s.perform (.isTaskDone i) = (.flag t.done, s)
  early : t.done = false → t.result = none
  /-- Once the task is done its calls are rejected, and it has its result until it loses that. -/
  onceDone : t.done = true → t.Over ∧ ∀ cs : List (Command α),
    (s.after cs).tasks[i]? = some (if cs.any (Command.drops i) then none
      else some { t with result := if cs.any (Command.discards i) then none else t.result })

theorem Sound.serves (hs : s.Sound) (h : s.tasks[i]? = some (some t)) : s.Serves i t := by
  have ht := hs.tasks t (List.mem_of_getElem? h)
  have hsame : (s.perform (.taskResult i)) = (.result t.result, s) := by
    simp only [perform, withTask, h]
  refine ⟨ht.delivers hs.tidy _, ?_, ?_, ?_, ?_, hsame, ?_, ?_, ht.over.2,
    fun hdone => ⟨ht.over.1 hdone, over_after h (ht.over.1 hdone)⟩⟩ <;>
    simp only [perform, withTask, h, afterTask_eq]

/-- What the fibers of a session keep of their jobs: just what the last job left, and nothing once
they went back. -/
structure Forgets (s : Session α) : Prop where
  create : ∀ k, k < s.world.schedulers.length → ∃ g : Fiber α, g.Ready ∧
    (s.perform (.create k)).2.fibers = s.fibers ++ [some g]
  run : ∀ i f (job : Job α), s.fibers[i]? = some (some f) → f.isFree = true → ∃ g : Fiber α,
    s.perform (.run i job) = (.done, s.setFiber i (some g)
      ((engine job.levels).start job (f.entry s.world)).2) ∧
    g.result = ((engine job.levels).start job (f.entry s.world)).1.value? ∧
    g.failure = ((engine job.levels).start job (f.entry s.world)).1.failure?
  destroy : ∀ i f j k, s.fibers[i]? = some (some f) → f.job = some j →
    k < s.world.schedulers.length → ∃ g : Fiber α, g.Ready ∧ g.tag = f.tag ∧
      s.perform (.destroy i k) =
        (.done, s.setFiber i none (((engine f.levels).stop j s.world).takeBack k g))

theorem Sound.forgets (hs : s.Sound) : s.Forgets := by
  refine ⟨fun k hk => ?_, fun i f job hf hfree => ?_, fun i f j k hf hjob hk => ?_⟩
  · refine ⟨_, (hs.tidy.create k).1, ?_⟩
    simp only [perform, withScheduler, List.getElem?_eq_getElem hk]
  · obtain ⟨hresult, hfailure⟩ := Fiber.outcome_settle
      (f := { f.clear with entered := true, state := .running }) rfl rfl
      ((engine job.levels).start job (f.entry s.world)).1
    refine ⟨_, ?_, hresult, hfailure⟩
    simp only [perform, withFiber, hf, Fiber.run_of_isFree hfree, afterFiber]
    rfl
  · obtain ⟨g, hready, htag, hdestroy⟩ := Fiber.destroy_of_job (e := engine f.levels) (w := s.world)
      (hs.fibers f (List.mem_of_getElem? hf)).1 hjob k
    refine ⟨g, hready, htag, ?_⟩
    simp only [perform, withFiber, hf, withScheduler, List.getElem?_eq_getElem hk, hdestroy]

/-- Whatever is commanded and whatever the jobs do, the failure of a job is delivered by the call
that drove the job, and by no other one: to the caller where the task is one of the session, and
otherwise to the job that drives it, which fails with it. A value is there from then on until it is
taken or dropped. Nothing is left for the next job of a fiber. -/
theorem delivers_after {configs : List Config} {s₀ : Session α} (hstart : start configs = .ok s₀)
    (cs : List (Command α)) :
    (s₀.after cs).Forgets ∧
    (∀ i t, (s₀.after cs).tasks[i]? = some (some t) → (s₀.after cs).Serves i t) ∧
    (∀ c p q, (s₀.after cs).Begins c p → Underway p q →
      ∀ t ∈ q.activity.tasks, t.Delivers (engine q.level) q.world) ∧
    ∀ n (l : Local α) w i t, l.tasks[i]? = some t →
      (∀ s called how, Step.Calls (engine n) w i t s called → called.1 = some how →
        ∀ state rest, doJob (engine n) state (s :: rest) l w =
          (.failed how, (l.setTask i called.2.1).leave (engine n) called.2.2)) ∧
      (∀ state, doStep (engine n) state (.take i) l w =
        .through (l.setTask i { t with result := none }) (w.note (.taken (t.result.getD none)))) ∧
      (t.Over → ∀ state steps,
        (doSteps (engine n) state steps l w).own.Retains i t (allSpare i steps)) := by
  obtain ⟨checked, rfl⟩ := start_ok hstart
  obtain ⟨hsound, -⟩ := housed_after (sound_fresh checked)
    (by simpa [held] using housed_fresh checked) cs
  generalize (⟨.fresh checked, [], []⟩ : Session α).after cs = s at *
  refine ⟨hsound.forgets, fun i t ht => hsound.serves ht, fun c p q hbegins hunder t ht => ?_,
    fun n l w i t ht => ⟨fun s called how hs hhow state rest =>
      doJob_of_delivery ht hs hhow state rest,
      fun state => by simp only [doStep, Local.withTask, ht],
      fun hover state steps => retains_doSteps_of_over _ state i steps l w t hover ht⟩⟩
  have hreached := hunder.reached (hbegins.reached hsound) hsound.tidy
  exact (hreached.fits.sound ht).delivers (hreached.moves.tidy hsound.tidy) _

/-- Suspend a task whose job has a task of its own suspended, with its cleanup left to do, and let
another task return a value. -/
def crossing : List (Command Nat) :=
  [.newTask 0 [.spawn 0 [.yieldElse [.panic "cleanup"], .error "inner"], .run 0, .yield, .resume 0],
    .runTask 0, .newTask 0 [.return 7], .runTask 1]

/-- The failure of the inner job reaches the caller that resumes the outer one. The other task keeps
its value until that is taken. If the outer task is dropped instead, nobody hears of the panic. -/
theorem delivers_after_crossing : ∃ s₀ : Session Nat, start [⟨16384, 1⟩] = .ok s₀ ∧
    ((s₀.after crossing).perform (.resumeTask 0)).1 = .raised (.error "inner") ∧
    ((s₀.after crossing).perform (.dropTask 0)).1 = .done ∧
    (∃ t, (s₀.after crossing).tasks[1]? = some (some t) ∧ t.result = some (some 7) ∧
      ∀ cs : List (Command Nat), cs.any (Command.drops 1) = false →
        cs.any (Command.discards 1) = false →
        ((s₀.after crossing).after cs).tasks[1]? = some (some t)) := by
  have hstart : start [⟨16384, 1⟩] = .ok (⟨.fresh [⟨16384, 1⟩], [], []⟩ : Session Nat) := rfl
  obtain ⟨-, hanswers, -⟩ := delivers_after hstart crossing
  obtain ⟨t, ht, hresult⟩ : ∃ t, (after ⟨.fresh [⟨16384, 1⟩], [], []⟩ crossing).tasks[1]? =
      some (some t) ∧ t.result = some (some 7) ∧ t.done = true := ⟨_, rfl, rfl, rfl⟩
  obtain ⟨u, hu⟩ : ∃ u, (after ⟨.fresh [⟨16384, 1⟩], [], []⟩ crossing).tasks[0]? =
      some (some u) := ⟨_, rfl⟩
  refine ⟨_, hstart, rfl, ?_, t, ht, hresult.1, fun cs hdrops hdiscards => ?_⟩
  · rw [(hanswers 0 u hu).drop]
  · rw [((hanswers 1 t ht).onceDone hresult.2).2 cs]
    simp [hdrops, hdiscards, t.eta]

end Session

end ControlFlow.Fibers
