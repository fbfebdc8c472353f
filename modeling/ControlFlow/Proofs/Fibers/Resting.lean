import ControlFlow.Fibers.Session

/-! # Fibers at rest

Whatever jobs do, a fiber that is not executing is in one of four states, and what it keeps of its
last job fits that state. The state alone decides what may be done with the fiber next.
-/

namespace ControlFlow.Fibers

variable {α : Type}

/-- The world after a suspended job was told to stop, and given up where it suspended itself
again. -/
def Engine.stop (e : Engine α) (j : Suspended α) (w : World α) : World α :=
  match (e.cancel j w).1 with
  | .suspended k => e.giveUp k (e.cancel j w).2
  | _ => (e.cancel j w).2

/-- The failure that outlasts the end of a job that was told to stop. -/
def Stop.panic? : Stop α → Option Failure
  | .failed (.panic text) => some (.panic text)
  | _ => none

/-- A fiber that was put into a cache is handed out first, and the others stay where they are. -/
theorem World.create_keep {w : World α} {s : Nat} {x : Scheduler α}
    (hs : w.schedulers[s]? = some x) (f : Fiber α) :
    (w.keep s f).create s = (f, w.record (.handedOut f.number)) := by
  have hback : (w.schedulers.modify s fun y => { y with cache := f :: y.cache }).modify s
      (fun y => { y with cache := x.cache }) = w.schedulers := by
    refine List.ext_getElem? fun i => ?_
    by_cases hi : s = i
    · subst hi
      simp [List.getElem?_modify_eq, hs]
    · simp [List.getElem?_modify_ne _ _ hi]
  simp [create, next, keep, modify, record, hs, hback]

namespace Fiber

/-- What a fiber keeps fits its state, which is none that a fiber has while it executes. -/
def Resting (f : Fiber α) : Prop :=
  match f.state with
  | .init | .finished =>
      f.job = none ∧ f.result = none ∧ ∀ how, f.failure = some how → how.isPanic = true
  | .yielded => f.job.isSome ∧ f.result = none ∧ f.failure = none
  | .idle =>
      f.job = none ∧ (f.result = none ∨ f.failure = none) ∧
        ∀ how, f.failure = some how → how.isPanic = false
  | .running | .aborting => False

/-- One thing done to a fiber, while jobs are carried out in any way whatsoever. -/
inductive Step (f : Fiber α) : Fiber α → Prop where
  | run {e : Engine α} {job : Job α} {w w' : World α} {f' : Fiber α} :
      f.run e job w = .ok (f', w') → Step f f'
  | resume {e : Engine α} {w w' : World α} {f' : Fiber α} :
      f.resume e w = .ok (f', w') → Step f f'
  | abort {e : Engine α} {w w' : World α} {f' : Fiber α} :
      f.abort e w = .ok (f', w') → Step f f'
  | takeResult : Step f { f with result := none }
  | takeFailure : Step f { f with failure := none }
  /-- The fiber is given back to a scheduler that has room for it, and handed out again. -/
  | recycle {e : Engine α} {w : World α} {s : Nat} {scheduler : Scheduler α} :
      (f.stopped e w).2.schedulers[s]? = some scheduler →
      scheduler.cache.length < scheduler.config.cacheSize →
      Step f ((f.destroy e s w).create s).1

/-- The fibers that come of new ones step by step. -/
inductive Reachable : Fiber α → Prop where
  | fresh (number home : Nat) : Reachable (.fresh number home)
  | step {f f' : Fiber α} : Reachable f → f.Step f' → Reachable f'

variable {e : Engine α} {f f' : Fiber α} {w w' : World α} {job : Job α}

theorem isFree_iff : f.isFree = true ↔ f.state = .init ∨ f.state = .idle ∨ f.state = .finished := by
  simp [isFree]

/-! ## What is done to a fiber -/

theorem run_of_isFree (h : f.isFree = true) :
    f.run e job w =
      let w := if f.entered then w else w.count f.home .entered
      .ok ({ f.clear with entered := true, state := .running }.settle .yielded (e.start job w).1,
        (e.start job w).2) := by
  simp [run, h]

theorem run_of_not_isFree (h : f.isFree = false) :
    f.run e job w =
      .error (.panic (some ("run on a busy fiber (state " ++ f.state.label ++ ")"))) := by
  simp [run, h]

theorem resume_of_yielded {j : Suspended α} (hstate : f.state = .yielded) (hjob : f.job = some j) :
    f.resume e w =
      .ok ({ f with state := .running, job := none }.settle .yielded (e.resume j w).1,
        (e.resume j w).2) := by
  simp [resume, hstate, hjob]

theorem resume_of_not_yielded (h : f.state ≠ .yielded) :
    f.resume e w = .error (.panic (some "resume of a fiber that is not yielded")) := by
  unfold resume
  split
  · contradiction
  · rfl

theorem abort_of_not_yielded (h : f.state ≠ .yielded) :
    f.abort e w = .error (.panic (some "abort of a fiber that is not yielded")) := by
  unfold abort
  split
  · contradiction
  · rfl

/-- A job that is told to stop comes to its end, or suspends itself again and is given up. -/
theorem abort_of_yielded {j : Suspended α} (hstate : f.state = .yielded) (hjob : f.job = some j) :
    ∃ f', f.abort e w = .ok (f', e.stop j w) ∧
      f'.number = f.number ∧ f'.home = f.home ∧ f'.state = .finished ∧ f'.job = none ∧
      f'.result = none ∧ (∀ how, f'.failure = some how → how.isPanic = true) ∧
      (f.failure = none → f'.failure = (e.cancel j w).1.panic?) := by
  simp only [abort, Engine.stop, hstate, hjob]
  generalize e.cancel j w = stopped
  obtain ⟨stop, w'⟩ := stopped
  -- Whichever state the job left the fiber in, the end of the call overwrites it.
  cases stop with
  | returned value => simp +contextual [settle, Option.filter_eq_some_iff, Stop.panic?]
  | failed how =>
      cases how <;> simp [settle, rearm, Option.filter_eq_some_iff, Stop.panic?, Failure.isPanic]
  | suspended k => simp +contextual [settle, rearm, Option.filter_eq_some_iff, Stop.panic?]

/-- A fiber that control came back to is at rest. It is suspended, or has a result or a failure. -/
theorem settle_resting (hresult : f.result = none) (hfailure : f.failure = none) (stop : Stop α) :
    (f.settle .yielded stop).Resting ∧
      ((f.settle .yielded stop).state = .yielded ∨ (f.settle .yielded stop).result.isSome ∨
        (f.settle .yielded stop).failure.isSome) := by
  cases stop with
  | returned value => simp [settle, Resting, hfailure]
  | failed how => cases how <;> simp [settle, rearm, Resting, hresult, Failure.isPanic]
  | suspended j => simp [settle, Resting, hresult, hfailure]

/-! ## Fibers at rest stay so -/

theorem Resting.yielded (h : f.Resting) (hstate : f.state = .yielded) :
    (∃ j, f.job = some j) ∧ f.result = none ∧ f.failure = none := by
  rw [Resting, hstate] at h
  exact ⟨Option.isSome_iff_exists.mp h.1, h.2⟩

theorem Resting.isFree_iff (h : f.Resting) : f.isFree = true ↔ f.state ≠ .yielded := by
  cases hstate : f.state <;> simp_all [Resting, isFree]

theorem Resting.job_eq_none (h : f.Resting) (hstate : f.state ≠ .yielded) : f.job = none := by
  unfold Resting at h
  split at h <;> first | exact h.1 | contradiction

/-- Only a fiber whose job is suspended still has that job. -/
theorem Resting.yielded_of_job (h : f.Resting) {j : Suspended α} (hjob : f.job = some j) :
    f.state = .yielded := by
  refine Decidable.byContradiction fun hstate => ?_
  cases hjob.symm.trans (h.job_eq_none hstate)

theorem Resting.run (h : f.run e job w = .ok (f', w')) : f'.Resting := by
  cases hfree : f.isFree with
  | false => simp [run_of_not_isFree hfree] at h
  | true =>
      rw [run_of_isFree hfree] at h
      cases h
      exact (settle_resting rfl rfl _).1

theorem Resting.resume (hf : f.Resting) (h : f.resume e w = .ok (f', w')) : f'.Resting := by
  by_cases hstate : f.state = .yielded
  · obtain ⟨⟨j, hjob⟩, hresult, hfailure⟩ := hf.yielded hstate
    rw [resume_of_yielded hstate hjob] at h
    cases h
    exact (settle_resting hresult hfailure _).1
  · simp [resume_of_not_yielded hstate] at h

/-- However a job takes it, a fiber that it is told to stop on is finished. -/
theorem Resting.abort (hf : f.Resting) (h : f.abort e w = .ok (f', w')) :
    f'.Resting ∧ f'.state = .finished ∧ f'.result = none ∧
      ∀ how, f'.failure = some how → how.isPanic = true := by
  by_cases hstate : f.state = .yielded
  · obtain ⟨⟨j, hjob⟩, -⟩ := hf.yielded hstate
    obtain ⟨g, hg, -, -, hfinished, hnone, hresult, hpanic, -⟩ := abort_of_yielded hstate hjob
    rw [hg] at h
    cases h
    refine ⟨?_, hfinished, hresult, hpanic⟩
    rw [Resting, hfinished]
    exact ⟨hnone, hresult, hpanic⟩
  · simp [abort_of_not_yielded hstate] at h

/-- A fiber on which nothing is suspended and nothing is kept, so that a job may be started. -/
structure Ready (f : Fiber α) : Prop where
  isFree : f.isFree = true
  job : f.job = none
  result : f.result = none
  failure : f.failure = none

theorem Ready.resting (h : f.Ready) : f.Resting := by
  rcases Fiber.isFree_iff.mp h.isFree with hstate | hstate | hstate <;>
    simp [Resting, hstate, h.job, h.result, h.failure]

theorem Resting.clear (h : f.Resting) (hstate : f.state ≠ .yielded) : f.clear.Ready :=
  ⟨h.isFree_iff.mpr hstate, h.job_eq_none hstate, rfl, rfl⟩

theorem stopped_number (f : Fiber α) (e : Engine α) (w : World α) :
    (f.stopped e w).1.number = f.number := by
  unfold Fiber.stopped
  split
  next g habort =>
    by_cases hstate : f.state = .yielded
    · cases hjob : f.job with
      | none => simp [abort, hjob] at habort
      | some j =>
          obtain ⟨g', hg, hnumber, -⟩ := abort_of_yielded (e := e) (w := w) hstate hjob
          cases hg.symm.trans habort
          exact hnumber
    · cases (abort_of_not_yielded hstate).symm.trans habort
  next => rfl

/-- After a suspended job was told to stop, nothing is suspended on the fiber any more. -/
theorem Resting.stopped (h : f.Resting) :
    (f.stopped e w).1.Resting ∧ (f.stopped e w).1.state ≠ .yielded := by
  unfold Fiber.stopped
  by_cases hstate : f.state = .yielded
  · obtain ⟨⟨j, hjob⟩, -⟩ := h.yielded hstate
    obtain ⟨g, hg, -⟩ := abort_of_yielded (e := e) (w := w) hstate hjob
    have hrest := h.abort hg
    rw [hg]
    exact ⟨hrest.1, by simp [hrest.2.1]⟩
  · rw [abort_of_not_yielded hstate]
    exact ⟨h, hstate⟩

/-- A fiber that a scheduler has room for goes into its cache. -/
theorem destroy_of_room {s : Nat} {scheduler : Scheduler α}
    (hs : (f.stopped e w).2.schedulers[s]? = some scheduler)
    (hroom : scheduler.cache.length < scheduler.config.cacheSize) :
    f.destroy e s w =
      ((f.stopped e w).2.record (.givenBack f.number)).keep s (f.stopped e w).1.clear := by
  have hnumber : (f.stopped e w).1.clear.number = f.number := f.stopped_number e w
  simp only [destroy, hnumber]
  split
  next other hother =>
    cases hs.symm.trans hother
    exact if_pos hroom
  next hnone => cases hs.symm.trans hnone

/-- A fiber that a scheduler has room for is the one that it hands out next, with nothing left of
its last job. -/
theorem create_destroy {s : Nat} {scheduler : Scheduler α}
    (hs : (f.stopped e w).2.schedulers[s]? = some scheduler)
    (hroom : scheduler.cache.length < scheduler.config.cacheSize) :
    (f.destroy e s w).create s = ((f.stopped e w).1.clear,
      ((f.stopped e w).2.record (.givenBack f.number)).record (.handedOut f.number)) := by
  have hnumber : (f.stopped e w).1.clear.number = f.number := f.stopped_number e w
  rw [destroy_of_room hs hroom, World.create_keep (w := World.record _ _) hs, hnumber]

theorem Step.resting (hf : f.Resting) (h : f.Step f') : f'.Resting := by
  cases h with
  | run h => exact .run h
  | resume h => exact hf.resume h
  | abort h => exact (hf.abort h).1
  | takeResult => cases hstate : f.state <;> simp_all [Resting]
  | takeFailure => cases hstate : f.state <;> simp_all [Resting]
  | recycle hs hroom =>
      rw [create_destroy hs hroom]
      exact (hf.stopped.1.clear hf.stopped.2).resting

theorem Reachable.resting (h : f.Reachable) : f.Resting := by
  induction h with
  | fresh number home => simp [Resting, Fiber.fresh]
  | step _ h ih => exact h.resting ih

/-- A job that is started runs in a running fiber. -/
theorem run_state (h : f.isFree = true) (n : Nat) :
    f.run (engine (n + 1)) (.state :: job) w =
      f.run (engine (n + 1)) job (w.note (.state .running)) := by
  simp only [run_of_isFree h]
  cases f.entered <;> rfl

/-- Whatever was done to a fiber and however its jobs took it: it is in one of four states; what it
keeps fits that state; the state decides which calls are accepted; a call that is not leaves
everything as it was; a fiber is finished once its job was told to stop; and the next job is started
in a running fiber. -/
theorem Reachable.state_machine (h : f.Reachable) :
    (f.state = .init ∨ f.state = .yielded ∨ f.state = .idle ∨ f.state = .finished) ∧
    (f.state = .yielded → f.result = none ∧ f.failure = none) ∧
    (f.result.isSome → f.state = .idle ∧ f.failure = none) ∧
    (∀ how, f.failure = some how →
      if how.isPanic then f.state = .init ∨ f.state = .finished else f.state = .idle) ∧
    (∀ e job w, (∃ after, f.run e job w = .ok after) ↔
      f.state = .init ∨ f.state = .idle ∨ f.state = .finished) ∧
    (∀ e w, (∃ after, f.resume e w = .ok after) ↔ f.state = .yielded) ∧
    (∀ e w, (∃ after, f.abort e w = .ok after) ↔ f.state = .yielded) ∧
    (∀ (s : Session α) i, s.fibers[i]? = some (some f) →
      (f.isFree = false → ∀ job, (s.perform (.run i job)).2 = s) ∧
      (f.state ≠ .yielded → (s.perform (.resume i)).2 = s ∧ (s.perform (.abort i)).2 = s)) ∧
    (∀ e w f' w', f.abort e w = .ok (f', w') →
      f'.state = .finished ∧ f'.result = none ∧ ∀ how, f'.failure = some how → how.isPanic) ∧
    ∀ n job w, f.isFree → f.run (engine (n + 1)) (.state :: job) w =
      f.run (engine (n + 1)) job (w.note (.state .running)) := by
  have hrest := h.resting
  refine ⟨?_, fun hstate => (hrest.yielded hstate).2, ?_, ?_, fun e job w => ?_, fun e w => ?_,
    fun e w => ?_, fun s i hf => ⟨fun hbusy job => ?_, fun hstate => ?_⟩,
    fun e w f' w' habort => (hrest.abort habort).2, fun n job w hfree => run_state hfree n⟩
  · cases hstate : f.state <;> simp_all [Resting]
  · cases hstate : f.state <;> simp_all [Resting]
    exact fun hsome => hrest.2.1.resolve_left (Option.isSome_iff_ne_none.mp hsome)
  · intro how hhow
    cases hstate : f.state <;> simp_all [Resting]
  · rw [← isFree_iff]
    cases hfree : f.isFree with
    | false => simp [run_of_not_isFree hfree]
    | true => simp [run_of_isFree hfree]
  · by_cases hstate : f.state = .yielded
    · obtain ⟨⟨j, hjob⟩, -⟩ := hrest.yielded hstate
      simp [resume_of_yielded hstate hjob, hstate]
    · simp [resume_of_not_yielded hstate, hstate]
  · by_cases hstate : f.state = .yielded
    · obtain ⟨⟨j, hjob⟩, -⟩ := hrest.yielded hstate
      obtain ⟨f', hf', -⟩ := abort_of_yielded (e := e) (w := w) hstate hjob
      simp [hf', hstate]
    · simp [abort_of_not_yielded hstate, hstate]
  · simp [Session.perform, Session.withFiber, hf, run_of_not_isFree hbusy, Session.afterFiber]
  · simp [Session.perform, Session.withFiber, hf, resume_of_not_yielded hstate,
      abort_of_not_yielded hstate, Session.afterFiber]

/-- A fiber whose job suspends itself again after being told to stop is finished, and the next job
is accepted. -/
theorem state_machine_stubborn : ∃ f : Fiber Nat, f.Reachable ∧ f.state = .finished ∧
    ∀ e job w, ∃ after, f.run e job w = .ok after := by
  have hrun : (fresh 0 0).run (engine 1) [.yieldAny, .yieldAny] (.fresh [] : World Nat) =
      .ok (⟨0, 0, .yielded, true, none, none, some ⟨.yieldAny, [.yieldAny], #[], [], []⟩⟩,
        .fresh []) := rfl
  have habort := Reachable.step (.step (.fresh 0 0) (.run hrun))
    (.abort (e := engine 1) (w := .fresh []) rfl)
  exact ⟨_, habort, rfl, fun e job w =>
    (habort.state_machine.2.2.2.2.1 e job w).mpr (.inr (.inr rfl))⟩

end Fiber

end ControlFlow.Fibers
