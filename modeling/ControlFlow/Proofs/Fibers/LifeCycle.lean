import ControlFlow.Proofs.Fibers.Lawful
import ControlFlow.Proofs.Fibers.Ledger

/-! # Tasks and their fibers

In every session, whatever is commanded and whatever the jobs do, a task is waiting, suspended on a
fiber of its own, or over, and the fibers that were handed out and not given back are exactly those
that are held.
-/

namespace ControlFlow.Fibers

variable {α : Type}

/-! ## Tasks -/

/-- What is recorded last when a fiber is given back is that it was. -/
theorem Fiber.ledger_destroy {e : Engine α} {f : Fiber α} (hf : f.Resting) (k : Nat) (w : World α) :
    (f.destroy e k w).ledger.head? = some (.givenBack f.number) := by
  rw [Fiber.destroy_eq hf, World.ledger_takeBack]
  exact congrArg (some ∘ Transfer.givenBack) (f.stopped_number e w)

/-- A call leaves a task with a certain fiber, or the last thing that is done is that this fiber is
given back. -/
def Task.KeepsOrReturns (tag : Tag) (r : Task.Delivery × Task α × World α) : Prop :=
  (∃ f, r.2.1.fiber = some f ∧ f.tag = tag) ∨
    r.2.1.fiber = none ∧ r.2.2.ledger.head? = some (.givenBack tag.1)

/-- Whatever is done with a task, it keeps the fiber that it has taken until it is over or gone, and
gives it back then. -/
structure Task.Returns (e : Engine α) (t : Task α) (w : World α) : Prop where
  run : ∀ job, t.body = some job →
    Task.KeepsOrReturns (w.create t.scheduler).1.tag (t.run e w)
  resume : ∀ f, t.fiber = some f → Task.KeepsOrReturns f.tag (t.resume e w)
  abort : ∀ f, t.fiber = some f → (t.abort e w).2.1.fiber = none ∧
    (t.abort e w).2.2.ledger.head? = some (.givenBack f.number)
  drop : ∀ f, t.fiber = some f → (t.drop e w).ledger.head? = some (.givenBack f.number)

section

variable {e : Engine α} {t : Task α} {f : Fiber α} {w : World α}

/-- A fiber that was driven stays with its task, or the task is over and gave it back at last. -/
theorem Task.keepsOrReturns_settle {tag : Tag} (hf : f.Resting) (htag : f.tag = tag) :
    KeepsOrReturns tag (t.settle e f w) := by
  subst htag
  unfold Task.settle
  split
  · exact .inr ⟨rfl, Fiber.ledger_destroy (Fiber.Step.takeFailure.resting hf) t.scheduler w⟩
  · exact .inr ⟨rfl, Fiber.ledger_destroy (Fiber.Step.takeResult.resting hf) t.scheduler w⟩
  · exact .inl ⟨f, rfl, rfl⟩

/-- Jobs may be carried out in any way whatsoever. -/
theorem Task.Sound.returns (ht : t.Sound) (hw : w.Tidy) (e : Engine α) : t.Returns e w := by
  have hsuspended {f : Fiber α} (hf : t.fiber = some f) :
      f.Resting ∧ ∃ j, f.state = .yielded ∧ f.job = some j := by
    obtain ⟨hrest, hstate, -⟩ := ht.of_fiber hf
    obtain ⟨⟨j, hjob⟩, -⟩ := hrest.yielded hstate
    exact ⟨hrest, j, hstate, hjob⟩
  refine ⟨fun job hjob => ?_, fun f hf => ?_, fun f hf => ?_, fun f hf => ?_⟩
  · have hfree := (hw.create t.scheduler).1.isFree
    simp only [Task.run, hjob, Fiber.run_of_isFree hfree]
    exact Task.keepsOrReturns_settle (.run (Fiber.run_of_isFree (e := e) hfree))
      (Fiber.settle_tag _ _ _)
  · obtain ⟨hrest, j, hstate, hjob⟩ := hsuspended hf
    have hresume := Fiber.resume_of_yielded (e := e) (w := w) hstate hjob
    simp only [Task.resume, hf, hresume]
    exact Task.keepsOrReturns_settle (hrest.resume hresume) (Fiber.settle_tag _ _ _)
  · obtain ⟨hrest, j, hstate, hjob⟩ := hsuspended hf
    obtain ⟨g, habort, hnumber, -⟩ := Fiber.abort_of_yielded (e := e) (w := w) hstate hjob
    simp only [Task.abort, hf, habort]
    refine ⟨trivial, ?_⟩
    rw [← hnumber]
    exact Fiber.ledger_destroy (Fiber.Step.takeFailure.resting (hrest.abort habort).1) _ _
  · simp only [Task.drop, Task.release, hf]
    exact Fiber.ledger_destroy (hsuspended hf).1 _ _

end

/-! ## Sessions -/

/-- The task that a command is about. -/
def Command.task? : Command α → Option Nat
  | .runTask i | .resumeTask i | .abortTask i | .isTaskDone i | .taskResult i | .takeTaskResult i
  | .dropTask i => some i
  | _ => none

namespace Session

/-- The session after some commands. -/
def after (s : Session α) (cs : List (Command α)) : Session α :=
  cs.foldl (fun s c => (s.perform c).2) s

def heldByFiber (f : Option (Fiber α)) : Multiset Tag := (f.map Fiber.held).getD 0

def heldByTask (t : Option (Task α)) : Multiset Tag := (t.map Task.held).getD 0

/-- The fibers that are held in a session, by the caller, by tasks, and by suspended jobs. -/
def held (s : Session α) : Multiset Tag :=
  (s.fibers.map heldByFiber).sum + (s.tasks.map heldByTask).sum

/-- The fibers of a session are at rest, its tasks are sound, and its caches are tidy. -/
structure Sound (s : Session α) : Prop where
  fibers : ∀ f, some f ∈ s.fibers → f.Fits f.levels
  tasks : ∀ t, some t ∈ s.tasks → t.Sound
  tidy : s.world.Tidy

/-- A command was carried out by moves, and the session is sound after it. -/
structure Leads (s : Session α) (r : Reply α × Session α) : Prop where
  moves : Moves s.world s.held r.2.world r.2.held
  sound : r.2.Sound

variable {s : Session α}

theorem leads_same (hs : s.Sound) (reply : Reply α) : s.Leads (reply, s) := ⟨.refl _ _, hs⟩

theorem leads_world (hs : s.Sound) {w : World α} (hmoves : Moves s.world s.held w s.held)
    (reply : Reply α) : s.Leads (reply, { s with world := w }) :=
  ⟨hmoves, hs.fibers, hs.tasks, hmoves.tidy hs.tidy⟩

/-! ## Commands on fibers -/

theorem sound_setFiber (hs : s.Sound) (i : Nat) {g : Option (Fiber α)} {w : World α}
    (hg : ∀ f, g = some f → f.Fits f.levels) (hw : w.Tidy) : (s.setFiber i g w).Sound := by
  refine ⟨fun f hf => ?_, hs.tasks, hw⟩
  rcases List.mem_or_eq_of_mem_set hf with hold | hnew
  · exact hs.fibers f hold
  · exact hg f hnew.symm

theorem leads_setFiber (hs : s.Sound) {i : Nat} {f : Fiber α} (hf : s.fibers[i]? = some (some f))
    {g : Option (Fiber α)} {w : World α} (hmoves : Moves s.world f.held w (heldByFiber g))
    (hg : ∀ f, g = some f → f.Fits f.levels) (reply : Reply α) :
    s.Leads (reply, s.setFiber i g w) := by
  obtain ⟨others, hsum, hset⟩ := exists_sum_map_set heldByFiber hf
  refine ⟨?_, sound_setFiber hs i hg (hmoves.tidy hs.tidy)⟩
  have hframe := hmoves.frame (others + (s.tasks.map heldByTask).sum)
  rw [← add_assoc, ← add_assoc, ← hset g] at hframe
  rw [held, hsum]
  exact hframe

theorem leads_withFiber (hs : s.Sound) {i : Nat} {act : Fiber α → Reply α × Session α}
    (hact : ∀ f, s.fibers[i]? = some (some f) → f.Fits f.levels → s.Leads (act f)) :
    s.Leads (s.withFiber i act) := by
  unfold withFiber
  split
  next f hf => exact hact f hf (hs.fibers f (List.mem_of_getElem? hf))
  next => exact leads_same hs _

theorem leads_withScheduler (hs : s.Sound) {i : Nat} {act : Scheduler α → Reply α × Session α}
    (hact : ∀ x, s.Leads (act x)) : s.Leads (s.withScheduler i act) := by
  unfold withScheduler
  split
  · exact hact _
  · exact leads_same hs _

/-- A fiber that was driven is put back, and a refusal changes nothing. -/
theorem leads_afterFiber (hs : s.Sound) {i : Nat} {f : Fiber α} {n : Nat}
    (hf : s.fibers[i]? = some (some f)) {r : Except Failure (Fiber α × World α)}
    (hr : (∃ how, r = .error how) ∨
      ∃ f' w', r = .ok (f', w') ∧ Moves s.world f.held w' f'.held ∧ f'.Fits n) :
    s.Leads (s.afterFiber i r) := by
  rcases hr with ⟨how, rfl⟩ | ⟨f', w', rfl, hmoves, hfits⟩
  · exact leads_same hs _
  · refine leads_setFiber hs hf hmoves (fun g hg => ?_) _
    cases hg
    exact hfits.self

/-- Taking what a fiber keeps of its last job moves no fiber. -/
theorem leads_taken (hs : s.Sound) {i : Nat} {f g : Fiber α} (hf : s.fibers[i]? = some (some f))
    (hfits : f.Fits f.levels) (hrest : g.Resting) (htag : g.tag = f.tag) (hjob : g.job = f.job)
    (reply : Reply α) : s.Leads (reply, s.setFiber i (some g) s.world) := by
  refine leads_setFiber hs hf ?_ (fun h heq => ?_) reply
  · rw [heldByFiber, Option.map_some, Option.getD_some, Fiber.held_congr htag hjob]
    exact .refl _ _
  · cases heq
    exact (hfits.congr hrest hjob).self

/-! ## Commands on tasks -/

theorem sound_setTask (hs : s.Sound) (i : Nat) {u : Option (Task α)} {w : World α}
    (hu : ∀ t, u = some t → t.Sound) (hw : w.Tidy) : (s.setTask i u w).Sound := by
  refine ⟨hs.fibers, fun t ht => ?_, hw⟩
  rcases List.mem_or_eq_of_mem_set ht with hold | hnew
  · exact hs.tasks t hold
  · exact hu t hnew.symm

theorem leads_setTask (hs : s.Sound) {i : Nat} {t : Task α} (ht : s.tasks[i]? = some (some t))
    {u : Option (Task α)} {w : World α} (hmoves : Moves s.world t.held w (heldByTask u))
    (hu : ∀ t, u = some t → t.Sound) (reply : Reply α) : s.Leads (reply, s.setTask i u w) := by
  obtain ⟨others, hsum, hset⟩ := exists_sum_map_set heldByTask ht
  refine ⟨?_, sound_setTask hs i hu (hmoves.tidy hs.tidy)⟩
  have hframe := hmoves.frame ((s.fibers.map heldByFiber).sum + others)
  rw [add_left_comm, add_left_comm (heldByTask u), ← hset u] at hframe
  rw [held, hsum]
  exact hframe

theorem leads_withTask (hs : s.Sound) {i : Nat} {act : Task α → Reply α × Session α}
    (hact : ∀ t, s.tasks[i]? = some (some t) → t.Fits t.levels → s.Leads (act t)) :
    s.Leads (s.withTask i act) := by
  unfold withTask
  split
  next t ht => exact hact t ht (hs.tasks t (List.mem_of_getElem? ht)).fits
  next => exact leads_same hs _

theorem leads_afterTask (hs : s.Sound) {i : Nat} {t : Task α} {n : Nat}
    (ht : s.tasks[i]? = some (some t)) {r : Task.Delivery × Task α × World α}
    (hr : t.Driven n s.world r) : s.Leads (s.afterTask i r) := by
  obtain ⟨delivery, t', w'⟩ := r
  have hleads (reply : Reply α) := leads_setTask hs ht (u := some t') hr.1
    (fun u hu => by cases hu; exact hr.2.1) reply
  cases delivery with
  | none => exact hleads _
  | some how => exact hleads _

/-! ## All commands -/

/-- Every command is carried out by moves. -/
theorem leads_perform (hs : s.Sound) (c : Command α) : s.Leads (s.perform c) := by
  cases c with
  | create i =>
      refine leads_withScheduler hs fun _ => ?_
      obtain ⟨hready, htidy⟩ := hs.tidy.create i
      refine ⟨?_, fun f hf => ?_, hs.tasks, htidy⟩
      · have hheld : heldByFiber (some (s.world.create i).1) = {(s.world.create i).1.tag} :=
          Fiber.held_of_none hready.job
        have hmove := Moves.single (.create s.world s.held i)
        simpa [held, hheld, ← Multiset.singleton_add, add_comm, add_left_comm, add_assoc]
          using hmove
      · rcases List.mem_append.mp hf with hold | hnew
        · exact hs.fibers f hold
        · cases List.mem_singleton.mp hnew
          exact hready.fits
  | run i job =>
      refine leads_withFiber hs fun f hf hfits => leads_afterFiber hs hf (n := job.levels) ?_
      cases hfree : f.isFree with
      | false => exact .inl ⟨_, Fiber.run_of_not_isFree hfree⟩
      | true =>
          obtain ⟨f', w', hrun, hmoves, hfits', -⟩ :=
            (lawful_engine job.levels).runFiber hfits.1 hfree (Nat.le_refl _) hs.tidy
          exact .inr ⟨f', w', hrun, hmoves, hfits'⟩
  | resume i =>
      refine leads_withFiber hs fun f hf hfits => leads_afterFiber hs hf (n := f.levels) ?_
      by_cases hstate : f.state = .yielded
      · obtain ⟨f', w', hresume, hmoves, hfits', -⟩ :=
          (lawful_engine f.levels).resumeFiber hfits hstate hs.tidy
        exact .inr ⟨f', w', hresume, hmoves, hfits'⟩
      · exact .inl ⟨_, Fiber.resume_of_not_yielded hstate⟩
  | abort i =>
      -- Nothing is suspended on a fiber after it was aborted, so no levels are needed.
      refine leads_withFiber hs fun f hf hfits => leads_afterFiber hs hf (n := 0) ?_
      by_cases hstate : f.state = .yielded
      · obtain ⟨f', w', habort, hmoves, hrest, hstate'⟩ :=
          (lawful_engine f.levels).abortFiber hfits hstate hs.tidy
        exact .inr ⟨f', w', habort, hmoves, hrest, by simp [hrest.job_eq_none hstate']⟩
      · exact .inl ⟨_, Fiber.abort_of_not_yielded hstate⟩
  | destroy i target =>
      exact leads_withFiber hs fun f hf hfits => leads_withScheduler hs fun _ =>
        leads_setFiber hs hf (g := none) ((lawful_engine f.levels).destroy hfits hs.tidy target)
          (by simp) _
  | drop i =>
      exact leads_withFiber hs fun f hf hfits =>
        leads_setFiber hs hf (g := none) ((lawful_engine f.levels).dropFiber hfits hs.tidy)
          (by simp) _
  | takeResult i =>
      exact leads_withFiber hs fun f hf hfits =>
        leads_taken hs hf hfits (Fiber.Step.takeResult.resting hfits.1) rfl rfl _
  | takeFailure i =>
      exact leads_withFiber hs fun f hf hfits =>
        leads_taken hs hf hfits (Fiber.Step.takeFailure.resting hfits.1) rfl rfl _
  | label i => exact leads_withFiber hs fun f hf hfits => leads_same hs _
  | newTask i job =>
      refine leads_withScheduler hs fun _ => ⟨?_, hs.fibers, fun t ht => ?_, hs.tidy⟩
      · simpa [held, heldByTask, Task.fresh, Task.held] using Moves.refl s.world s.held
      · rcases List.mem_append.mp ht with hold | hnew
        · exact hs.tasks t hold
        · cases List.mem_singleton.mp hnew
          exact .waiting i job
  | runTask i =>
      exact leads_withTask hs fun t ht hfits =>
        leads_afterTask hs ht ((lawful_engine t.levels).runTask hfits hs.tidy)
  | resumeTask i =>
      exact leads_withTask hs fun t ht hfits =>
        leads_afterTask hs ht ((lawful_engine t.levels).resumeTask hfits hs.tidy)
  | abortTask i =>
      exact leads_withTask hs fun t ht hfits =>
        leads_afterTask hs ht ((lawful_engine t.levels).abortTask hfits hs.tidy)
  | isTaskDone i => exact leads_withTask hs fun t ht hfits => leads_same hs _
  | taskResult i => exact leads_withTask hs fun t ht hfits => leads_same hs _
  | takeTaskResult i =>
      refine leads_withTask hs fun t ht hfits => leads_setTask hs ht ?_ (fun u hu => ?_) _
      · rw [heldByTask, Option.map_some, Option.getD_some, Task.held_takeResult]
        exact .refl _ _
      · cases hu
        exact hfits.takeResult.1
  | dropTask i =>
      exact leads_withTask hs fun t ht hfits =>
        leads_setTask hs ht (u := none) ((lawful_engine t.levels).drop hfits hs.tidy) (by simp) _
  | prime i => exact leads_withScheduler hs fun _ => leads_world hs (.single (.prime _ _ i)) _
  | reset i => exact leads_withScheduler hs fun _ => leads_world hs (.single (.reset _ _ i)) _
  | config i => exact leads_withScheduler hs fun _ => leads_same hs _

/-- Every command leaves a sound session with the same number of schedulers. -/
theorem sound_perform (hs : s.Sound) (c : Command α) : (s.perform c).2.Sound ∧
    (s.perform c).2.world.schedulers.length = s.world.schedulers.length := by
  have hleads := leads_perform hs c
  exact ⟨hleads.sound, hleads.moves.length⟩

theorem leads_after (hs : s.Sound) (cs : List (Command α)) :
    Moves s.world s.held (s.after cs).world (s.after cs).held ∧ (s.after cs).Sound := by
  induction cs generalizing s with
  | nil => exact ⟨.refl _ _, hs⟩
  | cons c rest ih =>
      have hfirst := leads_perform hs c
      have hrest := ih hfirst.sound
      exact ⟨hfirst.moves.trans hrest.1, hrest.2⟩

/-! ## From the start -/

theorem start_ok {configs : List Config} (h : start configs = .ok s) :
    ∃ configs, s = ⟨.fresh configs, [], []⟩ := by
  unfold start at h
  cases hcheck : configs.mapM Config.check with
  | error fault => simp [hcheck, bind, Except.bind] at h
  | ok checked =>
      simp only [hcheck, bind, Except.bind, pure, Except.pure, Except.ok.injEq] at h
      exact ⟨checked, h.symm⟩

theorem cache_fresh {configs : List Config} {x : Scheduler α}
    (hx : x ∈ (World.fresh configs : World α).schedulers) : x.cache = [] := by
  obtain ⟨c, -, rfl⟩ := List.mem_map.mp hx
  rfl

theorem sound_fresh (configs : List Config) : (⟨.fresh configs, [], []⟩ : Session α).Sound :=
  ⟨nofun, nofun, fun x hx f hf => by simp [cache_fresh hx] at hf⟩

theorem balanced_fresh (configs : List Config) : (World.fresh configs : World α).Balanced 0 := by
  have hcached : (World.fresh configs : World α).cached = 0 := by
    refine List.sum_eq_zero fun c hc => ?_
    obtain ⟨x, hx, rfl⟩ := List.mem_map.mp hc
    rw [World.cachedBy, cache_fresh hx]
    rfl
  refine ⟨?_, ?_, trivial, fun n => ?_⟩
  · simp [hcached, numbers]
  · simp [hcached, numbers]
  · simp [numbers, Out, World.fresh]

/-! ## Single calls -/

theorem run_rejected (e : Engine α) {t : Task α} (h : t.body = none) (w : World α) :
    t.run e w = (some (.panic (some "internal error: task started twice")), t, w) := by
  simp [Task.run, h]

theorem resume_rejected (e : Engine α) {t : Task α} (h : t.fiber = none) (w : World α) :
    t.resume e w = (some (.panic (some
      "internal error: resume of a task without a suspended fiber")), t, w) := by
  simp [Task.resume, h]

theorem afterTask_session (s : Session α) (i : Nat) (r : Task.Delivery × Task α × World α) :
    (s.afterTask i r).2 = s.setTask i (some r.2.1) r.2.2 := by
  obtain ⟨_ | how, t, w⟩ := r <;> rfl

/-- A call that is rejected leaves the session as it was. -/
theorem afterTask_rejected {i : Nat} {t : Task α} (ht : s.tasks[i]? = some (some t))
    (how : Failure) : (s.afterTask i (some how, t, s.world)).2 = s := by
  obtain ⟨hlt, hget⟩ := List.getElem?_eq_some_iff.mp ht
  rw [afterTask_session, setTask, ← hget, List.set_getElem_self]

/-- A command leaves alone each task that it is not about. -/
theorem task_perform_of_ne {c : Command α} {i : Nat} {t : Option (Task α)}
    (ht : s.tasks[i]? = some t) (hc : c.task? ≠ some i) : (s.perform c).2.tasks[i]? = some t := by
  have hset {k : Nat} (hk : some k ≠ some i) (u : Option (Task α)) :
      (s.tasks.set k u)[i]? = some t := by
    rw [List.getElem?_set_ne fun heq => hk (congrArg some heq), ht]
  cases c with
  | newTask k job =>
      simp only [perform, withScheduler]
      split
      · simp [List.getElem?_append_left (List.getElem?_eq_some_iff.mp ht).1, ht]
      · exact ht
  | runTask k | resumeTask k | abortTask k =>
      simp only [perform, withTask]
      split
      · unfold afterTask
        split <;> exact hset hc _
      · exact ht
  | isTaskDone k | taskResult k | takeTaskResult k | dropTask k =>
      simp only [perform, withTask]
      split
      · first | exact ht | exact hset hc _
      · exact ht
  | create k | prime k | reset k | config k =>
      simp only [perform, withScheduler]
      split <;> exact ht
  | run k job | resume k | abort k =>
      simp only [perform, withFiber]
      split
      · unfold afterFiber
        split <;> exact ht
      · exact ht
  | destroy k target =>
      simp only [perform, withFiber, withScheduler]
      split
      · split <;> exact ht
      · exact ht
  | drop k | takeResult k | takeFailure k | label k =>
      simp only [perform, withFiber]
      split <;> exact ht

/-- The task in some place has a fiber. -/
def Keeps (s : Session α) (i : Nat) (f : Fiber α) : Prop :=
  ∃ t g, s.tasks[i]? = some (some t) ∧ t.fiber = some g ∧ g.tag = f.tag

end Session

end ControlFlow.Fibers
