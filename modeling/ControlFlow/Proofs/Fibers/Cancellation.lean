import ControlFlow.Proofs.Fibers.Recorded

/-! # Cancelling jobs

The history of a session tells what happened to the jobs of its fibers and tasks, and to those
nested inside. A job that is told to stop finishes in the call that tells it, and no step of it is
done any more afterwards.
-/

namespace ControlFlow.Fibers

variable {α : Type}

/-! ## The call that tells a job to stop -/

/-- A suspended job is told to stop and finishes with certain deeds, of which some come later. -/
def Suspended.StopsIn (j : Suspended α) (ds later : List (Deed α)) : Prop :=
  ∃ last, ds = .isTold j.pause :: (last ++ later) ∧
    Finishes (j.pause.told (allUnrolled j.rest)) j.deferred last

theorem Suspended.StopsIn.append {j : Suspended α} {ds later : List (Deed α)}
    (h : j.StopsIn ds later) (more : List (Deed α)) : j.StopsIn (ds ++ more) (later ++ more) := by
  obtain ⟨last, rfl, hlast⟩ := h
  exact ⟨last, by simp, hlast⟩

namespace Scribe

variable {e : Engine α} {r : Scribe α} {l : Local α} {w : World α}

theorem own_drops (first : Nat) (ts : List (Task α)) (w : World α) :
    deedsAt [] (r.drops e first ts w) = [] := by
  induction ts generalizing first w with
  | nil => rfl
  | cons t rest ih => simp [drops, ih]

theorem own_leave : deedsAt [] (r.leave e l w) = [.isLeft l.deferred] := by
  simp [leave, own_drops]

theorem own_course (i : Nat) (written : Task α → Course α) :
    deedsAt [] (l.course i written) = [] := by
  unfold Local.course
  split <;> simp

theorem own_times {once : Local α → World α → Progress α} {written : Local α → World α → Course α}
    (hwritten : ∀ l w, ∀ d ∈ deedsAt [] (written l w), d.step?.isSome) (count : Nat) :
    ∀ l w, ∀ d ∈ deedsAt [] (times once written count l w), d.step?.isSome := by
  induction count with
  | zero => exact fun l w => nofun
  | succ count ih =>
      intro l w d hd
      rw [times, deedsAt_append] at hd
      rcases List.mem_append.mp hd with hfirst | hrest
      · exact hwritten l w d hfirst
      · split at hrest
        next l' w' _ => exact ih l' w' d hrest
        next => cases hrest

/-- While a job does steps nothing else happens to the job itself. -/
theorem own_steps (e : Engine α) (r : Scribe α) (state : FiberState) :
    ∀ (steps : List (Step α)) l w,
      ∀ d ∈ deedsAt [] (r.steps e state steps l w), d.step?.isSome := by
  have hdeed (p : Progress α) (s : Step α) : (p.deed s).step?.isSome := by cases p <;> rfl
  refine steps_induction
    (P := fun s => ∀ l w, ∀ d ∈ deedsAt [] (r.step e state s l w), d.step?.isSome)
    (Q := fun steps => ∀ l w, ∀ d ∈ deedsAt [] (r.steps e state steps l w), d.step?.isSome)
    ?step ?nil ?cons
  case nil => exact fun l w => nofun
  case cons =>
    intro s rest ihs ihrest l w d hd
    rw [Scribe.steps, deedsAt_append] at hd
    rcases List.mem_append.mp hd with hfirst | hrest
    · exact ihs l w d hfirst
    · split at hrest
      next l' w' _ => exact ihrest l' w' d hrest
      next => cases hrest
  case step =>
    intro s ihbody l w d hd
    cases s with
    | «repeat» count body => exact own_times (ihbody count body rfl) count l w d hd
    | run i | resume i | abort i =>
        simp only [Scribe.step, deedsAt_cons_self, own_course, List.mem_singleton] at hd
        exact hd ▸ hdeed _ _
    | _ =>
        simp only [Scribe.step, deedsAt_cons_self, deedsAt_nil, List.mem_singleton] at hd
        exact hd ▸ hdeed _ _

/-- A job does steps, and is left unless it is suspended. -/
theorem own_job (e : Engine α) (r : Scribe α) (state : FiberState) (left : List (Step α))
    (l : Local α) (w : World α) : ∃ (steps : List (Deed α)) (deferred : List α),
      (∀ d ∈ steps, d.step?.isSome) ∧ deedsAt [] (r.job e state left l w) =
        steps ++ match (doJob e state left l w).1 with
          | .suspended _ => []
          | _ => [.isLeft deferred] := by
  refine ⟨_, (doSteps e state left l w).own.deferred, own_steps e r state left l w, ?_⟩
  rw [Scribe.job, deedsAt_append]
  unfold doJob
  cases doSteps e state left l w <;> simp [own_leave, Progress.own]

/-- A job that is told to stop does steps, and is left. -/
theorem own_stop {n : Nat} {j : Suspended α} (hj : j.Fits n) (w : World α) :
    ∃ (steps : List (Deed α)) (deferred : List α), (∀ d ∈ steps, d.step?.isSome) ∧
      deedsAt [] ((scribe n).stop (engine n) j w) =
        .isTold j.pause :: (steps ++ [.isLeft deferred]) := by
  obtain ⟨n, rfl⟩ := Nat.exists_eq_succ_of_ne_zero hj.pos.ne'
  have hjob (left : List (Step α)) (l : Local α) (v : World α) :
      ∃ (steps : List (Deed α)) (deferred : List α), (∀ d ∈ steps, d.step?.isSome) ∧
        deedsAt [] ((scribe n).job (engine n) .aborting left l v ++
          match (doJob (engine n) .aborting left l v).1 with
          | .suspended k =>
              (scribe n).leave (engine n) k.own (doJob (engine n) .aborting left l v).2
          | _ => []) = steps ++ [.isLeft deferred] := by
    obtain ⟨steps, deferred, hsteps, hown⟩ := own_job (engine n) (scribe n) .aborting left l v
    rw [deedsAt_append, hown]
    cases (doJob (engine n) .aborting left l v).1 with
    | suspended k => exact ⟨steps, k.deferred, hsteps, by simp [own_leave, Suspended.own]⟩
    | returned | failed => exact ⟨steps, deferred, hsteps, by simp⟩
  obtain ⟨pause, rest, tasks, fibers, deferred⟩ := j
  cases pause with
  | yield =>
      have hown : deedsAt [] ((scribe n).leave (engine n) ⟨tasks, fibers, deferred⟩ w ++ []) =
          [] ++ [.isLeft deferred] := by
        rw [List.append_nil]
        exact own_leave
      refine ⟨[], deferred, by simp, ?_⟩
      rw [← hown]
      rfl
  | yieldAny =>
      obtain ⟨steps, last, hsteps, hown⟩ := hjob rest ⟨tasks, fibers, deferred⟩ (w.note .cancelled)
      refine ⟨steps, last, hsteps, ?_⟩
      rw [← hown]
      rfl
  | yieldElse cleanup =>
      obtain ⟨steps, last, hsteps, hown⟩ := hjob (cleanup ++ rest) ⟨tasks, fibers, deferred⟩ w
      refine ⟨steps, last, hsteps, ?_⟩
      rw [← hown]
      rfl

/-- Whatever becomes of a job that is told to stop, it finishes. -/
theorem stop_finishes {n : Nat} {j : Suspended α} (hj : j.Fits n) (hw : w.Tidy) :
    j.StopsIn (deedsAt [] ((scribe n).stop (engine n) j w)) [] := by
  obtain ⟨steps, deferred, hsteps, hown⟩ := own_stop hj w
  have hfollows := ((faithful_scribe n).stop (o := .task) hj hw).follows []
  rw [hown] at hfollows
  exact ⟨_, by rw [hown, List.append_nil], hfollows.finishes_of_steps trivial hsteps⟩

/-- The first tasks of a job are dropped before the others. -/
theorem drops_of_lt {i first : Nat} (h : i < first) (q : Path) (ts : List (Task α)) (w : World α) :
    deedsAt (i :: q) (r.drops e first ts w) = [] := by
  induction ts generalizing first w with
  | nil => rfl
  | cons t rest ih =>
      rw [drops, deedsAt_append, Course.deedsAt_under_cons, if_neg h.ne,
        ih (Nat.lt_succ_of_lt h), List.append_nil]

section Nested

variable {n i : Nat} {t : Task α} {f : Fiber α} {j : Suspended α}

/-- A job that aborts one of its tasks tells the job of the task to stop, if it is suspended. -/
theorem finishes_of_abort (hl : l.Fits n) (hw : w.Tidy) (ht : l.tasks[i]? = some t)
    (hf : t.fiber = some f) (hjob : f.job = some j) (state : FiberState) :
    j.StopsIn (deedsAt [i] ((scribe n).step (engine n) state (.abort i) l w))
      [.goesBack t.scheduler] := by
  have hfits := hl.tasks t (Array.mem_of_getElem? ht)
  have habort := ((faithful_scribe n).abortTask (o := .nested) hfits (by simp) hw).1 f j hf hjob
  rw [Scribe.step, deedsAt_cons_of_ne (List.cons_ne_nil _ _).symm]
  simp only [Local.course, ht]
  rw [Course.deedsAt_under_cons, if_pos rfl, habort, deedsAt_append]
  exact (stop_finishes (hfits.fiber hf hjob).2 hw).append [.goesBack t.scheduler]

/-- With a step that aborts a task nothing is done but what is written down. -/
theorem replays_abort (hl : l.Fits n) (hw : w.Tidy) (i : Nat) (state : FiberState) :
    Replays ((scribe n).step (engine n) state (.abort i) l w) w
      (doStep (engine n) state (.abort i) l w).world := by
  -- The step is done as a list of its own.
  have hstep := ((faithful_scribe n).steps (o := .nested) state false [.abort i] l w []
    (Nat.zero_le n) hl hw).replays
  simp only [Scribe.steps, doSteps] at hstep
  cases hdone : doStep (engine n) state (.abort i) l w <;>
    simpa [hdone, Progress.world] using hstep

theorem finishes_of_drops {ts : List (Task α)} (hts : ∀ t ∈ ts, t.Fits n) (hw : w.Tidy)
    (ht : ts[i]? = some t) (hf : t.fiber = some f) (hjob : f.job = some j) (first : Nat) :
    j.StopsIn (deedsAt [first + i] ((scribe n).drops (engine n) first ts w))
      [.goesBack t.scheduler, .isDropped] := by
  induction ts generalizing first i w with
  | nil => cases ht
  | cons u rest ih =>
      have hu := hts u List.mem_cons_self
      simp only [drops, deedsAt_append, Course.deedsAt_under_cons]
      cases i with
      | zero =>
          cases ht
          have hrelease :=
            ((faithful_scribe n).release (o := .nested) hu (by simp) hw).1 f j hf hjob
          rw [Nat.add_zero, if_pos rfl, hrelease, drops_of_lt (Nat.lt_succ_self first),
            List.append_nil, deedsAt_append, List.append_assoc]
          exact (stop_finishes (hu.fiber hf hjob).2 hw).append [.goesBack t.scheduler, .isDropped]
      | succ i =>
          have htidy := ((lawful_engine n).drop hu hw).tidy hw
          have hrest := ih (fun t ht => hts t (List.mem_cons_of_mem u ht)) htidy ht (first + 1)
          rwa [if_neg (by omega), List.nil_append, ← Nat.add_assoc, Nat.add_right_comm]

/-- A job that is left has the suspended jobs of its tasks told to stop. -/
theorem finishes_of_leave (hl : l.Fits n) (hw : w.Tidy) (ht : l.tasks[i]? = some t)
    (hf : t.fiber = some f) (hjob : f.job = some j) :
    j.StopsIn (deedsAt [i] ((scribe n).leave (engine n) l w))
      [.goesBack t.scheduler, .isDropped] := by
  have htasks : ∀ t ∈ l.tasks.toList, t.Fits n :=
    fun t ht => hl.tasks t (Array.mem_toList_iff.mp ht)
  have hdrops := finishes_of_drops htasks hw (by simpa using ht) hf hjob 0
  rw [Nat.zero_add] at hdrops
  rwa [leave, deedsAt_append, deedsAt_cons_of_ne (List.cons_ne_nil _ _).symm, deedsAt_nil,
    List.append_nil]

end Nested

end Scribe

/-! ## Jobs that do no step -/

theorem Stage.quiet_alone {σ : Stage α} (hσ : σ.Quiet) (p : Path) : (σ.alone p).Quiet := by
  cases p with
  | nil => exact hσ
  | cons => trivial

theorem Task.quiet_stage (p : Path) (t : Task α) : (t.stage p).Quiet := by
  induction p generalizing t with
  | nil =>
      simp only [stage]
      split
      · trivial
      · split <;> trivial
  | cons i q ih =>
      simp only [stage]
      split
      · split
        · exact ih _
        · trivial
      · trivial

theorem Suspended.quiet_stages (j : Suspended α) (p : Path) : (j.stages p).Quiet := by
  cases p with
  | nil => trivial
  | cons i q =>
      simp only [stages, Local.stages]
      split
      · exact Task.quiet_stage q _
      · trivial

/-- Where a fiber is held no job is doing a step. -/
theorem Fiber.quiet_stages (f : Fiber α) (p : Path) : (f.stages .fiber p).Quiet := by
  cases hjob : f.job with
  | none =>
      rw [stages, hjob]
      exact Stage.quiet_alone (by trivial) p
  | some j =>
      rw [stages, hjob]
      exact j.quiet_stages p

/-! ## Histories -/

/-- Where the caller of a session has a job. -/
inductive Place where
  | fiber (i : Nat)
  | task (i : Nat)
deriving DecidableEq

def Place.owner : Place → Owner
  | fiber _ => .fiber
  | task _ => .task

/-- A place, and the way from there to a job nested inside. -/
abbrev Address := Place × Path

def Address.owner (a : Address) : Owner := a.1.owner.at a.2

def Course.placed (a : Place) (c : Course α) : List (Address × Deed α) :=
  c.map fun d => ((a, d.1), d.2)

namespace Session

/-- The stage of the job at some address. A task that is gone is over. -/
def stage (s : Session α) : Address → Stage α
  | (.fiber i, p) =>
      match s.fibers[i]? with
      | some (some f) => f.stages .fiber p
      | _ => .vacant
  | (.task i, p) =>
      match s.tasks[i]? with
      | some (some t) => t.stage p
      | some none => .alone .done p
      | none => .vacant

def fiberCourse (s : Session α) (i : Nat) (course : Fiber α → Course α) :
    List (Address × Deed α) :=
  match s.fibers[i]? with
  | some (some f) => Course.placed (.fiber i) (course f)
  | _ => []

def taskCourse (s : Session α) (i : Nat) (course : Task α → Course α) :
    List (Address × Deed α) :=
  match s.tasks[i]? with
  | some (some t) => Course.placed (.task i) (course t)
  | _ => []

/-- What happens to jobs when a command is carried out. -/
def course (s : Session α) : Command α → List (Address × Deed α)
  | .run i job => s.fiberCourse i fun f => (scribe job.levels).runFiber f job s.world
  | .resume i => s.fiberCourse i fun f => (scribe f.levels).resumeFiber f s.world
  | .abort i => s.fiberCourse i fun f => (scribe f.levels).abortFiber (engine f.levels) f s.world
  | .destroy i scheduler =>
      if scheduler < s.world.schedulers.length then
        s.fiberCourse i fun f => (scribe f.levels).destroy (engine f.levels) scheduler f s.world
      else []
  | .drop i => s.fiberCourse i fun f => (scribe f.levels).drop f s.world
  | .runTask i => s.taskCourse i fun t => (scribe t.levels).runTask (engine t.levels) t s.world
  | .resumeTask i =>
      s.taskCourse i fun t => (scribe t.levels).resumeTask (engine t.levels) t s.world
  | .abortTask i => s.taskCourse i fun t => (scribe t.levels).abortTask (engine t.levels) t s.world
  | .dropTask i =>
      s.taskCourse i fun t =>
        (scribe t.levels).release (engine t.levels) t s.world ++ [([], .isEnded)]
  | _ => []

def history (s : Session α) : List (Command α) → List (Address × Deed α)
  | [] => []
  | c :: cs => s.course c ++ (s.perform c).2.history cs

/-- The world after what a command does to it by itself, before any deed of a job. -/
def asked (s : Session α) : Command α → World α
  | .create i => if i < s.world.schedulers.length then (s.world.create i).2 else s.world
  | .prime i => if i < s.world.schedulers.length then s.world.prime i else s.world
  | .reset i => if i < s.world.schedulers.length then s.world.reset i else s.world
  | .drop i =>
      match s.fibers[i]? with
      | some (some f) => s.world.lose f.tag
      | _ => s.world
  | .runTask i =>
      match s.tasks[i]? with
      | some (some t) => t.supplied s.world
      | _ => s.world
  | _ => s.world

/-- What happened to jobs leads from one session to another one, and replaying it from some world to
that of the other one. -/
structure Recorded (s : Session α) (w : World α) (c : List (Address × Deed α)) (s' : Session α) :
    Prop where
  follows : ∀ a : Address, Follows a.owner (s.stage a) (deedsAt a c) (s'.stage a)
  replays : Replays c w s'.world

variable {s s' : Session α}

theorem recorded_same (hstage : ∀ a, s'.stage a = s.stage a) : s.Recorded s'.world [] s' := by
  refine ⟨fun a => ?_, rfl⟩
  rw [hstage]
  exact .nil _

theorem recorded_unchanged (s : Session α) : s.Recorded s.world [] s :=
  recorded_same fun _ => rfl

theorem deedsAt_placed (a : Place) (p : Path) (c : Course α) :
    deedsAt (a, p) (Course.placed a c) = deedsAt p c :=
  deedsAt_map (g := fun p : Path => (a, p)) (fun p q heq => by simpa using heq) p c

/-- What happens at one place happens nowhere else. -/
theorem recorded_placed {a : Place} {c : Course α} {w : World α} {σ τ : Path → Stage α}
    (h : Records a.owner c w σ s'.world τ) (hσ : ∀ p, s.stage (a, p) = σ p)
    (hτ : ∀ p, s'.stage (a, p) = τ p) (hothers : ∀ b p, b ≠ a → s'.stage (b, p) = s.stage (b, p)) :
    s.Recorded w (Course.placed a c) s' := by
  refine ⟨fun ⟨b, p⟩ => ?_, h.replays.map _⟩
  by_cases hb : b = a
  · subst hb
    rw [deedsAt_placed, hσ, hτ]
    exact h.follows p
  · have hdeeds : deedsAt (b, p) (Course.placed a c) = [] :=
      deedsAt_map_of_ne (g := fun p : Path => (a, p)) (fun p heq => hb (Prod.mk.inj heq).1.symm) c
    rw [hdeeds, hothers b p hb]
    exact .nil _

theorem recorded_setFiber {i : Nat} {f : Fiber α} (hf : s.fibers[i]? = some (some f))
    {g : Option (Fiber α)} {v w : World α} {c : Course α}
    (h : Records .fiber c v (f.stages .fiber) w
      ((g.map (Fiber.stages .fiber)).getD (.alone .vacant))) :
    s.Recorded v (Course.placed (.fiber i) c) (s.setFiber i g w) := by
  have hset : (s.fibers.set i g)[i]? = some g :=
    List.getElem?_set_self (List.getElem?_eq_some_iff.mp hf).1
  refine recorded_placed h (fun p => ?_) (fun p => ?_) fun b p hb => ?_
  · simp only [stage, hf]
  · cases g with
    | none => cases p <;> simp [stage, setFiber, hset, Stage.alone]
    | some g => simp [stage, setFiber, hset]
  · cases b with
    | fiber k =>
        have hk : i ≠ k := fun heq => hb (congrArg Place.fiber heq.symm)
        simp only [stage, setFiber, List.getElem?_set_ne hk]
    | task k => rfl

theorem recorded_setTask {i : Nat} {t : Task α} (ht : s.tasks[i]? = some (some t))
    {u : Option (Task α)} {v w : World α} {c : Course α}
    (h : Records .task c v (t.stage · ) w
      ((u.map fun u p => u.stage p).getD (.alone .done))) :
    s.Recorded v (Course.placed (.task i) c) (s.setTask i u w) := by
  have hset : (s.tasks.set i u)[i]? = some u :=
    List.getElem?_set_self (List.getElem?_eq_some_iff.mp ht).1
  refine recorded_placed h (fun p => ?_) (fun p => ?_) fun b p hb => ?_
  · simp only [stage, ht]
  · cases u <;> simp [stage, setTask, hset]
  · cases b with
    | fiber k => rfl
    | task k =>
        have hk : i ≠ k := fun heq => hb (congrArg Place.task heq.symm)
        simp only [stage, setTask, List.getElem?_set_ne hk]

theorem recorded_withFiber {i : Nat} {act : Fiber α → Reply α × Session α} {w : World α}
    {course : Fiber α → Course α} (hnone : (∀ f, s.fibers[i]? ≠ some (some f)) → w = s.world)
    (hact : ∀ f, s.fibers[i]? = some (some f) →
      s.Recorded w (Course.placed (.fiber i) (course f)) (act f).2) :
    s.Recorded w (s.fiberCourse i course) (s.withFiber i act).2 := by
  have hgone (h : ∀ f, s.fibers[i]? ≠ some (some f)) : s.Recorded w [] s :=
    hnone h ▸ recorded_unchanged s
  rcases hf : s.fibers[i]? with _ | _ | f <;> simp only [withFiber, fiberCourse, hf]
  · exact hgone (by simp [hf])
  · exact hgone (by simp [hf])
  · exact hact f hf

theorem recorded_withTask {i : Nat} {act : Task α → Reply α × Session α} {w : World α}
    {course : Task α → Course α} (hnone : (∀ t, s.tasks[i]? ≠ some (some t)) → w = s.world)
    (hact : ∀ t, s.tasks[i]? = some (some t) →
      s.Recorded w (Course.placed (.task i) (course t)) (act t).2) :
    s.Recorded w (s.taskCourse i course) (s.withTask i act).2 := by
  have hgone (h : ∀ t, s.tasks[i]? ≠ some (some t)) : s.Recorded w [] s :=
    hnone h ▸ recorded_unchanged s
  rcases ht : s.tasks[i]? with _ | _ | t <;> simp only [withTask, taskCourse, ht]
  · exact hgone (by simp [ht])
  · exact hgone (by simp [ht])
  · exact hact t ht

/-- A command that is about a scheduler does nothing if there is no such scheduler. -/
theorem recorded_withScheduler {i : Nat} {act : Scheduler α → Reply α × Session α} {w : World α}
    (hnone : ¬ i < s.world.schedulers.length → w = s.world)
    (hact : ∀ x, i < s.world.schedulers.length → s.Recorded w [] (act x).2) :
    s.Recorded w [] (s.withScheduler i act).2 := by
  unfold withScheduler
  split
  next x hx => exact hact x (List.getElem?_eq_some_iff.mp hx).1
  next hx => exact hnone (Nat.not_lt.mpr (List.getElem?_eq_none_iff.mp hx)) ▸ recorded_unchanged s

theorem getElem?_concat_of_ne {β : Type} (xs : List β) (x : β) {k : Nat} (hk : k ≠ xs.length) :
    (xs ++ [x])[k]? = xs[k]? := by
  rcases Nat.lt_or_gt_of_ne hk with hlt | hgt
  · exact List.getElem?_append_left hlt
  · rw [List.getElem?_eq_none (by simpa using Nat.succ_le_of_lt hgt), List.getElem?_eq_none hgt.le]

/-- A fiber that was just created has no job. -/
theorem stage_addFiber (s : Session α) {f : Fiber α} (hf : f.job = none) (w : World α)
    (a : Address) : stage { s with world := w, fibers := s.fibers ++ [some f] } a = s.stage a := by
  obtain ⟨k | k, p⟩ := a
  · simp only [stage]
    by_cases hk : k = s.fibers.length
    · subst hk
      cases p <;> simp [Fiber.stages, hf, Stage.alone, Stage.closed]
    · rw [getElem?_concat_of_ne _ _ hk]
  · rfl

/-- A task that was just made has not been started. -/
theorem stage_addTask (s : Session α) (i : Nat) (job : Job α) (a : Address) :
    stage { s with tasks := s.tasks ++ [some (.fresh i job)] } a = s.stage a := by
  obtain ⟨k | k, p⟩ := a
  · rfl
  · simp only [stage]
    by_cases hk : k = s.tasks.length
    · subst hk
      cases p <;> simp [Task.stage, Task.fresh]
    · rw [getElem?_concat_of_ne _ _ hk]

/-- A refusal changes nothing, and nothing happens to a job. -/
theorem recorded_refused {a : Place} {c : Course α} (hc : c = []) :
    s.Recorded s.world (Course.placed a c) s := by
  rw [hc]
  exact recorded_unchanged s

/-! ## Commands -/

theorem recorded_run (hs : s.Sound) (i : Nat) (job : Job α) :
    s.Recorded s.world (s.course (.run i job)) (s.perform (.run i job)).2 := by
  refine recorded_withFiber (fun _ => rfl) fun f hf => ?_
  have hfits := hs.fibers f (List.mem_of_getElem? hf)
  cases hfree : f.isFree with
  | false =>
      rw [Fiber.run_of_not_isFree hfree]
      exact recorded_refused (by simp [Scribe.runFiber, hfree])
  | true =>
      have hnone := hfits.1.job_eq_none (hfits.1.isFree_iff.mp hfree)
      obtain ⟨f', w', hrun, -⟩ := (lawful_engine job.levels).runFiber hfits.1 hfree
        (Nat.le_refl _) hs.tidy
      rw [hrun]
      refine recorded_setFiber hf ?_
      have hran := (faithful_scribe job.levels).runFiber (o := .fiber) hfree (Nat.le_refl _)
        hs.tidy hrun
      simpa [Fiber.stages, hnone, Stage.closed] using hran

theorem recorded_resume (hs : s.Sound) (i : Nat) :
    s.Recorded s.world (s.course (.resume i)) (s.perform (.resume i)).2 := by
  refine recorded_withFiber (fun _ => rfl) fun f hf => ?_
  have hfits := hs.fibers f (List.mem_of_getElem? hf)
  by_cases hstate : f.state = .yielded
  · obtain ⟨⟨j, hjob⟩, -⟩ := hfits.1.yielded hstate
    obtain ⟨f', w', hresume, -⟩ := (lawful_engine f.levels).resumeFiber hfits hstate hs.tidy
    rw [hresume]
    refine recorded_setFiber hf ?_
    have hresumed := (faithful_scribe f.levels).resumeFiber (o := .fiber) hfits hjob hs.tidy
      hresume
    rw [Fiber.stages, hjob]
    exact hresumed
  · rw [Fiber.resume_of_not_yielded hstate]
    refine recorded_refused ?_
    unfold Scribe.resumeFiber
    split
    · contradiction
    · rfl

theorem recorded_abort (hs : s.Sound) (i : Nat) :
    s.Recorded s.world (s.course (.abort i)) (s.perform (.abort i)).2 := by
  refine recorded_withFiber (fun _ => rfl) fun f hf => ?_
  have hfits := hs.fibers f (List.mem_of_getElem? hf)
  by_cases hstate : f.state = .yielded
  · obtain ⟨⟨j, hjob⟩, -⟩ := hfits.1.yielded hstate
    obtain ⟨g, habort, -, -, -, hnone, -⟩ :=
      Fiber.abort_of_yielded (e := engine f.levels) (w := s.world) hstate hjob
    have hstop := (faithful_scribe f.levels).stop (o := .fiber) (hfits.2 j hjob) hs.tidy
    rw [habort]
    simp only [Scribe.abortFiber, hstate, hjob]
    refine recorded_setFiber hf ?_
    simpa [Fiber.stages, hjob, hnone] using hstop
  · rw [Fiber.abort_of_not_yielded hstate]
    refine recorded_refused ?_
    unfold Scribe.abortFiber
    split
    · contradiction
    · rfl

theorem recorded_destroy (hs : s.Sound) (i target : Nat) :
    s.Recorded s.world (s.course (.destroy i target)) (s.perform (.destroy i target)).2 := by
  by_cases htarget : target < s.world.schedulers.length
  · simp only [course, if_pos htarget]
    refine recorded_withFiber (fun _ => rfl) fun f hf => ?_
    have hfits := hs.fibers f (List.mem_of_getElem? hf)
    simp only [withScheduler, List.getElem?_eq_getElem htarget]
    refine recorded_setFiber hf ?_
    by_cases hstate : f.state = .yielded
    · obtain ⟨⟨j, hjob⟩, -⟩ := hfits.1.yielded hstate
      have hdestroy := ((faithful_scribe f.levels).destroy (o := .fiber) hfits hjob hs.tidy
        target).2
      rw [Fiber.stages, hjob]
      exact hdestroy
    · rw [Fiber.stages, hfits.1.job_eq_none hstate]
      exact (Scribe.Faithful.destroy_of_not_yielded hfits.1 hstate target).2
  · have hnone : s.world.schedulers[target]? = none :=
      List.getElem?_eq_none (Nat.not_lt.mp htarget)
    simp only [course, if_neg htarget, perform, withFiber, withScheduler, hnone]
    split <;> exact recorded_unchanged s

theorem recorded_drop (hs : s.Sound) (i : Nat) :
    s.Recorded (s.asked (.drop i)) (s.course (.drop i)) (s.perform (.drop i)).2 := by
  refine recorded_withFiber (fun hnone => ?_) fun f hf => recorded_setFiber hf ?_
  · simp only [asked]
  · have hfits := hs.fibers f (List.mem_of_getElem? hf)
    have hlost : s.asked (.drop i) = s.world.lose f.tag := by simp only [asked, hf]
    rw [Option.map_none, Option.getD_none, hlost]
    cases hjob : f.job with
    | none =>
        rw [Fiber.drop_of_none hjob]
        simp only [Scribe.drop, Scribe.free, hjob, Fiber.stages]
        exact .refl _ (.alone .vacant)
    | some j =>
        have hgiven := (faithful_scribe f.levels).giveUp .fiber j _ (hfits.2 j hjob)
          ((World.quiet_lose s.world f.tag).tidy hs.tidy)
        have hfreed : Records .fiber [([], .isFreed)] (s.world.lose f.tag) j.stages
            (s.world.lose f.tag) (j.own.stages (.busy true [] j.deferred)) :=
          .own (.isFreed j.pause _ _ rfl) rfl
        rw [Fiber.drop_of_some hjob]
        simp only [Scribe.drop, Scribe.free, hjob, Fiber.stages]
        exact hfreed.trans hgiven

/-- Taking the result of a task leaves its stages as they are. -/
theorem recorded_takeTaskResult (s : Session α) (i : Nat) :
    s.Recorded s.world [] (s.perform (.takeTaskResult i)).2 := by
  simp only [perform, withTask]
  split
  next t ht =>
    refine recorded_setTask (c := []) ht ?_
    have hsame : (fun p => Task.stage p { t with result := none }) = (t.stage · ) := by
      funext p
      cases p <;> rfl
    rw [Option.map_some, Option.getD_some, hsame]
    exact .refl _ _
  next => exact recorded_unchanged s

/-- Every command does to jobs what its course says, and nothing else to the world than what it asks
for. -/
theorem recorded_perform (hs : s.Sound) (c : Command α) :
    s.Recorded (s.asked c) (s.course c) (s.perform c).2 := by
  cases c with
  | create i =>
      refine recorded_withScheduler (fun hi => if_neg hi) fun _ hi => ?_
      rw [show s.asked (.create i) = (s.world.create i).2 from if_pos hi]
      exact recorded_same (s.stage_addFiber (hs.tidy.create i).1.job _)
  | run i job => exact recorded_run hs i job
  | resume i => exact recorded_resume hs i
  | abort i => exact recorded_abort hs i
  | destroy i target => exact recorded_destroy hs i target
  | drop i => exact recorded_drop hs i
  | takeResult i | takeFailure i =>
      simp only [course, perform, withFiber]
      split
      next f hf => exact recorded_setFiber (c := []) hf (.refl _ _)
      next => exact recorded_unchanged s
  | label i =>
      simp only [course, perform, withFiber]
      split <;> exact recorded_unchanged s
  | newTask i job =>
      exact recorded_withScheduler (fun _ => rfl) fun _ _ => recorded_same (s.stage_addTask i job)
  | runTask i =>
      refine recorded_withTask (fun hnone => ?_) fun t ht => ?_
      · simp only [asked]
      · rw [afterTask_session]
        simp only [asked, ht]
        exact recorded_setTask ht ((faithful_scribe t.levels).runTask
          (hs.tasks t (List.mem_of_getElem? ht)).fits (by simp) hs.tidy)
  | resumeTask i =>
      refine recorded_withTask (fun _ => rfl) fun t ht => ?_
      rw [afterTask_session]
      exact recorded_setTask ht ((faithful_scribe t.levels).resumeTask
        (hs.tasks t (List.mem_of_getElem? ht)).fits (by simp) hs.tidy)
  | abortTask i =>
      refine recorded_withTask (fun _ => rfl) fun t ht => ?_
      rw [afterTask_session]
      exact recorded_setTask ht ((faithful_scribe t.levels).abortTask
        (hs.tasks t (List.mem_of_getElem? ht)).fits (by simp) hs.tidy).2
  | isTaskDone i | taskResult i =>
      simp only [course, perform, withTask]
      split <;> exact recorded_unchanged s
  | takeTaskResult i => exact s.recorded_takeTaskResult i
  | dropTask i =>
      refine recorded_withTask (fun _ => rfl) fun t ht => recorded_setTask ht ?_
      obtain ⟨-, σ, hσ, hrelease⟩ := (faithful_scribe t.levels).release (o := .task)
        (hs.tasks t (List.mem_of_getElem? ht)).fits (by simp) hs.tidy
      exact hrelease.trans (.alone (.isEnded (by simp) hσ) rfl)
  | prime i =>
      refine recorded_withScheduler (fun hi => if_neg hi) fun _ hi => ?_
      rw [show s.asked (.prime i) = s.world.prime i from if_pos hi]
      exact ⟨fun a => .nil _, rfl⟩
  | reset i =>
      refine recorded_withScheduler (fun hi => if_neg hi) fun _ hi => ?_
      rw [show s.asked (.reset i) = s.world.reset i from if_pos hi]
      exact ⟨fun a => .nil _, rfl⟩
  | config i => exact recorded_withScheduler (fun _ => rfl) fun _ _ => recorded_unchanged s

/-- A command says nothing by itself. -/
theorem said_asked (s : Session α) (c : Command α) : (s.asked c).said = s.world.said := by
  cases c with
  | create i =>
      simp only [asked]
      split
      · exact World.said_congr (World.quiet_create _ i).log
      · rfl
  | prime i =>
      simp only [asked]
      split
      · exact World.said_congr (World.quiet_prime _ i).log
      · rfl
  | reset i =>
      simp only [asked]
      split
      · exact World.said_congr (World.quiet_reset _ i).log
      · rfl
  | drop i =>
      simp only [asked]
      split <;> rfl
  | runTask i =>
      simp only [asked]
      split
      next t _ =>
        unfold Task.supplied
        split
        · exact World.said_congr (World.quiet_create _ t.scheduler).log
        · rfl
      next => rfl
  | _ => rfl

/-- The history of a session leads from stage to stage, and tells what jobs have said. -/
theorem recorded_after (hs : s.Sound) (cs : List (Command α)) :
    (∀ a : Address, Follows a.owner (s.stage a) (deedsAt a (s.history cs)) ((s.after cs).stage a)) ∧
      (s.after cs).world.said = s.world.said ++ logged (s.history cs) := by
  induction cs generalizing s with
  | nil => exact ⟨fun a => .nil _, (List.append_nil _).symm⟩
  | cons c rest ih =>
      have hfirst := recorded_perform hs c
      obtain ⟨hfollows, hsaid⟩ := ih (sound_perform hs c).1
      refine ⟨fun a => ?_, ?_⟩
      · rw [history, deedsAt_append]
        exact (hfirst.follows a).append (hfollows a)
      · rw [history, logged_append, ← List.append_assoc, ← s.said_asked c, ← hfirst.replays.said]
        exact hsaid

/-- A command tells the job to stop that is suspended at some place. -/
inductive Cancels (s : Session α) : Command α → Place → Suspended α → Prop where
  | abort {i f j} : s.fibers[i]? = some (some f) → f.job = some j →
      Cancels s (.abort i) (.fiber i) j
  | destroy {i f j target} : s.fibers[i]? = some (some f) → f.job = some j →
      target < s.world.schedulers.length → Cancels s (.destroy i target) (.fiber i) j
  | abortTask {i t f j} : s.tasks[i]? = some (some t) → t.fiber = some f → f.job = some j →
      Cancels s (.abortTask i) (.task i) j
  | dropTask {i t f j} : s.tasks[i]? = some (some t) → t.fiber = some f → f.job = some j →
      Cancels s (.dropTask i) (.task i) j

/-- A command that tells a job to stop does nothing else to it, and the job finishes meanwhile. -/
theorem Cancels.finishes {c : Command α} {a : Place} {j : Suspended α} (h : s.Cancels c a j)
    (hs : s.Sound) :
    s.stage (a, []) = j.waits ∧ (s.perform c).2.stage (a, []) = .closed a.owner ∧
      ∃ later, j.StopsIn (deedsAt (a, []) (s.course c)) later ∧
        ∀ d ∈ later, d = .isEnded ∨ ∃ k, d = .goesBack k := by
  have hfiber {i : Nat} {f : Fiber α} (hf : s.fibers[i]? = some (some f)) (hjob : f.job = some j) :
      f.Fits f.levels ∧ f.state = .yielded ∧ s.stage (.fiber i, []) = j.waits := by
    have hfits := hs.fibers f (List.mem_of_getElem? hf)
    exact ⟨hfits, hfits.1.yielded_of_job hjob,
      by simp [stage, hf, Fiber.stages, hjob, Suspended.stages, Local.stages]⟩
  have htask {i : Nat} {t : Task α} {f : Fiber α} (ht : s.tasks[i]? = some (some t))
      (hf : t.fiber = some f) (hjob : f.job = some j) :
      t.Fits t.levels ∧ j.Fits t.levels ∧ s.stage (.task i, []) = j.waits := by
    have hfits := (hs.tasks t (List.mem_of_getElem? ht)).fits
    exact ⟨hfits, (hfits.fiber hf hjob).2, by simp [stage, ht, Task.stage, hf, hjob]⟩
  have hset {β : Type} {xs : List (Option β)} {i : Nat} {x : β} (hx : xs[i]? = some (some x))
      (y : Option β) : (xs.set i y)[i]? = some y :=
    List.getElem?_set_self (List.getElem?_eq_some_iff.mp hx).1
  cases h with
  | @abort i f j hf hjob =>
      obtain ⟨hfits, hstate, hbefore⟩ := hfiber hf hjob
      obtain ⟨g, habort, -, -, -, hnone, -⟩ :=
        Fiber.abort_of_yielded (e := engine f.levels) (w := s.world) hstate hjob
      have hstops := Scribe.stop_finishes (hfits.2 j hjob) hs.tidy
      refine ⟨hbefore, ?_, [], ?_, by simp⟩
      · simp [perform, withFiber, hf, habort, afterFiber, stage, setFiber, hset hf, Fiber.stages,
          hnone, Stage.alone, Place.owner]
      · simpa only [course, fiberCourse, hf, deedsAt_placed, Scribe.abortFiber, hstate, hjob]
          using hstops
  | @destroy i f j target hf hjob htarget =>
      obtain ⟨hfits, hstate, hbefore⟩ := hfiber hf hjob
      have hstops := Scribe.stop_finishes (hfits.2 j hjob) hs.tidy
      have hdestroy :=
        ((faithful_scribe f.levels).destroy (o := .fiber) hfits hjob hs.tidy target).1
      refine ⟨hbefore, ?_, [.goesBack target], ?_, by simp⟩
      · simp [perform, withFiber, hf, withScheduler, List.getElem?_eq_getElem htarget, stage,
          setFiber, hset hf, Place.owner, Stage.closed]
      · simpa only [course, if_pos htarget, fiberCourse, hf, deedsAt_placed, hdestroy,
          deedsAt_append, deedsAt_cons_self, deedsAt_nil, List.nil_append]
          using hstops.append [.goesBack target]
  | @abortTask i t f j ht hf hjob =>
      obtain ⟨hfits, hj, hbefore⟩ := htask ht hf hjob
      have hstops := Scribe.stop_finishes hj hs.tidy
      have habort := ((faithful_scribe t.levels).abortTask (o := .task) hfits (by simp) hs.tidy).1
      obtain ⟨g, -, -, hended⟩ := ((hs.tasks t (List.mem_of_getElem? ht)).delivers hs.tidy
        (engine t.levels)).abort f j hf hjob
      refine ⟨hbefore, ?_, [.goesBack t.scheduler], ?_, by simp⟩
      · simp [perform, withTask, ht, afterTask_eq, hended, Task.ended, stage, setTask, hset ht,
          Task.stage, Place.owner, Stage.closed]
      · simpa only [course, taskCourse, ht, deedsAt_placed, habort f j hf hjob, deedsAt_append,
          deedsAt_cons_self, deedsAt_nil, List.nil_append]
          using hstops.append [.goesBack t.scheduler]
  | @dropTask i t f j ht hf hjob =>
      obtain ⟨hfits, hj, hbefore⟩ := htask ht hf hjob
      have hstops := Scribe.stop_finishes hj hs.tidy
      have hrelease := ((faithful_scribe t.levels).release (o := .task) hfits (by simp) hs.tidy).1
      refine ⟨hbefore, ?_, [.goesBack t.scheduler, .isEnded], ?_, by simp⟩
      · simp [perform, withTask, ht, stage, setTask, hset ht, Stage.alone, Place.owner,
          Stage.closed]
      · simpa only [course, taskCourse, ht, deedsAt_placed, deedsAt_append, hrelease f j hf hjob,
          deedsAt_cons_self, deedsAt_nil, List.nil_append, List.append_assoc, List.cons_append]
          using hstops.append [.goesBack t.scheduler, .isEnded]

/-- Between two commands no job is doing a step. -/
theorem stage_quiet (s : Session α) (a : Address) : (s.stage a).Quiet := by
  obtain ⟨i | i, p⟩ := a
  · simp only [stage]
    split
    · exact Fiber.quiet_stages _ p
    · trivial
  · simp only [stage]
    split
    · exact Task.quiet_stage p _
    · exact Stage.quiet_alone (by trivial) p
    · trivial

/-- In whatever way a job is cancelled, and whatever was commanded before: the job is told to stop
where it is suspended, does the steps that it does in that case in their order until it is over or
suspends itself again, and is left before the call is back. No step of it is done afterwards. A job
that is not cancelled does each of its steps once at most, in their order. The history leaves
nothing out: replaying the deeds of a command leads from the world after what the command does by
itself to the world after the command. -/
theorem final_after {configs : List Config} {s₀ : Session α} (hstart : start configs = .ok s₀)
    (cs : List (Command α)) :
    (∀ a, Follows a.owner .vacant (deedsAt a (s₀.history cs)) ((s₀.after cs).stage a)) ∧
    (∀ c, Replays ((s₀.after cs).course c) ((s₀.after cs).asked c)
      ((s₀.after cs).perform c).2.world) ∧
    (s₀.after cs).world.said = logged (s₀.history cs) ∧
    (∀ c a j, (s₀.after cs).Cancels c a j →
      (s₀.after cs).stage (a, []) = j.waits ∧
      ((s₀.after cs).perform c).2.stage (a, []) = .closed a.owner ∧
      ∃ later, j.StopsIn (deedsAt (a, []) ((s₀.after cs).course c)) later ∧
        ∀ d ∈ later, d = .isEnded ∨ ∃ k, d = .goesBack k) ∧
    (∀ n (l : Local α) (w : World α) i (t : Task α) (f : Fiber α) (j : Suspended α), l.Fits n →
      w.Tidy → l.tasks[i]? = some t → t.fiber = some f → f.job = some j →
      (∀ state,
        Replays ((scribe n).step (engine n) state (.abort i) l w) w
          (doStep (engine n) state (.abort i) l w).world ∧
        j.StopsIn (deedsAt [i] ((scribe n).step (engine n) state (.abort i) l w))
          [.goesBack t.scheduler]) ∧
      Replays ((scribe n).leave (engine n) l w) w (l.leave (engine n) w) ∧
      j.StopsIn (deedsAt [i] ((scribe n).leave (engine n) l w))
        [.goesBack t.scheduler, .isDropped]) ∧
    (∀ a before pause after, deedsAt a (s₀.history cs) = before ++ .isTold pause :: after →
      ∃ earlier job since left last later,
        before = earlier ++ .starts job :: (since ++ [.pausesAt pause]) ∧ (∀ d ∈ since, d.Plain) ∧
        allUnrolled job = stepsOf since ++ pause.step :: left ∧
        after = last ++ later ∧ Finishes (pause.told left) (deferredBy since) last ∧
        Final a.owner later) ∧
    ∀ a before job since later,
      deedsAt a (s₀.history cs) = before ++ .starts job :: (since ++ later) →
      (∀ d ∈ since, d.Plain) → stepsOf since <+: allUnrolled job := by
  obtain ⟨checked, rfl⟩ := start_ok hstart
  obtain ⟨hrecorded, hsaid⟩ := recorded_after (sound_fresh (α := α) checked) cs
  have hsound := (housed_after (sound_fresh (α := α) checked)
    (by simpa [held] using housed_fresh checked) cs).1
  have hfollows (a : Address) : Follows a.owner .vacant
      (deedsAt a (history ⟨.fresh checked, [], []⟩ cs))
      (stage (after ⟨.fresh checked, [], []⟩ cs) a) := by
    obtain ⟨k | k, p⟩ := a <;> exact hrecorded _
  refine ⟨hfollows, fun c => (recorded_perform hsound c).replays, hsaid,
    fun c a j hc => hc.finishes hsound,
    fun n l w i t f j hl hw ht hf hjob => ⟨fun state => ⟨?_, ?_⟩, ?_, ?_⟩,
    fun a before pause after hdeeds => ?_, fun a before job since later hdeeds hsince => ?_⟩
  · exact Scribe.replays_abort hl hw i state
  · exact Scribe.finishes_of_abort hl hw ht hf hjob state
  · exact ((faithful_scribe n).leave (o := .nested) false hl hw).replays
  · exact Scribe.finishes_of_leave hl hw ht hf hjob
  · have hthere := hfollows a
    rw [hdeeds] at hthere
    exact hthere.cancelled (stage_quiet _ a)
  · have hthere := hfollows a
    rw [hdeeds] at hthere
    exact hthere.inOrder hsince

/-- Abort a job that goes on although it was told to stop, and suspends itself again. Then start
another one on the same fiber. -/
def stubborn : List (Command Nat) :=
  [.create 0, .run 0 [.log 1, .defer 9, .yieldAny, .repeat 2 [.log 2], .yield, .prime 0, .log 3],
    .abort 0, .run 0 [.log 4]]

/-- The steps after the second suspension are not done, neither then nor later: nothing is logged
with them, and no cache is filled. -/
theorem final_after_stubborn : ∃ s₀ : Session Nat, start [.standard] = .ok s₀ ∧
    (s₀.after stubborn).world.said =
      [.value 1, .cancelled, .value 2, .value 2, .value 4] ∧
    ((s₀.after (stubborn.take 2)).perform (.abort 0)).2.stage (.fiber 0, []) = .vacant ∧
    Replays ((s₀.after (stubborn.take 2)).course (.abort 0)) (s₀.after (stubborn.take 2)).world
      (s₀.after (stubborn.take 3)).world ∧
    ∃ earlier since left last later, deedsAt (.fiber 0, []) (s₀.history stubborn) =
        earlier ++ .isTold .yieldAny :: (last ++ later) ∧
      Finishes (Pause.yieldAny.told left) (deferredBy since) last ∧ Final .fiber later := by
  have hstart : start [.standard] = .ok (⟨.fresh [.standard], [], []⟩ : Session Nat) := rfl
  obtain ⟨-, -, hsaid, -, -, hcancelled, -⟩ := final_after hstart stubborn
  obtain ⟨-, hreplays, -, hcancels, -⟩ := final_after hstart (stubborn.take 2)
  obtain ⟨-, hvacant, -⟩ := hcancels (.abort 0) (.fiber 0) _ (.abort rfl rfl)
  have hdeeds : deedsAt (.fiber 0, []) (history ⟨.fresh [.standard], [], []⟩ stubborn) =
      [.starts [.log 1, .defer 9, .yieldAny, .repeat 2 [.log 2], .yield, .prime 0, .log 3],
        .does (.log 1), .does (.defer 9), .pausesAt .yieldAny] ++ .isTold .yieldAny ::
      [.does (.log 2), .does (.log 2), .pausesAt .yield, .isLeft [9], .starts [.log 4],
        .does (.log 4), .isLeft []] := rfl
  obtain ⟨_, _, since, left, last, later, -, -, -, hafter, hlast, hlater⟩ :=
    hcancelled (.fiber 0, []) _ .yieldAny _ hdeeds
  rw [hafter] at hdeeds
  exact ⟨_, hstart, hsaid.trans rfl, hvacant, hreplays (.abort 0), _, since, left, last, later,
    hdeeds, hlast, hlater⟩

end Session

end ControlFlow.Fibers
