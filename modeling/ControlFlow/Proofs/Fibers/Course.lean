import ControlFlow.Proofs.Fibers.Delivered

/-! # The course of events

What happens to jobs is written down by a scribe, next to the engine that carries them out. Each
deed is written down with the path of the task whose job it is about: the empty path is that of the
job itself, and the tasks of a job are known by their numbers. The scribe reads the states from the
engine, so that it has nothing of its own to decide.
-/

namespace ControlFlow.Fibers

variable {α : Type}

/-- What happens to a job, or to the task that has it. -/
inductive Deed (α : Type) where
  | starts (job : Job α)
  /-- A step is done, and those after it follow. -/
  | does (step : Step α)
  /-- A step is done with which the job returns or fails. -/
  | endsAt (step : Step α)
  | pausesAt (pause : Pause α)
  | resumes (pause : Pause α)
  /-- A suspended job is told to stop. -/
  | isTold (pause : Pause α)
  /-- A suspended job is given up without being told. -/
  | isFreed
  /-- A job is over: its tasks and fibers were dropped, and its deferred values logged, newest
  first. -/
  | isLeft (deferred : List α)
  /-- The fiber on which a job was goes back to a scheduler. -/
  | goesBack (scheduler : Nat)
  /-- A task that has no fiber is aborted, or dropped by the caller. -/
  | isEnded
  /-- A task was dropped by the job that made it. -/
  | isDropped

/-- The numbers of the tasks on the way to a job that is nested in another one. -/
abbrev Path := List Nat

/-- Deeds in the order in which they happen, each with the path of its job. -/
abbrev Course (α : Type) := List (Path × Deed α)

/-- What happens to a job happens inside the job that has its task. -/
def Course.under (i : Nat) (c : Course α) : Course α := c.map fun d => (i :: d.1, d.2)

/-- What happens to a task of a job, if there is such a task. -/
def Local.course (l : Local α) (i : Nat) (course : Task α → Course α) : Course α :=
  match l.tasks[i]? with
  | some t => Course.under i (course t)
  | none => []

/-- What becomes of a job with a step. -/
def Progress.deed (s : Step α) : Progress α → Deed α
  | .through _ _ => .does s
  | .returned _ _ _ | .failed _ _ _ => .endsAt s
  | .paused pause _ _ _ => .pausesAt pause

/-- Who writes down what an engine does. -/
structure Scribe (α : Type) where
  start : Job α → World α → Course α
  resume : Suspended α → World α → Course α
  cancel : Suspended α → World α → Course α
  giveUp : Suspended α → World α → Course α

namespace Scribe

/-- The scribe of an engine for no levels. -/
def silent : Scribe α := ⟨fun _ _ => [], fun _ _ => [], fun _ _ => [], fun _ _ => []⟩

variable (e : Engine α) (r : Scribe α)

/-! ## Fibers -/

def runFiber (f : Fiber α) (job : Job α) (w : World α) : Course α :=
  if f.isFree then r.start job (f.entry w) else []

def resumeFiber (f : Fiber α) (w : World α) : Course α :=
  match f.state, f.job with
  | .yielded, some j => r.resume j w
  | _, _ => []

/-- A job is told to stop, and given up if it suspends itself again. -/
def stop (j : Suspended α) (w : World α) : Course α :=
  r.cancel j w ++
    match (e.cancel j w).1 with
    | .suspended k => r.giveUp k (e.cancel j w).2
    | _ => []

def abortFiber (f : Fiber α) (w : World α) : Course α :=
  match f.state, f.job with
  | .yielded, some j => r.stop e j w
  | _, _ => []

def free (f : Fiber α) (w : World α) : Course α :=
  match f.job with
  | some j => ([], .isFreed) :: r.giveUp j (w.count f.home .freed)
  | none => []

def drop (f : Fiber α) (w : World α) : Course α := r.free f (w.record (.dropped f.number))

def destroy (s : Nat) (f : Fiber α) (w : World α) : Course α :=
  let stopped := f.stopped e w
  let w' := stopped.2.record (.givenBack f.number)
  r.abortFiber e f w ++ ([], .goesBack s) ::
    match w'.schedulers[s]? with
    | some scheduler =>
        if scheduler.cache.length < scheduler.config.cacheSize then []
        else r.free stopped.1.clear w'
    | none => r.free stopped.1.clear w'

/-! ## Tasks -/

def release (t : Task α) (w : World α) : Course α :=
  match t.fiber with
  | some f => r.destroy e t.scheduler f w
  | none => []

def settle (t : Task α) (f : Fiber α) (w : World α) : Course α :=
  match f.failure, f.result with
  | some _, _ => r.release e { t with fiber := some { f with failure := none } } w
  | none, some _ => r.release e { t with fiber := some { f with result := none } } w
  | none, none => []

def runTask (t : Task α) (w : World α) : Course α :=
  match t.body with
  | none => []
  | some body =>
      let created := w.create t.scheduler
      r.runFiber created.1 body created.2 ++
        match created.1.run e body created.2 with
        | .ok (f, w) => r.settle e { t with body := none } f w
        | .error _ => r.drop created.1 created.2

def resumeTask (t : Task α) (w : World α) : Course α :=
  match t.fiber with
  | none => []
  | some f =>
      r.resumeFiber f w ++
        match f.resume e w with
        | .ok (f, w) => r.settle e t f w
        | .error _ => []

def abortTask (t : Task α) (w : World α) : Course α :=
  match t.fiber with
  | none => [([], .isEnded)]
  | some f =>
      r.abortFiber e f w ++
        match f.abort e w with
        | .ok (f, w) => r.destroy e t.scheduler { f with failure := none } w
        | .error _ => r.drop f w

/-! ## Jobs -/

/-- Tasks of a job are dropped, where the first one has a certain number. -/
def drops : Nat → List (Task α) → World α → Course α
  | _, [], _ => []
  | i, t :: rest, w =>
      Course.under i (r.release e t w ++ [([], .isDropped)]) ++ drops (i + 1) rest (t.drop e w)

def leave (l : Local α) (w : World α) : Course α :=
  r.drops e 0 l.tasks.toList w ++ [([], .isLeft l.deferred)]

/-- What is done several times, where `written` is what is written down about `once`. -/
def times (once : Local α → World α → Progress α) (written : Local α → World α → Course α) :
    Nat → Local α → World α → Course α
  | 0, _, _ => []
  | n + 1, l, w =>
      written l w ++
        match once l w with
        | .through l w => times once written n l w
        | _ => []

mutual

/-- A step is written down when it is done, and what happens to nested jobs in its course. What is
repeated is written down step by step. -/
def step (state : FiberState) : Step α → Local α → World α → Course α
  | .repeat n body, l, w => times (doSteps e state body) (steps state body) n l w
  | .run i, l, w =>
      ([], (doStep e state (.run i) l w).deed (.run i)) :: l.course i fun t => r.runTask e t w
  | .resume i, l, w =>
      ([], (doStep e state (.resume i) l w).deed (.resume i)) ::
        l.course i fun t => r.resumeTask e t w
  | .abort i, l, w =>
      ([], (doStep e state (.abort i) l w).deed (.abort i)) :: l.course i fun t => r.abortTask e t w
  | s, l, w => [([], (doStep e state s l w).deed s)]

def steps (state : FiberState) : List (Step α) → Local α → World α → Course α
  | [], _, _ => []
  | s :: rest, l, w =>
      step state s l w ++
        match doStep e state s l w with
        | .through l w => steps state rest l w
        | _ => []

end

def job (state : FiberState) (left : List (Step α)) (l : Local α) (w : World α) : Course α :=
  r.steps e state left l w ++
    match doSteps e state left l w with
    | .paused _ _ _ _ => []
    | p => r.leave e p.own p.world

def proceed (j : Suspended α) (w : World α) : Course α :=
  ([], .resumes j.pause) ::
    match j.pause with
    | .yield | .yieldElse _ => r.job e .running j.rest j.own w
    | .yieldAny => r.job e .running j.rest j.own (w.note .resumed)

def unwind (j : Suspended α) (w : World α) : Course α :=
  ([], .isTold j.pause) ::
    match j.pause with
    | .yield => r.leave e j.own w
    | .yieldAny => r.job e .aborting j.rest j.own (w.note .cancelled)
    | .yieldElse cleanup => r.job e .aborting (cleanup ++ j.rest) j.own w

/-- The scribe for jobs whose nested jobs another one writes down. -/
def outer : Scribe α where
  start job w := ([], .starts job) :: r.job e .running job .empty w
  resume j w := r.proceed e j w
  cancel j w := r.unwind e j w
  giveUp j w := r.leave e j.own w

end Scribe

/-- The scribe for jobs that are nested at most so many levels deep. -/
def scribe : Nat → Scribe α
  | 0 => .silent
  | level + 1 => (scribe level).outer (engine level)

/-! ## Deeds at one place -/

/-- What happens at one of many places. -/
def deedsAt {β : Type} [DecidableEq β] (a : β) (c : List (β × Deed α)) : List (Deed α) :=
  c.filterMap fun d => if d.1 = a then some d.2 else none

section DeedsAt

variable {β γ : Type} [DecidableEq γ]

/-- What happens at a place where nothing is renamed to. -/
theorem deedsAt_map_of_ne {g : β → γ} {b : γ} (h : ∀ a, g a ≠ b) (c : List (β × Deed α)) :
    deedsAt b (c.map fun d => (g d.1, d.2)) = [] := by
  simp [deedsAt, List.filterMap_map, h]

variable [DecidableEq β] {a : β} {c c' : List (β × Deed α)}

@[simp]
theorem deedsAt_nil : deedsAt a ([] : List (β × Deed α)) = [] := rfl

@[simp]
theorem deedsAt_append : deedsAt a (c ++ c') = deedsAt a c ++ deedsAt a c' :=
  List.filterMap_append ..

theorem deedsAt_cons (b : β) (d : Deed α) :
    deedsAt a ((b, d) :: c) = if b = a then d :: deedsAt a c else deedsAt a c := by
  simp only [deedsAt, List.filterMap_cons]
  split
  next h => split at h <;> simp_all
  next h => split at h <;> simp_all

@[simp]
theorem deedsAt_cons_self (d : Deed α) : deedsAt a ((a, d) :: c) = d :: deedsAt a c := by
  rw [deedsAt_cons, if_pos rfl]

theorem deedsAt_cons_of_ne {b : β} (h : b ≠ a) (d : Deed α) :
    deedsAt a ((b, d) :: c) = deedsAt a c := by
  rw [deedsAt_cons, if_neg h]

/-- What happens at a place after all places were renamed. -/
theorem deedsAt_map {g : β → γ} (hg : Function.Injective g) (a : β) (c : List (β × Deed α)) :
    deedsAt (g a) (c.map fun d => (g d.1, d.2)) = deedsAt a c := by
  simp only [deedsAt, List.filterMap_map, Function.comp_def, hg.eq_iff]

end DeedsAt

namespace Course

@[simp]
theorem deedsAt_under_nil (i : Nat) (c : Course α) : deedsAt [] (under i c) = [] :=
  deedsAt_map_of_ne (g := (i :: ·)) (fun _ => List.cons_ne_nil _ _) c

theorem deedsAt_under_cons (i k : Nat) (q : Path) (c : Course α) :
    deedsAt (k :: q) (under i c) = if k = i then deedsAt q c else [] := by
  split
  next h =>
    subst h
    exact deedsAt_map List.cons_injective q c
  next h => exact deedsAt_map_of_ne (g := (i :: ·)) (fun _ heq => h (List.cons.inj heq).1.symm) c

end Course

/-! ## What jobs say -/

/-- What a job logs with a deed: a value, or the way in which its suspension came to an end. -/
def Deed.said? : Deed α → Option (Entry α)
  | .does (.log v) => some (.value v)
  | .resumes .yieldAny => some .resumed
  | .isTold .yieldAny => some .cancelled
  | _ => none

/-- What jobs say, in this order. -/
def logged {β : Type} (c : List (β × Deed α)) : List (Entry α) := c.filterMap fun d => d.2.said?

@[simp]
theorem logged_append {β : Type} (c c' : List (β × Deed α)) :
    logged (c ++ c') = logged c ++ logged c' :=
  List.filterMap_append ..

theorem logged_cons {β : Type} (a : β) (d : Deed α) (c : List (β × Deed α)) :
    logged ((a, d) :: c) = d.said?.toList ++ logged c := by
  cases h : d.said? <;> simp [logged, h]

/-- An entry that a job makes about itself, without reading a state or a counter. -/
def Entry.isSaid : Entry α → Bool
  | .value _ | .resumed | .cancelled => true
  | _ => false

/-- What was said in a world, oldest first. -/
def World.said (w : World α) : List (Entry α) := (w.log.filter Entry.isSaid).reverse

theorem World.said_note (w : World α) (entry : Entry α) :
    (w.note entry).said = w.said ++ if entry.isSaid then [entry] else [] := by
  cases h : entry.isSaid <;> simp [said, note, h]

theorem World.said_congr {w v : World α} (h : v.log = w.log) : v.said = w.said := by
  rw [said, said, h]

end ControlFlow.Fibers
