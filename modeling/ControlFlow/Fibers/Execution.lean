import ControlFlow.Fibers.Basic

/-! # Running jobs on fibers

A fiber is started, resumed or told to stop by its holder and comes back when its job suspends
itself or is over. A job that is told to stop goes on from where it is suspended; if it suspends
itself again, it is given up: none of its steps is done any more.

However a job is left, its tasks are dropped, oldest first, then the fibers that it holds are freed,
and then its deferred values are logged, both newest first.

Jobs drive the fibers of their own tasks, so everything here is relative to an `Engine` for the
jobs nested inside. Engines are made level by level, as many as jobs are nested.
-/

namespace ControlFlow.Fibers

variable {α : Type}

/-- Why control comes back from a job. -/
inductive Stop (α : Type) where
  /-- The job is over, perhaps with a value. -/
  | returned (value : Option α)
  | failed (how : Failure)
  | suspended (job : Suspended α)

/-- How jobs are carried out. -/
structure Engine (α : Type) where
  start : Job α → World α → Stop α × World α
  resume : Suspended α → World α → Stop α × World α
  /-- Tell a suspended job to stop. -/
  cancel : Suspended α → World α → Stop α × World α
  /-- Leave a suspended job where it is. -/
  giveUp : Suspended α → World α → World α

def Engine.none : Engine α :=
  { start := fun _ w => (.returned .none, w)
    resume := fun _ w => (.returned .none, w)
    cancel := fun _ w => (.returned .none, w)
    giveUp := fun _ w => w }

/-! ## Fibers -/

namespace Fiber

/-- Replace the context of a fiber by a fresh one. -/
def rearm (f : Fiber α) : Fiber α := { f with entered := false, state := .init, job := none }

/-- The fiber after control came back from its job; `suspended` is its state if the job has
suspended itself. -/
def settle (f : Fiber α) (suspended : FiberState) : Stop α → Fiber α
  | .suspended job => { f with state := suspended, job := some job }
  | .returned value => { f with state := .idle, job := none, result := some value }
  | .failed (.panic text) => { f with failure := some (.panic text) }.rearm
  | .failed how => { f with state := .idle, job := none, failure := some how }

/-- Start a job on a fiber, unless it is busy. -/
def run (e : Engine α) (f : Fiber α) (job : Job α) (w : World α) :
    Except Failure (Fiber α × World α) :=
  if f.isFree then
    let w := if f.entered then w else w.count f.home .entered
    let f := { f.clear with entered := true, state := .running }
    let stopped := e.start job w
    .ok (f.settle .yielded stopped.1, stopped.2)
  else .error (.panic (some ("run on a busy fiber (state " ++ f.state.label ++ ")")))

def resume (e : Engine α) (f : Fiber α) (w : World α) : Except Failure (Fiber α × World α) :=
  match f.state, f.job with
  | .yielded, some job =>
      let stopped := e.resume job w
      .ok ({ f with state := .running, job := none }.settle .yielded stopped.1, stopped.2)
  | _, _ => .error (.panic (some "resume of a fiber that is not yielded"))

/-- Tell a suspended job to stop. What it returns and its errors are dropped; a panic is kept. -/
def abort (e : Engine α) (f : Fiber α) (w : World α) : Except Failure (Fiber α × World α) :=
  match f.state, f.job with
  | .yielded, some job =>
      let stopped := e.cancel job w
      let f := { f with state := .aborting, job := none }.settle .aborting stopped.1
      let given : Fiber α × World α := match f.state, f.job with
        | .aborting, some job => (f.rearm, e.giveUp job stopped.2)
        | _, _ => (f, stopped.2)
      .ok ({ given.1 with
        state := .finished, result := .none, failure := given.1.failure.filter Failure.isPanic },
        given.2)
  | _, _ => .error (.panic (some "abort of a fiber that is not yielded"))

/-- Free a fiber. It is counted as gone before its suspended job is given up. -/
def free (e : Engine α) (f : Fiber α) (w : World α) : World α :=
  let w := w.count f.home .freed
  match f.job with
  | some job => e.giveUp job w
  | none => w

/-- Free a fiber without giving it back. -/
def drop (e : Engine α) (f : Fiber α) (w : World α) : World α :=
  f.free e (w.record (.dropped f.number))

/-- A fiber with no job suspended on it: one that is suspended is told to stop. -/
def stopped (e : Engine α) (f : Fiber α) (w : World α) : Fiber α × World α :=
  match f.abort e w with
  | .ok stopped => stopped
  | .error _ => (f, w)

/-- Give a fiber back to a scheduler, which keeps it if its cache has room. A suspended job is
told to stop first, and what the last job left is forgotten. -/
def destroy (e : Engine α) (s : Nat) (f : Fiber α) (w : World α) : World α :=
  let stopped := f.stopped e w
  let f := stopped.1.clear
  let w := stopped.2.record (.givenBack f.number)
  match w.schedulers[s]? with
  | some scheduler =>
      if scheduler.cache.length < scheduler.config.cacheSize then w.keep s f else f.free e w
  | none => f.free e w

end Fiber

/-! ## Tasks -/

namespace Task

def release (e : Engine α) (t : Task α) (w : World α) : Task α × World α :=
  match t.fiber with
  | some f => ({ t with fiber := none }, f.destroy e t.scheduler w)
  | none => (t, w)

/-- What the driver of a task gets: a failure, or nothing. -/
abbrev Delivery := Option Failure

/-- Look at the fiber after control came back. A failure or a result ends the task: its fiber is
given back first, and then the failure is delivered. -/
def settle (e : Engine α) (t : Task α) (f : Fiber α) (w : World α) :
    Delivery × Task α × World α :=
  match f.failure, f.result with
  | some failure, _ =>
      let released := { t with fiber := some { f with failure := none } }.release e w
      (some failure, { released.1 with done := true }, released.2)
  | none, some value =>
      let released := { t with fiber := some { f with result := none } }.release e w
      (none, { released.1 with result := some value, done := true }, released.2)
  | none, none => (none, { t with fiber := some f }, w)

/-- Start a task on a fiber of its scheduler. A task is started once. -/
def run (e : Engine α) (t : Task α) (w : World α) : Delivery × Task α × World α :=
  match t.body with
  | none => (some (.panic (some "internal error: task started twice")), t, w)
  | some body =>
      let t := { t with body := none }
      let created := w.create t.scheduler
      match created.1.run e body created.2 with
      | .ok (f, w) => t.settle e f w
      | .error failure => (some failure, t, created.1.drop e created.2)

/-- Let the suspended job of a task go on. -/
def resume (e : Engine α) (t : Task α) (w : World α) : Delivery × Task α × World α :=
  match t.fiber with
  | none =>
      (some (.panic (some "internal error: resume of a task without a suspended fiber")), t, w)
  | some f =>
      match f.resume e w with
      | .ok (f, w) => t.settle e f w
      | .error failure => (some failure, t, w)

/-- Tell the job of a task to stop. The task is done, without a result; only a panic of the job
is delivered, after its fiber was given back. -/
def abort (e : Engine α) (t : Task α) (w : World α) : Delivery × Task α × World α :=
  let ended := { t with body := none, fiber := none, result := none, done := true }
  match t.fiber with
  | none => (none, ended, w)
  | some f =>
      match f.abort e w with
      | .ok (f, w) =>
          (f.failure, ended, { f with failure := none }.destroy e t.scheduler w)
      | .error failure => (some failure, { t with fiber := none }, f.drop e w)

/-- Drop a task: its fiber goes back. -/
def drop (e : Engine α) (t : Task α) (w : World α) : World α := (t.release e w).2

end Task

/-! ## Jobs -/

/-- What a job has of its own while it runs. -/
structure Local (α : Type) where
  tasks : Array (Task α)
  fibers : List (Fiber α)
  deferred : List α

namespace Local

def empty : Local α := ⟨#[], [], []⟩

/-- Leave a job: its tasks and fibers are dropped and its deferred values logged. -/
def leave (e : Engine α) (l : Local α) (w : World α) : World α :=
  let w := l.tasks.foldl (fun w t => t.drop e w) w
  let w := l.fibers.foldl (fun w f => f.drop e w) w
  l.deferred.foldl (fun w v => w.note (.deferred v)) w

/-- Put a task that was driven back in its place. -/
def setTask (l : Local α) (i : Nat) (t : Task α) : Local α :=
  { l with tasks := l.tasks.setIfInBounds i t }

end Local

/-- Where a job stands after some of its steps. -/
inductive Progress (α : Type) where
  /-- The steps are done, and those after them follow. -/
  | through (own : Local α) (w : World α)
  | returned (value : α) (own : Local α) (w : World α)
  | failed (how : Failure) (own : Local α) (w : World α)
  /-- The job suspends itself; of the steps, some are left. -/
  | paused (pause : Pause α) (left : List (Step α)) (own : Local α) (w : World α)

/-- The fault of naming a scheduler, a task or a fiber that there is not. -/
def Progress.outOfRange (l : Local α) (w : World α) : Progress α := .failed (.panic none) l w

/-- Do something with one of the tasks of a job. -/
def Local.withTask (l : Local α) (i : Nat) (w : World α) (act : Task α → Progress α) :
    Progress α :=
  match l.tasks[i]? with
  | some t => act t
  | none => .outOfRange l w

/-- Let go of one of the fibers that a job holds, and do something with it. -/
def Local.withFiber (l : Local α) (i : Nat) (w : World α)
    (act : Fiber α → Local α → Progress α) : Progress α :=
  match l.fibers[i]? with
  | some f => act f { l with fibers := l.fibers.eraseIdx i }
  | none => .outOfRange l w

/-- Go on after one of the tasks of a job was driven: a failure that it delivers ends the job. -/
def Local.afterTask (l : Local α) (i : Nat) : Task.Delivery × Task α × World α → Progress α
  | (none, t, w) => .through (l.setTask i t) w
  | (some failure, t, w) => .failed failure (l.setTask i t) w

/-- Do a list of steps several times, where `once` does it once. -/
def doTimes (body : List (Step α)) (once : Local α → World α → Progress α) :
    Nat → Local α → World α → Progress α
  | 0, l, w => .through l w
  | n + 1, l, w =>
      match once l w with
      | .through l w => doTimes body once n l w
      | .paused pause left l w => .paused pause (left ++ Job.times n body) l w
      | stopped => stopped

mutual

/-- Do one step of a job. The fiber is in the state `state` while it does. -/
def doStep (e : Engine α) (state : FiberState) : Step α → Local α → World α → Progress α
  | .log v, l, w => .through l (w.note (.value v))
  | .yield, l, w => .paused .yield [] l w
  | .yieldAny, l, w => .paused .yieldAny [] l w
  | .yieldElse cleanup, l, w => .paused (.yieldElse cleanup) [] l w
  | .state, l, w => .through l (w.note (.state state))
  | .return v, l, w => .returned v l w
  | .error text, l, w => .failed (.error text) l w
  | .cancel, l, w => .failed .cancelled l w
  | .panic text, l, w => .failed (.panic (some text)) l w
  | .repeat n body, l, w => doTimes body (doSteps e state body) n l w
  | .defer v, l, w => .through { l with deferred := v :: l.deferred } w
  | .statistics s, l, w =>
      match w.statistics? s with
      | some statistics => .through l (w.note (.statistics statistics))
      | none => .outOfRange l w
  | .prime s, l, w =>
      if s < w.schedulers.length then .through l (w.prime s) else .outOfRange l w
  | .reset s, l, w =>
      if s < w.schedulers.length then .through l (w.reset s) else .outOfRange l w
  | .create s, l, w =>
      if s < w.schedulers.length then
        let created := w.create s
        .through { l with fibers := created.1 :: l.fibers } created.2
      else .outOfRange l w
  | .destroy i s, l, w =>
      if s < w.schedulers.length then
        l.withFiber i w fun f l => .through l (f.destroy e s w)
      else .outOfRange l w
  | .drop i, l, w => l.withFiber i w fun f l => .through l (f.drop e w)
  | .spawn s job, l, w =>
      if s < w.schedulers.length then
        .through { l with tasks := l.tasks.push (.fresh s job) } w
      else .outOfRange l w
  | .run i, l, w => l.withTask i w fun t => l.afterTask i (t.run e w)
  | .resume i, l, w => l.withTask i w fun t => l.afterTask i (t.resume e w)
  | .abort i, l, w => l.withTask i w fun t => l.afterTask i (t.abort e w)
  | .isDone i, l, w => l.withTask i w fun t => .through l (w.note (.isDone t.done))
  | .take i, l, w =>
      l.withTask i w fun t =>
        .through (l.setTask i { t with result := none }) (w.note (.taken (t.result.getD none)))

/-- Do the steps of a job until it suspends itself or is over. -/
def doSteps (e : Engine α) (state : FiberState) :
    List (Step α) → Local α → World α → Progress α
  | [], l, w => .through l w
  | s :: rest, l, w =>
      match doStep e state s l w with
      | .through l w => doSteps e state rest l w
      | .paused pause left l w => .paused pause (left ++ rest) l w
      | stopped => stopped

end

/-- Do what is left of a job. A job that comes to its end is left, and gives no value. -/
def doJob (e : Engine α) (state : FiberState) (steps : List (Step α)) (l : Local α)
    (w : World α) : Stop α × World α :=
  match doSteps e state steps l w with
  | .through l w => (.returned none, l.leave e w)
  | .returned v l w => (.returned (some v), l.leave e w)
  | .failed how l w => (.failed how, l.leave e w)
  | .paused pause left l w => (.suspended ⟨pause, left, l.tasks, l.fibers, l.deferred⟩, w)

namespace Suspended

def own (j : Suspended α) : Local α := ⟨j.tasks, j.fibers, j.deferred⟩

/-- Go on after the suspension. -/
def proceed (e : Engine α) (j : Suspended α) (w : World α) : Stop α × World α :=
  match j.pause with
  | .yield | .yieldElse _ => doJob e .running j.rest j.own w
  | .yieldAny => doJob e .running j.rest j.own (w.note .resumed)

/-- Go on after being told to stop at the suspension. -/
def unwind (e : Engine α) (j : Suspended α) (w : World α) : Stop α × World α :=
  match j.pause with
  | .yield => (.failed .cancelled, j.own.leave e w)
  | .yieldAny => doJob e .aborting j.rest j.own (w.note .cancelled)
  | .yieldElse cleanup => doJob e .aborting (cleanup ++ j.rest) j.own w

end Suspended

/-- The engine for jobs whose nested jobs another engine carries out. -/
def Engine.over (e : Engine α) : Engine α :=
  { start := fun job w => doJob e .running job .empty w
    resume := fun j w => j.proceed e w
    cancel := fun j w => j.unwind e w
    giveUp := fun j w => j.own.leave e w }

/-- The engine for jobs that are nested at most so many levels deep. -/
def engine : Nat → Engine α
  | 0 => .none
  | level + 1 => (engine level).over

/-! ## Levels -/

/-- The number of jobs inside each other in a suspended step. -/
def Pause.depth : Pause α → Nat
  | .yieldElse cleanup => depthOfSteps cleanup
  | _ => 0

mutual

def Fiber.levels : Fiber α → Nat
  | ⟨_, _, _, _, _, _, some ⟨pause, rest, ⟨tasks⟩, _, _⟩⟩ =>
      max (max pause.depth (depthOfSteps rest)) (levelsOfTasks tasks) + 1
  | _ => 0

def Task.levels : Task α → Nat
  | ⟨_, body, none, _, _⟩ => (body.map Job.levels).getD 0
  | ⟨_, body, some fiber, _, _⟩ => max ((body.map Job.levels).getD 0) fiber.levels

def levelsOfTasks : List (Task α) → Nat
  | [] => 0
  | t :: rest => max t.levels (levelsOfTasks rest)

end

end ControlFlow.Fibers
