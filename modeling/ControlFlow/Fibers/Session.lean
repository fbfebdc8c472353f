import ControlFlow.Fibers.Execution

/-! # Sessions

A session holds fibers and tasks for a caller, who names them by the order in which they were
made, and carries out one command at a time. What is given back or dropped is gone for good.
-/

namespace ControlFlow.Fibers

/-- What a caller asks for. Schedulers, fibers and tasks are known by their position. -/
inductive Command (α : Type) where
  | create (scheduler : Nat)
  | run (fiber : Nat) (job : Job α)
  | resume (fiber : Nat)
  | abort (fiber : Nat)
  | destroy (fiber scheduler : Nat)
  /-- Free a fiber without its scheduler. -/
  | drop (fiber : Nat)
  | takeResult (fiber : Nat)
  | takeFailure (fiber : Nat)
  | label (fiber : Nat)
  | newTask (scheduler : Nat) (job : Job α)
  | runTask (task : Nat)
  | resumeTask (task : Nat)
  | abortTask (task : Nat)
  | isTaskDone (task : Nat)
  | taskResult (task : Nat)
  | takeTaskResult (task : Nat)
  | dropTask (task : Nat)
  | prime (scheduler : Nat)
  | reset (scheduler : Nat)
  | config (scheduler : Nat)

/-- What a caller is told. -/
inductive Reply (α : Type) where
  | done
  | raised (failure : Failure)
  /-- The fiber or task is gone. -/
  | gone
  /-- A result, if there is one; it may be no value. -/
  | result (result : Option (Option α))
  | failure (failure : Option Failure)
  | label (text : String)
  | flag (value : Bool)
  | config (config : Config)

structure Session (α : Type) where
  world : World α
  /-- The fibers in the order of their creation, none where one is gone. -/
  fibers : List (Option (Fiber α))
  tasks : List (Option (Task α))

variable {α : Type}

namespace Session

/-- A session with a scheduler for each configuration, all of which have to be good. -/
def start (configs : List Config) : Except ConfigFault (Session α) := do
  let configs ← configs.mapM Config.check
  return ⟨.fresh configs, [], []⟩

/-- Put a fiber into its place, or nothing. -/
def setFiber (s : Session α) (i : Nat) (f : Option (Fiber α)) (w : World α) : Session α :=
  { s with world := w, fibers := s.fibers.set i f }

/-- Put a task into its place, or nothing. -/
def setTask (s : Session α) (i : Nat) (t : Option (Task α)) (w : World α) : Session α :=
  { s with world := w, tasks := s.tasks.set i t }

/-- Do something with a fiber, unless it is gone. -/
def withFiber (s : Session α) (i : Nat) (act : Fiber α → Reply α × Session α) :
    Reply α × Session α :=
  match s.fibers[i]? with
  | some (some f) => act f
  | _ => (.gone, s)

def withTask (s : Session α) (i : Nat) (act : Task α → Reply α × Session α) :
    Reply α × Session α :=
  match s.tasks[i]? with
  | some (some t) => act t
  | _ => (.gone, s)

def withScheduler (s : Session α) (i : Nat) (act : Scheduler α → Reply α × Session α) :
    Reply α × Session α :=
  match s.world.schedulers[i]? with
  | some scheduler => act scheduler
  | none => (.raised (.panic none), s)

/-- Go on after a fiber was driven; a refusal changes nothing. -/
def afterFiber (s : Session α) (i : Nat) : Except Failure (Fiber α × World α) →
    Reply α × Session α
  | .ok (f, w) => (.done, s.setFiber i (some f) w)
  | .error failure => (.raised failure, s)

def afterTask (s : Session α) (i : Nat) : Task.Delivery × Task α × World α →
    Reply α × Session α
  | (none, t, w) => (.done, s.setTask i (some t) w)
  | (some failure, t, w) => (.raised failure, s.setTask i (some t) w)

/-- Carry out a command. -/
def perform (s : Session α) : Command α → Reply α × Session α
  | .create i =>
      s.withScheduler i fun _ =>
        let created := s.world.create i
        (.done, { s with world := created.2, fibers := s.fibers ++ [some created.1] })
  | .run i job =>
      s.withFiber i fun f => s.afterFiber i (f.run (engine job.levels) job s.world)
  | .resume i => s.withFiber i fun f => s.afterFiber i (f.resume (engine f.levels) s.world)
  | .abort i => s.withFiber i fun f => s.afterFiber i (f.abort (engine f.levels) s.world)
  | .destroy i scheduler =>
      s.withFiber i fun f =>
        s.withScheduler scheduler fun _ =>
          (.done, s.setFiber i none (f.destroy (engine f.levels) scheduler s.world))
  | .drop i =>
      s.withFiber i fun f => (.done, s.setFiber i none (f.drop (engine f.levels) s.world))
  | .takeResult i =>
      s.withFiber i fun f =>
        (.result f.result, s.setFiber i (some { f with result := none }) s.world)
  | .takeFailure i =>
      s.withFiber i fun f =>
        (.failure f.failure, s.setFiber i (some { f with failure := none }) s.world)
  | .label i => s.withFiber i fun f => (.label f.label, s)
  | .newTask i job =>
      s.withScheduler i fun _ => (.done, { s with tasks := s.tasks ++ [some (.fresh i job)] })
  | .runTask i => s.withTask i fun t => s.afterTask i (t.run (engine t.levels) s.world)
  | .resumeTask i => s.withTask i fun t => s.afterTask i (t.resume (engine t.levels) s.world)
  | .abortTask i => s.withTask i fun t => s.afterTask i (t.abort (engine t.levels) s.world)
  | .isTaskDone i => s.withTask i fun t => (.flag t.done, s)
  | .taskResult i => s.withTask i fun t => (.result t.result, s)
  | .takeTaskResult i =>
      s.withTask i fun t =>
        (.result t.result, s.setTask i (some { t with result := none }) s.world)
  | .dropTask i =>
      s.withTask i fun t => (.done, s.setTask i none (t.drop (engine t.levels) s.world))
  | .prime i => s.withScheduler i fun _ => (.done, { s with world := s.world.prime i })
  | .reset i => s.withScheduler i fun _ => (.done, { s with world := s.world.reset i })
  | .config i => s.withScheduler i fun scheduler => (.config scheduler.config, s)

/-- What has been logged, oldest first. -/
def log (s : Session α) : List (Entry α) := s.world.log.reverse

/-- The same session with an empty log. -/
def forgetLog (s : Session α) : Session α := { s with world := { s.world with log := [] } }

end Session

end ControlFlow.Fibers
