import ControlFlow.Fibers.Config

/-! # Jobs

A job is a list of steps that runs inside a fiber. It may suspend itself, create and drive tasks
of its own, take fibers from schedulers and give them back, and log what it sees. Values are of any
type; a job that comes to its end without returning one gives none.
-/

namespace ControlFlow.Fibers

/-- What a fiber is doing. -/
inductive FiberState where
  /-- No job has run in the fiber since its context was made. -/
  | init
  | running
  /-- Suspended inside a job. -/
  | yielded
  /-- The last job came to its end. -/
  | idle
  /-- A job has been told to stop and is still running. -/
  | aborting
  /-- The last job was told to stop. -/
  | finished
deriving DecidableEq

def FiberState.label : FiberState → String
  | .init => "Init"
  | .running => "Running"
  | .yielded => "Yielded"
  | .idle => "Idle"
  | .aborting => "Aborting"
  | .finished => "Finished"

/-- How a job fails. -/
inductive Failure where
  | error (text : String)
  /-- The job was told to stop. -/
  | cancelled
  /-- The job gave up, perhaps without a word. -/
  | panic (text : Option String)
deriving DecidableEq

namespace Failure

def isPanic : Failure → Bool
  | panic _ => true
  | _ => false

def message : Failure → Option String
  | error text => some text
  | cancelled => some "fiber aborted"
  | panic text => text

end Failure

/-- A step of a job. Schedulers are known by their position, nested tasks by the order in which
the job made them, and the fibers that it holds by their position, the newest one first. -/
inductive Step (α : Type) where
  | log (value : α)
  /-- Suspend; if told to stop, fail. -/
  | yield
  /-- Suspend; log whether the job was resumed or told to stop, and go on. -/
  | yieldAny
  /-- Suspend; if told to stop, do these steps first and then go on. -/
  | yieldElse (cleanup : List (Step α))
  /-- Log the state of the fiber. -/
  | state
  | return (value : α)
  | error (text : String)
  /-- Fail as if told to stop. -/
  | cancel
  | panic (text : String)
  /-- Do some steps so many times. -/
  | repeat (count : Nat) (body : List (Step α))
  /-- Log the value when the job is left, however that happens. -/
  | defer (value : α)
  /-- Log the statistics of a scheduler. -/
  | statistics (scheduler : Nat)
  /-- Fill the cache of a scheduler. -/
  | prime (scheduler : Nat)
  | reset (scheduler : Nat)
  /-- Take a fiber from a scheduler. -/
  | create (scheduler : Nat)
  | destroy (fiber scheduler : Nat)
  /-- Free a fiber without its scheduler. -/
  | drop (fiber : Nat)
  /-- Make a nested task. -/
  | spawn (scheduler : Nat) (job : List (Step α))
  | run (task : Nat)
  | resume (task : Nat)
  | abort (task : Nat)
  /-- Log whether a nested task is done. -/
  | isDone (task : Nat)
  /-- Take and log the result of a nested task. -/
  | take (task : Nat)

abbrev Job (α : Type) := List (Step α)

/-- Do a job several times; doing nothing takes no step, however often it is done. -/
def Job.times {α : Type} (n : Nat) (job : Job α) : Job α :=
  if n = 0 ∨ job.isEmpty then [] else [.repeat n job]

/-! ## Nesting -/

mutual

/-- How many jobs are nested in a step at most. -/
def Step.depth {α : Type} : Step α → Nat
  | .yieldElse cleanup => depthOfSteps cleanup
  | .repeat _ body => depthOfSteps body
  | .spawn _ job => depthOfSteps job + 1
  | _ => 0

/-- How many jobs are nested in some steps at most. -/
def depthOfSteps {α : Type} : List (Step α) → Nat
  | [] => 0
  | s :: rest => max s.depth (depthOfSteps rest)

end

/-- The number of jobs inside each other, with the job itself. -/
def Job.levels {α : Type} (job : Job α) : Nat := depthOfSteps job + 1

/-! ## Logs -/

structure Statistics where
  /-- Fibers ever allocated. -/
  total : Nat
  /-- Fibers alive, with those in the cache. -/
  current : Nat
  /-- Fibers in the cache. -/
  cached : Nat
  /-- The greatest number of fibers alive at once. -/
  max : Nat
  /-- Contexts in which a job has been started. -/
  initialized : Nat
deriving DecidableEq

inductive Entry (α : Type) where
  | value (value : α)
  | resumed
  | cancelled
  | state (state : FiberState)
  | deferred (value : α)
  | statistics (statistics : Statistics)
  | isDone (done : Bool)
  | taken (value : Option α)

end ControlFlow.Fibers
