import ControlFlow.Fibers.Job

/-! # Fibers, tasks and schedulers

A fiber carries out one job after the other. It belongs to whoever holds it: a caller, a task, a job
or the cache of a scheduler; a suspended job holds the tasks that it made and the fibers that it
took. A scheduler hands out fibers, takes them back into a bounded cache whose last fiber is the
first to be handed out, and counts them.
-/

namespace ControlFlow.Fibers

/-- The step at which a job is suspended. -/
inductive Pause (α : Type) where
  | yield
  | yieldAny
  | yieldElse (cleanup : Job α)

mutual

structure Fiber (α : Type) where
  /-- The order of its allocation, which tells fibers apart. -/
  number : Nat
  /-- The scheduler that allocated the fiber and counts it. -/
  home : Nat
  state : FiberState
  /-- Whether a job has been started in the present context. -/
  entered : Bool
  /-- What the last job returned, until it is taken. -/
  result : Option (Option α)
  /-- How the last job failed, until it is taken. -/
  failure : Option Failure
  job : Option (Suspended α)

/-- What is left of a suspended job. -/
structure Suspended (α : Type) where
  pause : Pause α
  rest : List (Step α)
  /-- The tasks that the job made, oldest first. -/
  tasks : Array (Task α)
  /-- The fibers that the job took from schedulers, newest first. No job runs on them. -/
  fibers : List (Fiber α)
  /-- The values to log when the job is left, newest first. -/
  deferred : List α

/-- A job together with the fiber that it runs on while it is under way. -/
structure Task (α : Type) where
  scheduler : Nat
  /-- The job before it is started. -/
  body : Option (List (Step α))
  fiber : Option (Fiber α)
  result : Option (Option α)
  done : Bool

end

structure Counters where
  total : Nat
  current : Nat
  max : Nat
  initialized : Nat
deriving DecidableEq

namespace Counters

def zero : Counters := ⟨0, 0, 0, 0⟩

def allocated (c : Counters) : Counters :=
  { c with total := c.total + 1, current := c.current + 1, max := Nat.max c.max (c.current + 1) }

/-- A fiber is gone. -/
def freed (c : Counters) : Counters := { c with current := c.current - 1 }

/-- A job is started in a fresh context. -/
def entered (c : Counters) : Counters := { c with initialized := c.initialized + 1 }

end Counters

structure Scheduler (α : Type) where
  config : Config
  /-- The idle fibers, the one handed out next first. -/
  cache : List (Fiber α)
  counters : Counters

/-- A fiber changes hands between a scheduler and those who hold fibers. -/
inductive Transfer where
  | handedOut (number : Nat)
  | givenBack (number : Nat)
  /-- A fiber is freed without its scheduler. -/
  | dropped (number : Nat)
deriving DecidableEq

/-- The schedulers that jobs use, and what jobs have logged. -/
structure World (α : Type) where
  schedulers : List (Scheduler α)
  /-- What has been logged, newest first. -/
  log : List (Entry α)
  /-- The number of fibers allocated so far. -/
  allocations : Nat
  /-- The fibers that were handed out, given back and dropped, newest first. -/
  ledger : List Transfer

variable {α : Type}

namespace Scheduler

def fresh (config : Config) : Scheduler α := ⟨config, [], .zero⟩

/-- The counters, with the size of the cache. -/
def statistics (s : Scheduler α) : Statistics :=
  ⟨s.counters.total, s.counters.current, s.cache.length, s.counters.max, s.counters.initialized⟩

end Scheduler

namespace Fiber

def fresh (number home : Nat) : Fiber α := ⟨number, home, .init, false, none, none, none⟩

/-- Forget what the last job left. -/
def clear (f : Fiber α) : Fiber α := { f with result := none, failure := none }

/-- Whether a job may be started. -/
def isFree (f : Fiber α) : Bool := f.state = .init ∨ f.state = .idle ∨ f.state = .finished

/-- A fiber on one line. -/
def label (f : Fiber α) : String :=
  let failure := match f.failure with
    | none => "None"
    | some (.panic _) => "Some(Panic(..))"
    | some failure => "Some(Error(" ++ failure.message.getD "" ++ "))"
  "Fiber \x7b state: " ++ f.state.label ++ ", has_result: " ++
    (if f.result.isSome then "true" else "false") ++ ", failure: " ++ failure ++ " \x7d"

end Fiber

namespace Task

def fresh (scheduler : Nat) (body : Job α) : Task α := ⟨scheduler, some body, none, none, false⟩

end Task

namespace World

/-- A world in which nothing has happened. -/
def fresh (configs : List Config) : World α := ⟨configs.map Scheduler.fresh, [], 0, []⟩

def note (w : World α) (e : Entry α) : World α := { w with log := e :: w.log }

def record (w : World α) (t : Transfer) : World α := { w with ledger := t :: w.ledger }

def modify (w : World α) (s : Nat) (change : Scheduler α → Scheduler α) : World α :=
  { w with schedulers := w.schedulers.modify s change }

def count (w : World α) (s : Nat) (change : Counters → Counters) : World α :=
  w.modify s fun scheduler => { scheduler with counters := change scheduler.counters }

def allocate (w : World α) (s : Nat) : Fiber α × World α :=
  (.fresh w.allocations s, { w with allocations := w.allocations + 1 }.count s .allocated)

/-- Put a fiber into the cache of a scheduler. -/
def keep (w : World α) (s : Nat) (f : Fiber α) : World α :=
  w.modify s fun scheduler => { scheduler with cache := f :: scheduler.cache }

/-- The fiber that a scheduler hands out next: the one cached last, or a new one. -/
def next (w : World α) (s : Nat) : Fiber α × World α :=
  match (w.schedulers[s]?.map Scheduler.cache).getD [] with
  | f :: rest => (f, w.modify s fun scheduler => { scheduler with cache := rest })
  | [] => w.allocate s

/-- Hand out a fiber that is ready for a job. -/
def create (w : World α) (s : Nat) : Fiber α × World α :=
  let next := w.next s
  (next.1, next.2.record (.handedOut next.1.number))

/-- Put new fibers into the cache of a scheduler. -/
def addFresh : Nat → Nat → World α → World α
  | 0, _, w => w
  | n + 1, s, w =>
      let made := w.allocate s
      addFresh n s (made.2.keep s made.1)

/-- Fill the cache of a scheduler with new fibers. -/
def prime (w : World α) (s : Nat) : World α :=
  match w.schedulers[s]? with
  | some scheduler => addFresh (scheduler.config.cacheSize - scheduler.cache.length) s w
  | none => w

/-- Free the cached fibers of a scheduler, each counted by the scheduler it came from, and set
the counters to zero. -/
def reset (w : World α) (s : Nat) : World α :=
  let cached := (w.schedulers[s]?.map Scheduler.cache).getD []
  let freed := cached.foldl (fun w f => w.count f.home .freed) w
  freed.modify s fun scheduler => { scheduler with cache := [], counters := .zero }

def statistics? (w : World α) (s : Nat) : Option Statistics :=
  w.schedulers[s]?.map Scheduler.statistics

end World

end ControlFlow.Fibers
