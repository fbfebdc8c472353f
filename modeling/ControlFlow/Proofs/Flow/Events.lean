import ControlFlow.Graph.Basic
import Mathlib.Logic.Function.Basic

/-! # What happens to variables along a run

At a point, variables are read and stored in the order of evaluation: what is stored comes first,
then the target, then the store itself; arguments come before the call that they are for. A store
to a part of a variable reads the variable and stores it. Where control passes to other code,
globals and parameters passed for update are exposed. Every reading sees the point that made the
last store.
-/

namespace ControlFlow

inductive Event where
  | read (d : DeclId)
  | store (d : DeclId)
  /-- Other code may read what is shared with it. -/
  | expose
deriving DecidableEq

/-- The plain names among the arguments for parameters passed for update. -/
def updatedNames : List Passing → List Expr → List DeclId
  | .update :: params, arg :: args => arg.named?.toList ++ updatedNames params args
  | _ :: params, _ :: args => updatedNames params args
  | _, _ => []

namespace Module

/-- The last declaration with a number. -/
def lastDecl? (m : Module) (d : DeclId) : Option Declaration :=
  m.decls.reverse.find? fun decl => decl.id = d

/-- The variables that a call stores, where the parameters of its function are known and are as
many as the arguments. -/
def callStores (m : Module) (function : Option DeclId) (args : List Expr) : List DeclId :=
  match (function.bind m.lastDecl?).map Declaration.kind with
  | some (.function params) => if params.length = args.length then updatedNames params args else []
  | _ => []

/-- The variables that other code may read: globals and parameters passed for update. -/
def shared (m : Module) : List DeclId :=
  (m.decls.map Declaration.id).filter fun d =>
    (m.lastDecl? d).any fun decl => decl.isGlobal || decl.isUpdatedParameter

end Module

/-! ## Events -/

/-- What an expression does by itself, after its parts. -/
def Expr.ownEvents (m : Module) : Expr → List Event
  | .name _ _ decl => decl.toList.map .read
  | .assign _ target _ => target.base?.toList.map .store
  | .call _ _ function args => .expose :: (m.callStores function args).map .store
  | .literal _ _ | .operator _ _ _ => []

mutual

/-- What evaluating an expression does, in order. A plain name that is stored is not read. -/
def Expr.events (m : Module) : Expr → List Event
  | .literal _ _ => []
  | .name id name decl => (Expr.name id name decl).ownEvents m
  | .assign id target source => source.events m ++
      (if target.named?.isSome then [] else target.events m) ++
      (Expr.assign id target source).ownEvents m
  | .call id callee function args =>
      eventsOf m args ++ (Expr.call id callee function args).ownEvents m
  | .operator _ _ operands => eventsOf m operands

def eventsOf (m : Module) : List Expr → List Event
  | [] => []
  | e :: rest => e.events m ++ eventsOf m rest

end

def eventsOf? (m : Module) (e : Option Expr) : List Event := (e.map (Expr.events m)).getD []

/-- What happens at a point. -/
def Point.events (m : Module) : Point → List Event
  | .stmt (.simple _ (.expr e)) | .stmt (.simple _ (.assert e)) | .expr e => e.events m
  | .stmt (.simple _ (.declare var)) => eventsOf? m var.init ++ [.store var.decl]
  | .stmt (.simple _ .yield) => [.expose]
  | .stmt (.jump _ (.return value)) | .stmt (.jump _ (.throw value)) => eventsOf? m value
  | .loopVar var => [.store var.decl]
  | .global v => eventsOf? m v.init ++ [.store v.decl]
  | .stmt _ | .mark _ _ => []

/-! ## Sightings -/

/-- The point that made the last store to each variable. -/
abbrev Memory := DeclId → Option Point

/-- What is seen at a point: the last store to one variable, or those to all shared ones. -/
inductive Sighting where
  | read (p : Point) (d : DeclId) (store : Option Point)
  | expose (p : Point) (stores : List (DeclId × Option Point))

/-- The point where something is seen. -/
def Sighting.point : Sighting → Point
  | read p _ _ | expose p _ => p

namespace Memory

/-- Nothing has been stored yet. -/
def empty : Memory := fun _ => none

def after (mem : Memory) (p : Point) : Event → Memory
  | .store d => Function.update mem d (some p)
  | .read _ | .expose => mem

/-- The memory after some events at one point. -/
def afterAll (mem : Memory) (p : Point) (events : List Event) : Memory :=
  events.foldl (fun mem event => mem.after p event) mem

end Memory

namespace Module

def sight (m : Module) (mem : Memory) (p : Point) : Event → List Sighting
  | .read d => [.read p d (mem d)]
  | .expose => [.expose p (m.shared.map fun d => (d, mem d))]
  | .store _ => []

/-- What is seen by some events at one point. -/
def sightings (m : Module) (p : Point) : List Event → Memory → List Sighting
  | [], _ => []
  | event :: rest, mem => m.sight mem p event ++ m.sightings p rest (mem.after p event)

/-- What is seen along a run. -/
def sees (m : Module) : List Point → Memory → List Sighting
  | [], _ => []
  | p :: rest, mem =>
      m.sightings p (p.events m) mem ++ m.sees rest (mem.afterAll p (p.events m))

/-- The memory after a run. -/
def recalls (m : Module) (visits : List Point) (mem : Memory) : Memory :=
  visits.foldl (fun mem p => mem.afterAll p (p.events m)) mem

end Module

/-! ## Memories that agree -/

namespace Memory

variable {mem mem' : Memory} {p : Point} {events : List Event} {d : DeclId}

theorem afterAll_of_not_mem (h : .store d ∉ events) : mem.afterAll p events d = mem d := by
  induction events generalizing mem with
  | nil => rfl
  | cons event rest ih =>
      rw [List.mem_cons, not_or] at h
      change (mem.after p event).afterAll p rest d = mem d
      rw [ih h.2]
      cases event with
      | store d' =>
          apply Function.update_of_ne
          rintro rfl
          exact h.1 rfl
      | _ => rfl

/-- Where two memories agree on a variable or it is stored, they agree on it afterwards. -/
theorem afterAll_congr (h : mem d = mem' d ∨ .store d ∈ events) :
    mem.afterAll p events d = mem'.afterAll p events d := by
  induction events generalizing mem mem' with
  | nil => exact h.resolve_right List.not_mem_nil
  | cons event rest ih =>
      change (mem.after p event).afterAll p rest d = (mem'.after p event).afterAll p rest d
      apply ih
      by_cases hevent : event = .store d
      · subst hevent
        simp [after]
      · have hother (mem : Memory) : mem.after p event d = mem d := by
          cases event with
          | store d' =>
              apply Function.update_of_ne
              rintro rfl
              exact hevent rfl
          | _ => rfl
        rw [hother, hother]
        apply h.imp_right
        intro hmem
        exact (List.mem_cons.mp hmem).resolve_left (Ne.symm hevent)

end Memory

/-- The same is seen in memories that agree on what is read and on what is exposed. -/
theorem Module.sightings_congr {m : Module} {p : Point} {events : List Event}
    {mem mem' : Memory} (hreads : ∀ d, .read d ∈ events → mem d = mem' d)
    (hshared : .expose ∈ events → ∀ d ∈ m.shared, mem d = mem' d) :
    m.sightings p events mem = m.sightings p events mem' := by
  induction events generalizing mem mem' with
  | nil => rfl
  | cons event rest ih =>
      have hagree {d : DeclId} (h : mem d = mem' d) :
          mem.afterAll p [event] d = mem'.afterAll p [event] d :=
        Memory.afterAll_congr (.inl h)
      have hrest : m.sightings p rest (mem.after p event) =
          m.sightings p rest (mem'.after p event) := by
        apply ih
        · exact fun d hd => hagree (hreads d (List.mem_cons_of_mem _ hd))
        · exact fun he d hd => hagree (hshared (List.mem_cons_of_mem _ he) d hd)
      unfold sightings
      rw [hrest]
      congr 1
      cases event with
      | read d => simp [sight, hreads d List.mem_cons_self]
      | store d => rfl
      | expose =>
          have hstores : m.shared.map (fun d => (d, mem d)) =
              m.shared.map fun d => (d, mem' d) := by
            apply List.map_congr_left
            intro d hd
            rw [hshared List.mem_cons_self d hd]
          simp [sight, hstores]

theorem Module.point_of_mem_sightings {m : Module} {p : Point} {events : List Event}
    {mem : Memory} {s : Sighting} (h : s ∈ m.sightings p events mem) : s.point = p := by
  induction events generalizing mem with
  | nil => cases h
  | cons event rest ih =>
      rcases List.mem_append.mp h with h | h
      · cases event <;> simp only [sight, List.mem_singleton, List.not_mem_nil] at h <;>
        rw [h] <;> rfl
      · exact ih h

end ControlFlow
