import ControlFlow.Graph.Search
import ControlFlow.Tree.Label
import ControlFlow.Tree.Walk

/-! # Flow graphs

A flow graph has one node for each simple statement, control expression, loop variable and
global that it shows, beside synthetic marks: a start, an end, and joins where paths meet. A node
is known by its position, an edge by the position at which it was drawn, and neither ever moves.

Some flows are not drawn: the way around an `if` without `else`, `break` and `continue`,
exceptions into catches, and early exits to the end. They are kept beside the edges.
-/

namespace ControlFlow

/-- The position of a node in its graph. -/
abbrev NodeId := Nat

/-- A step from one node to another. -/
abbrev Flow := NodeId × NodeId

inductive Mark where
  | start
  | finish
  | join
deriving DecidableEq

/-- What a node stands for. -/
inductive Point where
  /-- A synthetic node; counters tell the marks of a graph apart. -/
  | mark (kind : Mark) (counter : Nat)
  | stmt (s : Stmt)
  /-- The condition of a loop or branch, or the sequence of a `for`. -/
  | expr (e : Expr)
  | global (g : Global)
  | loopVar (var : LoopVar)

/-- What a node is known by: marks by their counter, all others by their tree number. -/
inductive Key where
  | mark (counter : Nat)
  | tree (id : TreeId)
deriving DecidableEq

/-- Marks come before tree nodes, and both in the order of their numbers. -/
def Key.le : Key → Key → Bool
  | .mark a, .mark b => a ≤ b
  | .mark _, .tree _ => true
  | .tree _, .mark _ => false
  | .tree a, .tree b => a ≤ b

def Mark.label : Mark → String
  | .start => "<start>"
  | .finish => "<end>"
  | .join => "<flow>"

namespace Point

def key : Point → Key
  | mark _ counter => .mark counter
  | stmt s => .tree s.id
  | expr e => .tree e.id
  | global g => .tree g.id
  | loopVar var => .tree var.id

def isMark : Point → Bool
  | mark _ _ => true
  | _ => false

def isEnd : Point → Bool
  | mark .finish _ => true
  | _ => false

/-- The variable that a node introduces. -/
def declared? : Point → Option DeclId
  | stmt (.simple _ (.declare var)) => some var.decl
  | global g => some g.decl
  | loopVar var => some var.decl
  | _ => none

def label : Point → String
  | mark kind _ => kind.label
  | stmt s => s.label
  | expr e => e.label
  | global g => g.label
  | loopVar var => var.label

end Point

structure Graph where
  module : Module
  /-- Whether the globals of the module are nodes. -/
  showsGlobals : Bool
  nodes : List Point
  edges : List Flow
  /-- Flows that are not drawn. -/
  implicit : List Flow
  /-- The statements that conditions, sequences and loop variables belong to, the last one first. -/
  owners : List (TreeId × Stmt)
  /-- The counter of the next mark. -/
  marks : Nat

/-- Where control leaves a part of a body: a drawn exit, and points that go on at whatever comes
next without an edge. -/
structure Exit where
  node : Option NodeId
  implicit : List NodeId

namespace Exit

/-- The exit at a node. -/
def drawn (n : NodeId) : Exit := ⟨some n, []⟩

/-- The exit of a part that is never entered. -/
def nowhere : Exit := ⟨none, []⟩

/-- All points from which control goes on. -/
def points (e : Exit) : List NodeId := e.node.toList ++ e.implicit

end Exit

namespace Graph

/-! ## Growing a graph -/

def find? (g : Graph) (key : Key) : Option NodeId := g.nodes.findIdx? fun p => p.key = key

/-- The node for a point, which is added if its key is new. -/
def place (g : Graph) (p : Point) : NodeId × Graph :=
  match g.find? p.key with
  | some n => (n, g)
  | none => (g.nodes.length, { g with nodes := g.nodes ++ [p] })

/-- A new mark; an old one that has its counter serves as well. -/
def placeMark (g : Graph) (kind : Mark) : NodeId × Graph :=
  ({ g with marks := g.marks + 1 }).place (.mark kind g.marks)

/-- Whether a flow is among some others. -/
def joins (flows : List Flow) (source target : NodeId) : Bool :=
  flows.any fun f => f.1 == source && f.2 == target

/-- Draw an edge, unless it is there. -/
def draw (g : Graph) (source target : NodeId) : Graph :=
  if joins g.edges source target then g
  else { g with edges := g.edges ++ [(source, target)] }

/-- Record a flow that is not drawn, unless it is there or drawn. -/
def imply (g : Graph) (source target : NodeId) : Graph :=
  if joins g.edges source target || joins g.implicit source target then g
  else { g with implicit := g.implicit ++ [(source, target)] }

/-- Go on at a node from an exit: an edge from its drawn node, flows from its other points. -/
def connect (g : Graph) (e : Exit) (target : NodeId) : Graph :=
  let drawn := match e.node with
    | some n => g.draw n target
    | none => g
  e.implicit.foldl (fun g n => g.imply n target) drawn

/-- The graph with nothing but its start and its end. -/
def empty (m : Module) (showsGlobals : Bool) : Graph :=
  ⟨m, showsGlobals, [.mark .start 0, .mark .finish 1], [], [], [], 2⟩

def start : NodeId := 0

def finish : NodeId := 1

/-! ## Questions -/

/-- All flows, the drawn ones first. -/
def flows (g : Graph) : List Flow := g.edges ++ g.implicit

/-- The sources of the flows into a node. -/
def predecessors (g : Graph) (n : NodeId) : List NodeId :=
  (g.flows.filter fun f => f.2 = n).map Prod.fst

/-- The sources of the flows into every node, unless a flow leads to a node that is not there. -/
def predecessorTable (g : Graph) : Option (List (List NodeId)) :=
  if g.flows.all fun f => f.2 < g.nodes.length then
    some ((List.range g.nodes.length).map g.predecessors)
  else none

/-- The nodes in the order of their keys. -/
def sorted (g : Graph) : List NodeId :=
  (g.nodes.zipIdx.mergeSort fun a b => a.1.key.le b.1.key).map Prod.snd

/-- Some nodes in the order of their keys. -/
def sortByKey (g : Graph) (ns : List NodeId) : List NodeId :=
  let key (n : NodeId) : Key := (g.nodes[n]?.map Point.key).getD (.mark n)
  ns.mergeSort fun m n => (key m).le (key n)

/-- The last declaration with a number in the module. -/
def decl? (g : Graph) (d : DeclId) : Option Declaration :=
  g.module.decls.foldl (fun last decl => if decl.id = d then some decl else last) none

/-- The variables that nodes introduce, each with its node, the last node first. -/
def sites (g : Graph) : List (DeclId × NodeId) :=
  (g.nodes.zipIdx.filterMap fun p => p.1.declared?.map fun d => (d, p.2)).reverse

/-- The node of a variable in a list of such pairs. -/
def siteIn? (sites : List (DeclId × NodeId)) (d : DeclId) : Option NodeId :=
  (sites.find? fun s => s.1 = d).map Prod.snd

/-- The last node that introduces a variable. -/
def declSite? (g : Graph) (d : DeclId) : Option NodeId := siteIn? g.sites d

/-- Whether a declaration is expected to have a node that introduces it. -/
def declaresHere (g : Graph) (d : Declaration) : Bool :=
  match d.kind with
  | .localVariable => true
  | .globalVariable => g.showsGlobals
  | .parameter _ | .function _ => false

/-- The statement that a control expression or loop variable belongs to. -/
def controlOwner? (g : Graph) (id : TreeId) : Option Stmt :=
  (g.owners.find? fun o => o.1 = id).map Prod.snd

/-- The statement that a point stands for: its own, or the loop or branch that it belongs to. -/
def owner? (g : Graph) : Point → Option Stmt
  | .stmt s => some s
  | .expr e => g.controlOwner? e.id
  | .loopVar var => g.controlOwner? var.id
  | .mark _ _ | .global _ => none

/-- Nodes for which a test holds and which are no marks, in the order of their keys. -/
def select (g : Graph) (test : NodeId → Bool) : List NodeId :=
  g.sorted.filter fun n => (g.nodes[n]?.any fun p => !p.isMark) && test n

/-- The nodes into which no edge is drawn. -/
def unreachable (g : Graph) : List NodeId :=
  g.select fun n => !g.edges.any fun e => e.2 = n

/-- The nodes that no drawn path from the start reaches. -/
def dead (g : Graph) : List NodeId :=
  let live := Search.reached g.edges (fun _ => true) start
  g.select fun n => n ≠ start && !live.contains n

end Graph

end ControlFlow
