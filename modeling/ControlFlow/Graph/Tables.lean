import ControlFlow.Graph.Lowering
import Std.Data.HashMap
import Std.Data.HashSet

/-! # The tables of a graph

A graph is kept in tables. Every node and every edge is stored with its number; an index leads from
keys to nodes and another one from variables to the nodes that introduce them; and two sets say
which edges are drawn and which flows are implied. Nothing is searched for: what is asked is looked
up in an index or a set, and each addition is made in all tables that it concerns.

A body is lowered into the tables with a stack of the loops that are open and a list of the points
at which the body is left.
-/

namespace ControlFlow

deriving instance Hashable for Key

/-- A node with its number. -/
structure StoredNode where
  id : NodeId
  point : Point

/-- An edge with its number. -/
structure StoredEdge where
  id : Nat
  source : NodeId
  target : NodeId
deriving DecidableEq

def StoredEdge.flow (e : StoredEdge) : Flow := (e.source, e.target)

/-- A loop whose body is being lowered, with the points at which `break` has left it. -/
structure OpenLoop where
  head : NodeId
  breaks : List NodeId

structure Tables where
  module : Module
  /-- The last declaration with each number. -/
  decls : Std.HashMap DeclId Declaration
  showsGlobals : Bool
  nodes : Array StoredNode
  index : Std.HashMap Key NodeId
  edges : Array StoredEdge
  edgeSet : Std.HashSet Flow
  /-- Flows that are not drawn. -/
  implicit : Array Flow
  implicitSet : Std.HashSet Flow
  /-- The last node that introduces a variable. -/
  declSites : Std.HashMap DeclId NodeId
  /-- The statement that a control expression or loop variable was last lowered for. -/
  owners : Std.HashMap TreeId Stmt
  /-- The open loops, the innermost one first. -/
  loops : List OpenLoop
  /-- Where `return` and `throw` leave the body. -/
  leaves : List NodeId
  /-- The counter of the next mark. -/
  marks : Nat
  start : NodeId
  finish : NodeId

namespace Tables

/-! ## Additions -/

/-- The node of a point, which is stored if the index does not know its key. -/
def place (t : Tables) (p : Point) : NodeId × Tables :=
  match t.index[p.key]? with
  | some n => (n, t)
  | none =>
      let n := t.nodes.size
      (n, { t with
        nodes := t.nodes.push ⟨n, p⟩
        index := t.index.insert p.key n
        declSites := match p.declared? with
          | some d => t.declSites.insert d n
          | none => t.declSites })

def placeMark (t : Tables) (kind : Mark) : NodeId × Tables :=
  ({ t with marks := t.marks + 1 }).place (.mark kind t.marks)

/-- Draw an edge and give its number. Nothing happens if it is drawn already, or if an end is
missing. -/
def draw (t : Tables) : Option NodeId → Option NodeId → Option Nat × Tables
  | some source, some target =>
      if t.edgeSet.contains (source, target) then (none, t)
      else (some t.edges.size, { t with
        edgeSet := t.edgeSet.insert (source, target)
        edges := t.edges.push ⟨t.edges.size, source, target⟩ })
  | _, _ => (none, t)

/-- Record a flow that is not drawn, unless it is recorded or drawn. -/
def imply (t : Tables) (source target : NodeId) : Tables :=
  if t.edgeSet.contains (source, target) || t.implicitSet.contains (source, target) then t
  else { t with
    implicitSet := t.implicitSet.insert (source, target)
    implicit := t.implicit.push (source, target) }

/-- Go on at a node from an exit. -/
def connect (t : Tables) (e : Exit) (target : NodeId) : Tables :=
  e.implicit.foldl (fun t n => t.imply n target) (t.draw e.node (some target)).2

def own (t : Tables) (id : TreeId) (s : Stmt) : Tables :=
  { t with owners := t.owners.insert id s }

/-- Tables with nothing in them. -/
def blank (m : Module) (showsGlobals : Bool) : Tables where
  module := m
  decls := m.decls.foldl (fun decls d => decls.insert d.id d) ∅
  showsGlobals := showsGlobals
  nodes := #[]
  index := ∅
  edges := #[]
  edgeSet := ∅
  implicit := #[]
  implicitSet := ∅
  declSites := ∅
  owners := ∅
  loops := []
  leaves := []
  marks := 0
  start := 0
  finish := 0

/-- Say which nodes are the start and the end. -/
def setEnds (t : Tables) (start finish : NodeId) : Tables :=
  { t with start := start, finish := finish }

/-- Tables with nothing but a start and an end. -/
def empty (m : Module) (showsGlobals : Bool) : Tables :=
  let start := (blank m showsGlobals).placeMark .start
  let finish := start.2.placeMark .finish
  finish.2.setEnds start.1 finish.1

/-! ## Lowering -/

/-- Go on at the node of a point. -/
def enter (t : Tables) (parent : Exit) (p : Point) : NodeId × Tables :=
  let placed := t.place p
  (placed.1, placed.2.connect parent placed.1)

/-- Go on at a control expression of a statement. -/
def enterControl (t : Tables) (parent : Exit) (e : Expr) (s : Stmt) : NodeId × Tables :=
  let entered := t.enter parent (.expr e)
  (entered.1, entered.2.own e.id s)

/-- The loop variable of a `for`, entered from its sequence. -/
def enterVar (t : Tables) (head : NodeId) (var : LoopVar) (s : Stmt) : NodeId × Tables :=
  let placed := t.place (.loopVar var)
  (placed.1, (placed.2.draw (some head) (some placed.1)).2.own var.id s)

/-- Go on at a new join. -/
def join (t : Tables) (parents : List Exit) : NodeId × Tables :=
  let placed := t.placeMark .join
  (placed.1, parents.foldl (fun t e => t.connect e placed.1) placed.2)

def openLoop (t : Tables) (head : NodeId) : Tables :=
  { t with loops := ⟨head, []⟩ :: t.loops }

/-- End the innermost loop; what comes with it are the points at which `break` has left it. -/
def closeLoop (t : Tables) : List NodeId × Tables :=
  ((t.loops.head?.map OpenLoop.breaks).getD [], { t with loops := t.loops.tail })

/-- Note where `break` leaves the innermost loop. -/
def leaveLoop (t : Tables) (points : List NodeId) : Tables :=
  match t.loops with
  | [] => t
  | inner :: outer => { t with loops := ⟨inner.head, inner.breaks ++ points⟩ :: outer }

def jump (t : Tables) (parent : Exit) (id : TreeId) : Jump → Exit × Tables
  | .return none | .throw none => (parent, { t with leaves := t.leaves ++ parent.points })
  | .return (some e) =>
      let entered := t.enter parent (.stmt (.jump id (.return (some e))))
      (.drawn entered.1, { entered.2 with leaves := entered.2.leaves ++ [entered.1] })
  | .throw (some e) =>
      let entered := t.enter parent (.stmt (.jump id (.throw (some e))))
      (.drawn entered.1, { entered.2 with leaves := entered.2.leaves ++ [entered.1] })
  | .break => (parent, t.leaveLoop parent.points)
  | .continue =>
      match t.loops with
      | [] => (parent, t)
      | inner :: _ => (parent, parent.points.foldl (fun t n => t.imply n inner.head) t)

/-- The nodes stored from a position on that stand for a part of the tree. -/
def nodesFrom (t : Tables) (first : Nat) : List NodeId :=
  (List.range' first (t.nodes.size - first)).filter fun n =>
    t.nodes[n]?.any fun s => !s.point.isMark

end Tables

mutual

/-- Lower a statement into tables. -/
def Stmt.tabulate : Stmt → Exit → Tables → Exit × Tables
  | .simple id what, parent, t =>
      let entered := t.enter parent (.stmt (.simple id what))
      (.drawn entered.1, entered.2)
  | .jump id how, parent, t => t.jump parent id how
  | .block _ ⟨_, body⟩, parent, t => tabulateSeq body parent t
  | .while id cond ⟨bid, body⟩ none, parent, t =>
      let head := t.enterControl parent cond (.while id cond ⟨bid, body⟩ none)
      let inside := tabulateSeq body (.drawn head.1) (head.2.openLoop head.1)
      let closed := (inside.2.connect inside.1 head.1).closeLoop
      (⟨some head.1, closed.1⟩, closed.2)
  | .while id cond ⟨bid, body⟩ (some ⟨eid, orElse⟩), parent, t =>
      let head := t.enterControl parent cond (.while id cond ⟨bid, body⟩ (some ⟨eid, orElse⟩))
      let inside := tabulateSeq body (.drawn head.1) (head.2.openLoop head.1)
      let closed := (inside.2.connect inside.1 head.1).closeLoop
      let other := tabulateSeq orElse (.drawn head.1) closed.2
      let joined := other.2.join [other.1, .drawn head.1]
      (⟨some joined.1, closed.1⟩, joined.2)
  | .for id var seq ⟨bid, body⟩, parent, t =>
      let head := t.enterControl parent seq (.for id var seq ⟨bid, body⟩)
      let bound := head.2.enterVar head.1 var (.for id var seq ⟨bid, body⟩)
      let inside := tabulateSeq body (.drawn bound.1) (bound.2.openLoop head.1)
      let closed := (inside.2.connect inside.1 head.1).closeLoop
      (⟨some head.1, closed.1⟩, closed.2)
  | .if id cond ⟨bid, body⟩ none, parent, t =>
      let test := t.enterControl parent cond (.if id cond ⟨bid, body⟩ none)
      let inside := tabulateSeq body (.drawn test.1) test.2
      (⟨inside.1.node, inside.1.implicit ++ [test.1]⟩, inside.2)
  | .if id cond ⟨bid, body⟩ (some ⟨eid, orElse⟩), parent, t =>
      let test := t.enterControl parent cond (.if id cond ⟨bid, body⟩ (some ⟨eid, orElse⟩))
      let inside := tabulateSeq body (.drawn test.1) test.2
      let other := tabulateSeq orElse (.drawn test.1) inside.2
      let joined := other.2.join [other.1, inside.1]
      (.drawn joined.1, joined.2)
  | .try _ ⟨_, body⟩ catches, parent, t =>
      let inside := tabulateSeq body parent t
      let throwing := inside.2.nodesFrom t.nodes.size
      let joined := inside.2.join [inside.1]
      (.drawn joined.1,
        tabulateCatches catches ⟨parent.node, parent.implicit ++ throwing⟩ joined.1 joined.2)

/-- Lower statements one after the other. Those after a jump are entered from nowhere. -/
def tabulateSeq : List Stmt → Exit → Tables → Exit × Tables
  | [], parent, t => (parent, t)
  | s :: rest, parent, t =>
      let live := s.tabulate parent t
      if s.isJump && !rest.isEmpty then
        let tail := tabulateSeq rest .nowhere live.2
        let joined := tail.2.join [live.1, tail.1]
        (.drawn joined.1, joined.2)
      else tabulateSeq rest live.1 live.2

def tabulateCatches : List Catch → Exit → NodeId → Tables → Tables
  | [], _, _, t => t
  | ⟨_, _, ⟨_, body⟩⟩ :: rest, raised, joined, t =>
      let handled := tabulateSeq body raised t
      tabulateCatches rest raised joined (handled.2.connect handled.1 joined)

end

namespace Tables

/-- Let a body end: its last exit leads to the end, and so do the points at which it is left. -/
def close (t : Tables) (last : Exit) : Tables :=
  let connected := t.connect last t.finish
  connected.leaves.foldl (fun taken n => taken.imply n t.finish) { connected with leaves := [] }

def ofBlock (m : Module) (b : Block) : Tables :=
  let empty := empty m false
  let lowered := tabulateSeq b.stmts (.drawn empty.start) empty
  lowered.2.close lowered.1

def ofFunction (m : Module) (f : Function) : Tables := ofBlock m f.body

/-- Chain globals one after the other. -/
def chainGlobals : List Global → Exit → Tables → Exit × Tables
  | [], parent, t => (parent, t)
  | v :: rest, parent, t =>
      let entered := t.enter parent (.global v)
      chainGlobals rest (.drawn entered.1) entered.2

def ofModule (m : Module) : Tables :=
  let empty := empty m true
  let globals := chainGlobals m.globals (.drawn empty.start) empty
  let lowered := tabulateSeq m.body.stmts globals.1 globals.2
  lowered.2.close lowered.1

/-- The node of a part of the tree. -/
def findNode? (t : Tables) (id : TreeId) : Option NodeId := t.index[Key.tree id]?

/-- The node that introduces a variable. -/
def declSite? (t : Tables) (d : DeclId) : Option NodeId := t.declSites[d]?

end Tables

end ControlFlow
