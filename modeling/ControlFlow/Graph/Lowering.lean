import ControlFlow.Graph.Basic

/-! # From bodies to flow graphs

A body is lowered statement by statement. Each statement is entered from an exit, adds its nodes
and flows, and leaves through an exit of its own. Statements after a jump are lowered as a chain
of their own that nothing enters; it meets the live chain again at a join.

While a body is lowered, the points at which `break` leaves the loop around it and those at which
`return` and `throw` leave the body are collected.
-/

namespace ControlFlow

/-- A graph under construction. -/
structure Draft extends Graph where
  /-- Where `break` leaves the innermost open loop. -/
  breaks : List NodeId
  /-- Where `return` and `throw` leave the body. -/
  leaves : List NodeId

namespace Draft

def ofGraph (g : Graph) : Draft := ⟨g, [], []⟩

/-- Go on at the node of a point. -/
def enter (d : Draft) (parent : Exit) (p : Point) : NodeId × Draft :=
  let placed := d.toGraph.place p
  (placed.1, { d with toGraph := placed.2.connect parent placed.1 })

/-- Go on at a control expression of a statement. -/
def enterControl (d : Draft) (parent : Exit) (e : Expr) (s : Stmt) : NodeId × Draft :=
  let entered := d.enter parent (.expr e)
  (entered.1, { entered.2 with owners := (e.id, s) :: entered.2.owners })

/-- Go on at a new join. -/
def join (d : Draft) (parents : List Exit) : NodeId × Draft :=
  let placed := d.toGraph.placeMark .join
  (placed.1, { d with toGraph := parents.foldl (fun g e => g.connect e placed.1) placed.2 })

/-- Go on at a node that is there already. -/
def returnTo (d : Draft) (parent : Exit) (n : NodeId) : Draft :=
  { d with toGraph := d.toGraph.connect parent n }

/-- Lower a jump inside the loop with the given head, if there is one. A jump without a value
adds no node. -/
def jump (d : Draft) (loop : Option NodeId) (parent : Exit) (id : TreeId) (how : Jump) :
    Exit × Draft :=
  match how, loop with
  | .return none, _ | .throw none, _ => (parent, { d with leaves := d.leaves ++ parent.points })
  | .return (some _), _ | .throw (some _), _ =>
      let entered := d.enter parent (.stmt (.jump id how))
      (.drawn entered.1, { entered.2 with leaves := entered.2.leaves ++ [entered.1] })
  | .break, some _ => (parent, { d with breaks := d.breaks ++ parent.points })
  | .continue, some head =>
      (parent, { d with toGraph := parent.points.foldl (fun g n => g.imply n head) d.toGraph })
  | .break, none | .continue, none => (parent, d)

/-- The loop variable of a `for`, entered from its sequence. -/
def enterVar (d : Draft) (head : NodeId) (var : LoopVar) (s : Stmt) : NodeId × Draft :=
  let placed := d.toGraph.place (.loopVar var)
  (placed.1, { d with
    toGraph := { placed.2.draw head placed.1 with owners := (var.id, s) :: placed.2.owners } })

/-- Start a loop body: no `break` has left it yet. -/
def openLoop (d : Draft) : Draft := { d with breaks := [] }

/-- End a loop body, back in the loop around it. -/
def closeLoop (d : Draft) (outer : Draft) : Draft := { d with breaks := outer.breaks }

/-- The nodes added since an earlier draft that stand for a part of the tree. -/
def nodesSince (d : Draft) (earlier : Draft) : List NodeId :=
  (List.range' earlier.nodes.length (d.nodes.length - earlier.nodes.length)).filter fun n =>
    d.nodes[n]?.any fun p => !p.isMark

end Draft

mutual

/-- Lower a statement that is entered from `parent`, inside the loop with head `loop`. -/
def Stmt.lower (loop : Option NodeId) : Stmt → Exit → Draft → Exit × Draft
  | .simple id what, parent, d =>
      let entered := d.enter parent (.stmt (.simple id what))
      (.drawn entered.1, entered.2)
  | .jump id how, parent, d => d.jump loop parent id how
  | .block _ ⟨_, body⟩, parent, d => lowerSeq loop body parent d
  | .while id cond ⟨bid, body⟩ none, parent, d =>
      let head := d.enterControl parent cond (.while id cond ⟨bid, body⟩ none)
      let inside := lowerSeq (some head.1) body (.drawn head.1) head.2.openLoop
      let around := inside.2.returnTo inside.1 head.1
      (⟨some head.1, around.breaks⟩, around.closeLoop head.2)
  | .while id cond ⟨bid, body⟩ (some ⟨eid, orElse⟩), parent, d =>
      let head := d.enterControl parent cond (.while id cond ⟨bid, body⟩ (some ⟨eid, orElse⟩))
      let inside := lowerSeq (some head.1) body (.drawn head.1) head.2.openLoop
      let around := inside.2.returnTo inside.1 head.1
      let other := lowerSeq loop orElse (.drawn head.1) (around.closeLoop head.2)
      let joined := other.2.join [other.1, .drawn head.1]
      (⟨some joined.1, around.breaks⟩, joined.2)
  | .for id var seq ⟨bid, body⟩, parent, d =>
      let head := d.enterControl parent seq (.for id var seq ⟨bid, body⟩)
      let bound := head.2.enterVar head.1 var (.for id var seq ⟨bid, body⟩)
      let inside := lowerSeq (some head.1) body (.drawn bound.1) bound.2.openLoop
      let around := inside.2.returnTo inside.1 head.1
      (⟨some head.1, around.breaks⟩, around.closeLoop bound.2)
  | .if id cond ⟨bid, body⟩ none, parent, d =>
      let test := d.enterControl parent cond (.if id cond ⟨bid, body⟩ none)
      let inside := lowerSeq loop body (.drawn test.1) test.2
      (⟨inside.1.node, inside.1.implicit ++ [test.1]⟩, inside.2)
  | .if id cond ⟨bid, body⟩ (some ⟨eid, orElse⟩), parent, d =>
      let test := d.enterControl parent cond (.if id cond ⟨bid, body⟩ (some ⟨eid, orElse⟩))
      let inside := lowerSeq loop body (.drawn test.1) test.2
      let other := lowerSeq loop orElse (.drawn test.1) inside.2
      let joined := other.2.join [other.1, inside.1]
      (.drawn joined.1, joined.2)
  | .try _ ⟨_, body⟩ catches, parent, d =>
      let inside := lowerSeq loop body parent d
      let joined := inside.2.join [inside.1]
      let handled := lowerCatches loop catches
        ⟨parent.node, parent.implicit ++ inside.2.nodesSince d⟩ joined.1 joined.2
      (.drawn joined.1, handled)

/-- Lower statements one after the other. -/
def lowerSeq (loop : Option NodeId) : List Stmt → Exit → Draft → Exit × Draft
  | [], parent, d => (parent, d)
  | s :: rest, parent, d =>
      let live := s.lower loop parent d
      if s.isJump && !rest.isEmpty then
        let tail := lowerSeq loop rest .nowhere live.2
        let joined := tail.2.join [live.1, tail.1]
        (.drawn joined.1, joined.2)
      else lowerSeq loop rest live.1 live.2

/-- Lower catches: each is entered from where the `try` starts and from every node of its body,
and goes on at the join. -/
def lowerCatches (loop : Option NodeId) : List Catch → Exit → NodeId → Draft → Draft
  | [], _, _, d => d
  | ⟨_, _, ⟨_, body⟩⟩ :: rest, raised, joined, d =>
      let handled := lowerSeq loop body raised d
      lowerCatches loop rest raised joined (handled.2.returnTo handled.1 joined)

end

namespace Graph

/-- Let a body end: its last exit leads to the end, and so do its early exits. -/
def close (last : Exit) (d : Draft) : Graph :=
  d.leaves.foldl (fun g n => g.imply n finish) (d.toGraph.connect last finish)

/-- The graph of a bare sequence of statements. -/
def ofBlock (m : Module) (b : Block) : Graph :=
  let lowered := lowerSeq none b.stmts (.drawn start) (.ofGraph (empty m false))
  close lowered.1 lowered.2

/-- The graph of a function body, in which globals have no nodes. -/
def ofFunction (m : Module) (f : Function) : Graph := ofBlock m f.body

/-- Chain the globals of a module one after the other. -/
def chainGlobals : List Global → Exit → Graph → Exit × Graph
  | [], parent, g => (parent, g)
  | v :: rest, parent, g =>
      let placed := g.place (.global v)
      chainGlobals rest (.drawn placed.1) (placed.2.connect parent placed.1)

/-- The graph of the top-level code of a module: its globals and then its body. -/
def ofModule (m : Module) : Graph :=
  let globals := chainGlobals m.globals (.drawn start) (empty m true)
  let lowered := lowerSeq none m.body.stmts globals.1 (.ofGraph globals.2)
  close lowered.1 lowered.2

/-- Lower further statements into a graph that is closed already; their early exits lead
nowhere. -/
def append (g : Graph) (parent : Exit) (stmts : List Stmt) : Exit × Graph :=
  let lowered := lowerSeq none stmts parent (.ofGraph g)
  (lowered.1, lowered.2.toGraph)

end Graph

end ControlFlow
