import ControlFlow.Analysis.Unused
import ControlFlow.Graph.Lowering
import ControlFlow.Tree.Removal

/-! # Pruning a body

A round of pruning takes out the statements that are unused or that no drawn path reaches. A dead
condition, sequence or loop variable takes its whole statement along; a declaration stays while
its variable is still named. Rounds go on until one takes nothing out, since each may leave more
statements without use.
-/

namespace ControlFlow

/-- Why a body cannot be analysed. -/
inductive ScopeFault where
  | unknownFunction (module function : String)
  | analysis (why : AnalysisFault)
deriving DecidableEq

def ScopeFault.message : ScopeFault → Option String
  | .unknownFunction m f => some ("module `" ++ m ++ "` has no function named `" ++ f ++ "`")
  | .analysis why => why.message

def Module.function (m : Module) (name : String) : Except ScopeFault Function :=
  match m.function? name with
  | some f => .ok f
  | none => .error (.unknownFunction m.name name)

namespace Pruning

/-- The statement of a node that is one. -/
def stmtAt (g : Graph) (n : NodeId) : Option Stmt :=
  match g.nodes[n]? with
  | some (.stmt s) => some s
  | _ => none

/-- Whether a statement declares a variable that is still named. -/
def isShielded (named : List DeclId) : Stmt → Bool
  | .simple _ (.declare var) => named.contains var.decl
  | _ => false

/-- The numbers of the statements that a round takes out of a body, ascending. -/
def doomed (g : Graph) (body : Block) : Except AnalysisFault (List TreeId) := do
  let unused ← (← Analysis.ofSolved g).unused
  let stmts := unused.filterMap (stmtAt g) ++
    g.dead.filterMap fun n => g.nodes[n]?.bind g.owner?
  let named := body.exprs.filterMap Expr.named?
  return Ascending.ofList ((stmts.filter fun s => !isShielded named s).map Stmt.id)

/-- A body without the statements that have one of the numbers. -/
def takeOut (ids : List TreeId) (body : Block) : Block := body.without fun s => ids.contains s.id

/-- What pruning did. -/
structure Report where
  /-- The statements that were found to go, round by round, ascending in each. -/
  removed : List TreeId
  /-- The rounds, with the last one, which took nothing out. -/
  rounds : Nat

/-- Prune a body whose graph is built anew in each round. -/
def pruneBody (graphOf : Block → Graph) (body : Block) : Except AnalysisFault (Block × Report) :=
  match doomed (graphOf body) body with
  | .error fault => .error fault
  | .ok ids =>
      if (takeOut ids body).size < body.size then
        match pruneBody graphOf (takeOut ids body) with
        | .error fault => .error fault
        | .ok (pruned, report) => .ok (pruned, ⟨ids ++ report.removed, report.rounds + 1⟩)
      else .ok (body, ⟨[], 1⟩)
termination_by body.size

/-- Replace the body of the first function of a name. -/
def setBody (name : String) (body : Block) : List Function → List Function
  | [] => []
  | f :: rest => if f.name = name then { f with body } :: rest else f :: setBody name body rest

end Pruning

namespace Module

/-- Prune the top-level statements of a module. Globals stay. -/
def pruneTop (m : Module) : Except ScopeFault (Module × Pruning.Report) :=
  match Pruning.pruneBody (fun b => Graph.ofModule { m with body := b }) m.body with
  | .ok (body, report) => .ok ({ m with body }, report)
  | .error why => .error (.analysis why)

/-- Prune the body of a function. -/
def pruneFunction (m : Module) (name : String) : Except ScopeFault (Module × Pruning.Report) := do
  let f ← m.function name
  match Pruning.pruneBody (Graph.ofBlock m) f.body with
  | .ok (body, report) =>
      .ok ({ m with functions := Pruning.setBody name body m.functions }, report)
  | .error why => .error (.analysis why)

/-- Prune a function, or the top-level statements if none is named. -/
def prune (m : Module) : Option String → Except ScopeFault (Module × Pruning.Report)
  | some name => m.pruneFunction name
  | none => m.pruneTop

/-- The graph of a function, or of the top-level code if none is named. -/
def graph (m : Module) : Option String → Except ScopeFault Graph
  | some name => return Graph.ofFunction m (← m.function name)
  | none => return Graph.ofModule m

end Module

end ControlFlow
