import ControlFlow.Ascending
import ControlFlow.Graph.Basic

/-! # What a node reads and writes

The effect of a node says which variables it reads and which it defines, which variables its own
variable may refer into, whether it has to stay for a reason of its own, and whether control
passes to other code there.
-/

namespace ControlFlow

/-- The effect of a node; each set of variables is an ascending list. -/
structure Effect where
  /-- The variables that are read. -/
  uses : List DeclId
  /-- The variables that get a new value. -/
  defines : List DeclId
  /-- The variables whose storage the declared variable may refer to. -/
  aliases : List DeclId
  /-- The node has to stay whatever becomes of its values. -/
  keep : Bool
  /-- Other code runs here, which may read globals and the parameters passed for update. -/
  escapes : Bool

namespace Effect

def none : Effect := ⟨[], [], [], false, false⟩

/-- The effect of two parts of one node. -/
def and (a b : Effect) : Effect :=
  ⟨a.uses ++ b.uses, a.defines ++ b.defines, a.aliases ++ b.aliases, a.keep || b.keep,
    a.escapes || b.escapes⟩

/-- Only the wish to stay, if there is one. -/
def keepIf (b : Bool) : Effect := { none with keep := b }

def define (d : DeclId) : Effect := { none with defines := [d] }

/-- The same effect with its sets in order. -/
def normal (e : Effect) : Effect :=
  { e with
    uses := Ascending.ofList e.uses
    defines := Ascending.ofList e.defines
    aliases := Ascending.ofList e.aliases }

end Effect

/-! ## Expressions -/

/-- The variables that an expression names. -/
def Expr.reads (e : Expr) : List DeclId := e.walk.filterMap Expr.named?

def Expr.isCall : Expr → Bool
  | .call _ _ _ _ => true
  | _ => false

/-- The variables that a call passes for update, where the signature of the callee is known and
has as many parameters as there are arguments. -/
def Graph.updates (g : Graph) : Expr → List DeclId
  | .call _ _ function args =>
      match (function.bind g.decl?).map Declaration.kind with
      | some (.function params) =>
          if params.length = args.length then
            (params.zip args).filterMap fun p => if p.1 = .update then p.2.named? else none
          else []
      | _ => []
  | _ => []

/-- The effect of evaluating an expression. Calls may do anything; where the context of the
expression has an effect that is not modelled, naming a variable pins the node too. -/
def Graph.evaluation (g : Graph) (e : Expr) (pins : Bool) : Effect :=
  { uses := e.reads
    defines := e.walk.flatMap g.updates
    aliases := []
    keep := e.walk.any Expr.isCall || (pins && !e.reads.isEmpty)
    escapes := e.walk.any Expr.isCall }

def Graph.evaluation? (g : Graph) (e : Option Expr) : Effect :=
  match e with
  | some e => g.evaluation e false
  | none => .none

/-! ## Nodes -/

/-- The variables in an initial value that have a node in the graph. -/
def Graph.referents (g : Graph) (init : Expr) : List DeclId :=
  init.reads.filter fun d => (g.decl? d).any g.declaresHere

def Graph.declaration (g : Graph) (d : DeclId) (ty : Ty) (init : Option Expr) : Effect :=
  let aliases := if ty.isAliasing then (init.map g.referents).getD [] else []
  { uses := [], defines := [d], aliases, keep := ty.hasFinalizer, escapes := false : Effect }.and
    (g.evaluation? init)

/-- The effect of a store. A store to a part of a variable also reads the variable. -/
def Graph.store (g : Graph) (target : Expr) : Effect :=
  match target with
  | .name _ _ (some d) => .define d
  | target =>
      (match target.base? with
        | some base => Effect.define base
        | none => .keepIf true).and (g.evaluation target false)

def Graph.exprStmt (g : Graph) : Expr → Effect
  | .assign _ target source => (g.store target).and (g.evaluation source false)
  | .call id callee function args => g.evaluation (.call id callee function args) false
  | e => g.evaluation e true

/-- The effect of a statement. Jumps, checks, comments and compound statements always stay. -/
def Graph.stmtEffect (g : Graph) : Stmt → Effect
  | .simple _ (.expr e) => g.exprStmt e
  | .simple _ (.declare var) => g.declaration var.decl var.ty var.init
  | .simple _ (.assert e) => (Effect.keepIf true).and (g.evaluation e true)
  | .simple _ .yield => ⟨[], [], [], true, true⟩
  | .simple _ (.comment _) | .simple _ (.location _) => .keepIf true
  | .jump _ (.return value) | .jump _ (.throw value) =>
      (Effect.keepIf true).and (g.evaluation? value)
  | _ => .keepIf true

/-- The effect of a point before stores that are seen from outside are considered. Conditions
decide where control goes and always stay. -/
def Graph.pointEffect (g : Graph) : Point → Effect
  | .mark _ _ => .none
  | .expr e => (Effect.keepIf true).and (g.evaluation e false)
  | .loopVar var => g.declaration var.decl var.ty none
  | .global v => g.declaration v.decl v.ty v.init
  | .stmt s => g.stmtEffect s

def Graph.isExternal (g : Graph) (d : DeclId) : Bool :=
  (g.decl? d).any Declaration.external

/-- The effect of a point; a store to an external variable always stays. -/
def Graph.effect (g : Graph) (p : Point) : Effect :=
  let e := g.pointEffect p
  { e.normal with keep := e.keep || e.defines.any g.isExternal }

end ControlFlow
