import ControlFlow.Graph.Drawing
import ControlFlow.Proofs.Graph.Renumbered
import ControlFlow.Proofs.Reaching.Solved

/-! # Analyses of renumbered trees

What a node reads and writes does not depend on any number of the tree, and of the module that the
graph belongs to, only the declarations count. So all that is found out about a graph is found out
about the graph of a renumbered tree, and it is drawn the same.
-/

namespace ControlFlow

variable {f : TreeId → TreeId}

namespace Expr

@[simp] theorem reads_renumber (e : Expr) : (e.renumber f).reads = e.reads := by
  simp [reads, List.filterMap_map]

@[simp] theorem isCall_renumber (e : Expr) : (e.renumber f).isCall = e.isCall := by
  cases e <;> rfl

end Expr

namespace Graph

variable {g : Graph} {m : Module}

/-! ## Effects -/

section Effects

variable (hdecls : m.decls = g.module.decls)

include hdecls

theorem decl?_recast (d : DeclId) : (g.recast m f).decl? d = g.decl? d := by
  unfold decl?
  rw [show (g.recast m f).module.decls = g.module.decls from hdecls]

theorem updates_recast (e : Expr) : (g.recast m f).updates (e.renumber f) = g.updates e := by
  have hdecl : (g.recast m f).decl? = g.decl? := funext (decl?_recast hdecls)
  cases e with
  | call id callee function args =>
      rw [Expr.renumber, updates, updates, hdecl, renumberEach_eq_map]
      simp [List.zip_map_right, List.filterMap_map]
  | _ => rfl

theorem evaluation_recast (e : Expr) (pins : Bool) :
    (g.recast m f).evaluation (e.renumber f) pins = g.evaluation e pins := by
  simp [evaluation, List.flatMap_map, updates_recast hdecls, Function.comp_def]

theorem evaluation?_recast (e : Option Expr) :
    (g.recast m f).evaluation? (e.map (Expr.renumber f)) = g.evaluation? e := by
  cases e with
  | none => rfl
  | some e => exact evaluation_recast hdecls e false

theorem declaration_recast (d : DeclId) (ty : Ty) (init : Option Expr) :
    (g.recast m f).declaration d ty (init.map (Expr.renumber f)) = g.declaration d ty init := by
  have hreferents (e : Expr) : (g.recast m f).referents (e.renumber f) = g.referents e := by
    unfold referents
    simp only [Expr.reads_renumber, decl?_recast hdecls]
    rfl
  simp [declaration, evaluation?_recast hdecls, Function.comp_def, hreferents]

theorem store_recast (target : Expr) :
    (g.recast m f).store (target.renumber f) = g.store target := by
  cases hnamed : target.named? with
  | some d => rw [store_of_named hnamed, store_of_named (by rwa [Expr.named?_renumber])]
  | none =>
      rw [store_of_unnamed hnamed, store_of_unnamed (by rwa [Expr.named?_renumber]),
        Expr.base?_renumber, evaluation_recast hdecls]

theorem exprStmt_recast (e : Expr) : (g.recast m f).exprStmt (e.renumber f) = g.exprStmt e := by
  cases e with
  | assign id target source =>
      rw [Expr.renumber, exprStmt, exprStmt, store_recast hdecls, evaluation_recast hdecls]
  | literal id value => exact evaluation_recast hdecls (.literal id value) true
  | name id name decl => exact evaluation_recast hdecls (.name id name decl) true
  | call id callee function args =>
      exact evaluation_recast hdecls (.call id callee function args) false
  | operator id op operands => exact evaluation_recast hdecls (.operator id op operands) true

theorem stmtEffect_recast (s : Stmt) :
    (g.recast m f).stmtEffect (s.renumber f) = g.stmtEffect s := by
  unfold Stmt.renumber
  split
  next id what =>
    cases what with
    | expr e => exact exprStmt_recast hdecls e
    | declare var => exact declaration_recast hdecls var.decl var.ty var.init
    | assert e => exact congrArg (Effect.keepIf true).and (evaluation_recast hdecls e true)
    | _ => rfl
  next id how =>
    cases how with
    | «return» value =>
        exact congrArg (Effect.keepIf true).and (evaluation?_recast hdecls value)
    | throw value => exact congrArg (Effect.keepIf true).and (evaluation?_recast hdecls value)
    | _ => rfl
  all_goals rfl

theorem effect_recast (p : Point) : (g.recast m f).effect (p.renumber f) = g.effect p := by
  have hpoint : (g.recast m f).pointEffect (p.renumber f) = g.pointEffect p := by
    cases p with
    | mark kind counter => rfl
    | stmt s => exact stmtEffect_recast hdecls s
    | expr e => exact congrArg (Effect.keepIf true).and (evaluation_recast hdecls e false)
    | global v => exact declaration_recast hdecls v.decl v.ty v.init
    | loopVar var => exact declaration_recast hdecls var.decl var.ty none
  have hexternal : (g.recast m f).isExternal = g.isExternal := by
    funext d
    unfold isExternal
    rw [decl?_recast hdecls]
  unfold effect
  rw [hpoint, hexternal]

theorem shareBack_recast (sites : List (DeclId × NodeId)) (effects : Array Effect) (n : NodeId) :
    (g.recast m f).shareBack sites effects n = g.shareBack sites effects n := by
  unfold shareBack
  rw [nodes_recast, List.getElem?_map]
  cases g.nodes[n]? with
  | none => rfl
  | some p => cases effects[n]? <;> simp [decl?_recast hdecls]

/-- The effects of the nodes are what they were. -/
theorem effects_recast : (g.recast m f).effects = g.effects := by
  have hshare : (g.recast m f).shareBack = g.shareBack := by
    funext sites effects n
    exact shareBack_recast hdecls sites effects n
  have heffect : (g.nodes.map (Point.renumber f)).map (g.recast m f).effect =
      g.nodes.map g.effect := by
    rw [List.map_map]
    exact List.map_congr_left fun p _ => effect_recast hdecls p
  simp only [effects, shareAliases, nodes_recast, List.length_map, heffect, sites_recast, hshare]

end Effects

end Graph

/-! ## Analyses -/

namespace Analysis

/-- The same analysis in another module, of the same graph with its tree numbers replaced. -/
def recast (a : Analysis) (m : Module) (f : TreeId → TreeId) : Analysis :=
  { a with graph := a.graph.recast m f }

variable {a : Analysis} {m : Module}

@[simp] theorem graph_recast : (a.recast m f).graph = a.graph.recast m f := rfl

@[simp] theorem effects_recast : (a.recast m f).effects = a.effects := rfl

@[simp] theorem spans_recast : (a.recast m f).spans = a.spans := rfl

@[simp] theorem reach?_recast (n : NodeId) : (a.recast m f).reach? n = a.reach? n := rfl

theorem ofGraph_recast (g : Graph) : ofGraph (g.recast m f) = (ofGraph g).recast m f := rfl

theorem nodeLabel_recast (n : NodeId) : (a.recast m f).nodeLabel n = a.nodeLabel n := by
  simp [nodeLabel, Function.comp_def]

theorem face_renumber (p : Point) : face (p.renumber f) = face p := by
  have hlabel := p.label_renumber (f := f)
  cases p with
  | mark kind counter => rfl
  | _ =>
      simp only [Point.renumber] at hlabel
      simp only [Point.renumber, face, hlabel]

theorem follow_recast :
    (a.recast m f).follow = a.follow.map fun followed => followed.recast m f := by
  unfold follow
  simp only [recast, Graph.flows_recast, Graph.nodes_recast, List.length_map]
  split
  · split <;> rfl
  · rfl

section Declarations

variable (hdecls : m.decls = a.graph.module.decls)

include hdecls

theorem classify_recast :
    (a.recast m f).classify = a.classify.map fun classified => classified.recast m f := by
  unfold classify
  rw [recast, Graph.effects_recast hdecls]
  cases a.graph.effects <;> rfl

/-- Definitions are followed alike, with the same fault if they cannot be. -/
theorem solve_recast : (a.recast m f).solve = (a.solve.1.recast m f, a.solve.2) := by
  have hclassified :
      (if (a.recast m f).effects.isEmpty then (a.recast m f).classify else .ok (a.recast m f)) =
        (if a.effects.isEmpty then a.classify else .ok a).map fun b => b.recast m f := by
    rw [classify_recast hdecls, effects_recast]
    split <;> rfl
  unfold solve
  rw [hclassified]
  cases if a.effects.isEmpty then a.classify else .ok a with
  | error fault => rfl
  | ok b =>
      simp only [Except.map, follow_recast]
      cases b.follow <;> rfl

theorem isVisible_recast (d : DeclId) : (a.recast m f).isVisible d = a.isVisible d := by
  unfold isVisible
  rw [graph_recast, Graph.decl?_recast hdecls]

theorem isUnused_recast (n : NodeId) : (a.recast m f).isUnused n = a.isUnused n := by
  have hlooks (d : DeclId) (visible : Bool) (n : NodeId) :
      (a.recast m f).looksAt d visible n = a.looksAt d visible n := by
    simp [looksAt, Option.any_map]
  have hseen (s : Span) : (a.recast m f).isSeen s = a.isSeen s := by
    simp only [isSeen, isVisible_recast hdecls, hlooks, effects_recast]
  simp only [isUnused, hseen, effects_recast, spans_recast]

/-- The same nodes are unused, in the same order. -/
theorem unused_recast (hf : StrictMono f) : (a.recast m f).unused = a.unused := by
  unfold unused
  rw [show (a.recast m f).isUnused = a.isUnused from funext (isUnused_recast hdecls)]
  simp only [graph_recast, effects_recast, spans_recast, Graph.nodes_recast, List.length_map,
    Graph.select_recast hf]

theorem note_recast (n : NodeId) : (a.recast m f).note n = a.note n := by
  have hvariable : (a.recast m f).variableLabel = a.variableLabel := by
    funext d
    unfold variableLabel
    rw [graph_recast, Graph.decl?_recast hdecls]
  have hnode : (a.recast m f).nodeLabel = a.nodeLabel := funext nodeLabel_recast
  simp only [note, noteText, hvariable, hnode, effects_recast, reach?_recast]

/-- The drawing is the same text. -/
theorem draw_recast (hf : StrictMono f) : (a.recast m f).draw = a.draw := by
  have hline : (a.recast m f).nodeLine = a.nodeLine := by
    funext position n
    simp only [nodeLine, note_recast hdecls, graph_recast, Graph.nodes_recast, List.getElem?_map,
      Option.map_map, Function.comp_def, face_renumber]
  simp only [draw, hline, graph_recast, Graph.sorted_recast hf, Graph.edges_recast]

end Declarations

/-- The analysis of a graph that was just built. -/
theorem ofSolved_recast {g : Graph} (hdecls : m.decls = g.module.decls) :
    ofSolved (g.recast m f) = (ofSolved g).map fun a => a.recast m f := by
  unfold ofSolved
  rw [ofGraph_recast, solve_recast hdecls]
  rcases (ofGraph g).solve with ⟨a, _ | fault⟩ <;> rfl

/-! ## Stages -/

variable {b : Analysis} {g : Graph}

theorem graph_of_follow (h : a.follow = .ok b) : b.graph = a.graph := by
  simp only [follow] at h
  split at h
  · split at h
    · cases h
      rfl
    · cases h
  · cases h

/-- Following definitions leaves the graph as it is. -/
theorem graph_solve (a : Analysis) : a.solve.1.graph = a.graph := by
  have hstart {b : Analysis} (h : (if a.effects.isEmpty then a.classify else .ok a) = .ok b) :
      b.graph = a.graph := by
    split at h
    · exact (classify_ok h).1
    · cases h
      rfl
  unfold solve
  split
  next => rfl
  next b hb =>
    split
    next => exact hstart hb
    next c hc => exact (graph_of_follow hc).trans (hstart hb)

theorem graph_of_ofSolved (h : ofSolved g = .ok a) : a.graph = g := by
  unfold ofSolved at h
  split at h
  next b hb =>
    cases h
    have hgraph := graph_solve (ofGraph g)
    rw [hb] at hgraph
    exact hgraph
  next => cases h

/-- How much is found out about a graph. -/
inductive Stage where
  /-- The graph was just built. -/
  | built
  /-- Its nodes are classified. -/
  | classified
  /-- And the definitions are followed. -/
  | followed

/-- The analysis of a graph up to a stage. -/
def Stage.reach (g : Graph) : Stage → Except AnalysisFault Analysis
  | built => .ok (.ofGraph g)
  | classified => (Analysis.ofGraph g).classify
  | followed => Analysis.ofSolved g

/-- What an analysis says without any number of the tree. -/
structure View where
  edges : List Flow
  implicit : List Flow
  effects : Array Effect
  spans : Option (List Span)
  unreachable : List NodeId
  dead : List NodeId
  unused : Except AnalysisFault (List NodeId)
  drawing : Except AnalysisFault String

def view (a : Analysis) : View :=
  { edges := a.graph.edges
    implicit := a.graph.implicit
    effects := a.effects
    spans := a.spans
    unreachable := a.graph.unreachable
    dead := a.graph.dead
    unused := a.unused
    drawing := a.draw }

theorem view_recast {a : Analysis} (hdecls : m.decls = a.graph.module.decls) (hf : StrictMono f) :
    (a.recast m f).view = a.view := by
  simp only [view, graph_recast, effects_recast, spans_recast, Graph.edges_recast,
    Graph.implicit_recast, Graph.unreachable_recast hf, Graph.dead_recast hf,
    unused_recast hdecls hf, draw_recast hdecls hf]

theorem Stage.reach_recast {g : Graph} (hdecls : m.decls = g.module.decls) (stage : Stage) :
    stage.reach (g.recast m f) = (stage.reach g).map fun a => a.recast m f := by
  cases stage with
  | built => rfl
  | classified => exact classify_recast (a := .ofGraph g) hdecls
  | followed => exact ofSolved_recast hdecls

theorem Stage.graph_of_reach {g : Graph} {a : Analysis} {stage : Stage}
    (hreach : stage.reach g = .ok a) : a.graph = g := by
  cases stage with
  | built =>
      cases hreach
      rfl
  | classified => exact (classify_ok hreach).1
  | followed => exact graph_of_ofSolved hreach

end Analysis

end ControlFlow
