import ControlFlow.Proofs.Pruning.Renumbered

/-! # Pruning converges and leaves nothing to do

Pruning ends after few rounds. In the graph of what it leaves, nothing unused or dead can go any
more, so that pruning once more changes nothing.
-/

namespace ControlFlow

/-- A declaration whose variable is still named somewhere in a body. -/
def Point.DeclaresNamed (body : Block) (p : Point) : Prop :=
  ∃ id var, p = .stmt (.simple id (.declare var)) ∧ ∃ e ∈ body.exprs, e.named? = some var.decl

namespace Pruning

variable {g : Graph} {effects : Array Effect} {body : Block} {globals : List Global}

theorem declares_of_isShielded {s : Stmt} (h : isShielded (named body) s = true) :
    (Point.stmt s).DeclaresNamed body := by
  unfold isShielded at h
  split at h
  next id var =>
    obtain ⟨e, he, hnamed⟩ := List.mem_filterMap.mp (List.contains_iff_mem.mp h)
    exact ⟨id, var, rfl, e, he, hnamed⟩
  next => cases h

/-- Where a round finds nothing, it condemns only what is shielded. -/
theorem isShielded_of_condemns (hdepicts : g.Depicts body globals)
    (heffects : g.effects = .ok effects) (hdoomed : doomed g body = .ok []) {s : Stmt}
    (h : Condemns g effects s) : isShielded (named body) s = true := by
  -- A condemned statement that is not shielded would have been found.
  refine Bool.not_eq_false _ |>.mp fun hshield => ?_
  exact List.not_mem_nil ((mem_doomed_iff hdepicts heffects hdoomed).mpr ⟨s, rfl, hshield, h⟩)

/-- Conditions, sequences and loop variables of a body have their statement as owner. -/
theorem exists_controlOwner (hdepicts : g.Depicts body globals) {s : Stmt} {id : TreeId}
    (hs : s ∈ body.allStmts) (hown : (id, s) ∈ s.controls) :
    ∃ t, g.controlOwner? id = some t := by
  have howned := (hdepicts.shows s hs).owned hown
  unfold Graph.controlOwner?
  cases hfind : g.owners.find? fun o => o.1 = id with
  | none =>
      have hother := List.find?_eq_none.mp hfind _ howned
      exact absurd rfl (of_decide_eq_false (Bool.not_eq_true _ |>.mp hother))
  | some o => exact ⟨o.2, rfl⟩

/-- A statement that owns a control declares nothing. -/
theorem isShielded_of_mem_controls {s : Stmt} {id : TreeId} {names : List DeclId}
    (h : (id, s) ∈ s.controls) : isShielded names s = false := by
  cases s with
  | simple id what => cases h
  | _ => rfl

/-- Where a round finds nothing, dead nodes are declarations that are still named. -/
theorem declares_of_dead (hdepicts : g.Depicts body globals) (heffects : g.effects = .ok effects)
    (hdoomed : doomed g body = .ok []) {n : NodeId} (hn : n ∈ g.dead) :
    ∃ p, g.nodes[n]? = some p ∧ p.DeclaresNamed body := by
  obtain ⟨⟨p, hp, hmark⟩, hdead⟩ := Graph.mem_dead.mp hn
  refine ⟨p, hp, ?_⟩
  have hshielded {s : Stmt} (hs : g.owner? p = some s) : isShielded (named body) s = true :=
    isShielded_of_condemns hdepicts heffects hdoomed (.inr ⟨n, hn, p, hp, hs⟩)
  -- The owner of a control is never shielded, so that no control is dead.
  have hcontrol {id : TreeId} (howner : g.owner? p = g.controlOwner? id)
      (hs : ∃ s ∈ body.allStmts, (id, s) ∈ s.controls) : p.DeclaresNamed body := by
    obtain ⟨s, hs, hown⟩ := hs
    obtain ⟨t, ht⟩ := exists_controlOwner hdepicts hs hown
    have hfalse := hshielded (howner.trans ht)
    rw [isShielded_of_mem_controls (hdepicts.controlOwner_mem ht).2] at hfalse
    cases hfalse
  have hmem := List.mem_of_getElem? hp
  cases p with
  | mark kind counter => cases hmark
  | stmt s => exact declares_of_isShielded (hshielded rfl)
  | expr e => exact hcontrol rfl (hdepicts.control_mem hmem rfl)
  | loopVar var => exact hcontrol rfl (hdepicts.control_mem hmem rfl)
  | global v =>
      obtain ⟨m, hm, hlive⟩ := hdepicts.live_globals v (hdepicts.global_mem hmem)
      rw [Graph.find?_of_getElem? hdepicts.nodup_keys hp] at hm
      cases hm
      exact absurd hlive hdead

/-- The node of a condition or sequence always stays. -/
theorem not_isUnused_of_expr (heffects : g.effects = .ok effects) {n : NodeId} {e : Expr}
    (hn : g.nodes[n]? = some (.expr e)) : (Analysis.solved g effects).isUnused n = false := by
  apply Bool.eq_false_iff.mpr
  intro hunused
  have hstays : (g.effect (.expr e)).keep = true := rfl
  rw [Analysis.keep_of_isUnused heffects hn hunused] at hstays
  cases hstays

/-- Where a round finds nothing, unused nodes are globals, loop variables, or declarations that
are still named. -/
theorem declares_of_unused (hdepicts : g.Depicts body globals) (heffects : g.effects = .ok effects)
    (hdoomed : doomed g body = .ok []) {n : NodeId}
    (hn : n ∈ g.select (Analysis.solved g effects).isUnused) :
    ∃ p, g.nodes[n]? = some p ∧
      ((∃ v, p = .global v) ∨ (∃ var, p = .loopVar var) ∨ p.DeclaresNamed body) := by
  obtain ⟨⟨p, hp, hmark⟩, hunused⟩ := Graph.mem_select.mp hn
  refine ⟨p, hp, ?_⟩
  cases p with
  | mark kind counter => cases hmark
  | stmt s =>
      have hshielded := isShielded_of_condemns hdepicts heffects hdoomed (.inl ⟨n, hn, hp⟩)
      exact .inr (.inr (declares_of_isShielded hshielded))
  | expr e =>
      rw [not_isUnused_of_expr heffects hp] at hunused
      cases hunused
  | loopVar var => exact .inr (.inl ⟨var, rfl⟩)
  | global v => exact .inl ⟨v, rfl⟩

/-- What the analysis of a graph still reports when there is nothing left to prune. -/
structure Settled (g : Graph) (body : Block) : Prop where
  unused : ∃ a unused, Analysis.ofSolved g = .ok a ∧ a.unused = .ok unused ∧
    ∀ n ∈ unused, ∃ p, g.nodes[n]? = some p ∧
      ((∃ v, p = .global v) ∨ (∃ var, p = .loopVar var) ∨ p.DeclaresNamed body)
  dead : ∀ n ∈ g.dead, ∃ p, g.nodes[n]? = some p ∧ p.DeclaresNamed body

theorem settled_of_doomed (hdepicts : g.Depicts body globals) (hdoomed : doomed g body = .ok []) :
    Settled g body := by
  obtain ⟨effects, heffects⟩ := effects_of_doomed hdoomed
  exact ⟨⟨_, _, Analysis.ofSolved_ok hdepicts.inside heffects,
    Analysis.unused_solved hdepicts.nodes_ne_nil heffects,
    fun n hn => declares_of_unused hdepicts heffects hdoomed hn⟩,
    fun n hn => declares_of_dead hdepicts heffects hdoomed hn⟩

theorem find?_setBody (name : String) (body : Block) (fs : List Function) :
    (setBody name body fs).find? (fun f => f.name = name) =
      (fs.find? fun f => f.name = name).map fun f => { f with body } := by
  induction fs with
  | nil => rfl
  | cons f rest ih =>
      by_cases hname : f.name = name
      · simp [setBody, hname]
      · simpa [setBody, hname] using ih

theorem setBody_setBody (name : String) (body : Block) (fs : List Function) :
    setBody name body (setBody name body fs) = setBody name body fs := by
  induction fs with
  | nil => rfl
  | cons f rest ih =>
      by_cases hname : f.name = name
      · simp only [setBody, if_pos hname]
      · simp only [setBody, if_neg hname, ih]

end Pruning

namespace Module

/-- The body of a function, or the top-level one if none is named. -/
def bodyOf? (m : Module) : Option String → Option Block
  | some name => (m.function? name).map Function.body
  | none => some m.body

/-- How the graph of a body is built where it belongs to a function or is the top-level one. -/
def graphWith (m : Module) : Option String → Block → Graph
  | some _ => Graph.ofBlock m
  | none => fun body => Graph.ofModule { m with body }

/-- The module in which a body is another one. -/
def withBody (m : Module) (body : Block) : Option String → Module
  | some name => { m with functions := Pruning.setBody name body m.functions }
  | none => { m with body }

/-- A module with nothing but top-level statements. -/
def ofStmts (stmts : List Stmt) : Module := ⟨"m", [], [], ⟨1, stmts⟩, []⟩

/-- The globals that a graph of the module shows. -/
def globalsOf (m : Module) : Option String → List Global
  | some _ => []
  | none => m.globals

variable {m : Module} {scope : Option String} {body pruned : Block} {report : Pruning.Report}

theorem depicts_graphWith (m : Module) (scope : Option String) (b : Block) :
    (m.graphWith scope b).Depicts b (m.globalsOf scope) := by
  cases scope with
  | none => exact Graph.depicts_ofModule { m with body := b }
  | some name => exact Graph.depicts_ofBlock m b

theorem bodyOf?_withBody (h : m.bodyOf? scope = some body) :
    (m.withBody pruned scope).bodyOf? scope = some pruned := by
  cases scope with
  | none => rfl
  | some name =>
      obtain ⟨f, hf, -⟩ := Option.map_eq_some_iff.mp h
      refine Option.map_eq_some_iff.mpr ⟨{ f with body := pruned }, ?_, rfl⟩
      exact (Pruning.find?_setBody name pruned m.functions).trans
        (congrArg (Option.map fun f : Function => { f with body := pruned }) hf)

theorem withBody_withBody :
    (m.withBody pruned scope).withBody pruned scope = m.withBody pruned scope := by
  cases scope with
  | none => rfl
  | some name =>
      simp only [withBody, Pruning.setBody_setBody]

/-- Pruning a scope prunes its body. -/
theorem prune_eq (h : m.bodyOf? scope = some body) :
    m.prune scope = match Pruning.pruneBody (m.graphWith scope) body with
      | .ok (pruned, report) => .ok (m.withBody pruned scope, report)
      | .error why => .error (.analysis why) := by
  cases scope with
  | none =>
      cases h
      rfl
  | some name =>
      obtain ⟨f, hf, rfl⟩ := Option.map_eq_some_iff.mp h
      change m.pruneFunction name = _
      unfold pruneFunction function
      rw [hf]
      rfl

/-- What pruning leaves is the module without the statements that were found to go, round by round,
in the body that was pruned. -/
theorem exists_of_prune {p : Module} (h : m.prune scope = .ok (p, report)) :
    ∃ body pruned, m.bodyOf? scope = some body ∧ p = m.withBody pruned scope ∧
      pruned = Pruning.takeOut report.removed body ∧
      Pruning.Rounds (m.graphWith scope) body (.ok (pruned, report)) := by
  cases hbody : m.bodyOf? scope with
  | none =>
      cases scope with
      | none => cases hbody
      | some name =>
          have hnone := Option.map_eq_none_iff.mp hbody
          change m.pruneFunction name = _ at h
          unfold pruneFunction function at h
          rw [hnone] at h
          cases h
  | some body =>
      have hrounds := Pruning.rounds_pruneBody (m.depicts_graphWith scope) body
      rw [prune_eq hbody] at h
      cases hresult : Pruning.pruneBody (m.graphWith scope) body with
      | error why =>
          rw [hresult] at h
          cases h
      | ok done =>
          rw [hresult] at h hrounds
          cases h
          exact ⟨body, done.1, rfl, rfl, hrounds.eq_takeOut, hrounds⟩

theorem graph_eq (h : m.bodyOf? scope = some body) :
    m.graph scope = .ok (m.graphWith scope body) := by
  cases scope with
  | none =>
      cases h
      rfl
  | some name =>
      obtain ⟨f, hf, rfl⟩ := Option.map_eq_some_iff.mp h
      change (m.function name).map (Graph.ofFunction m) = _
      unfold function
      rw [hf]
      rfl

/-- A round does not depend on the body that the module has in a scope. -/
theorem doomed_withBody (m : Module) (scope : Option String) (pruned b : Block) :
    Pruning.doomed ((m.withBody pruned scope).graphWith scope b) b =
      Pruning.doomed (m.graphWith scope b) b := by
  cases scope with
  | none => rfl
  | some name =>
      have hdecls : (m.withBody pruned (some name)).decls = m.decls := rfl
      exact Pruning.doomed_ofBlock hdecls b

/-- Pruning a scope ends after few rounds, unless its function is unknown or the variable that a
declaration refers into has no node. What the analysis still finds in the pruned body has to stay,
and pruning once more changes nothing. -/
theorem prune_converges (m : Module) (scope : Option String) :
    (∃ name, scope = some name ∧ m.function? name = none ∧
      m.prune scope = .error (.unknownFunction m.name name)) ∨
    ∃ body, m.bodyOf? scope = some body ∧
      ((∃ why, m.prune scope = .error (.analysis why) ∧ why.IsMissingSite ∧
        Pruning.Rounds (m.graphWith scope) body (.error why)) ∨
      ∃ m' pruned report, m.prune scope = .ok (m', report) ∧
        m'.bodyOf? scope = some pruned ∧
        Pruning.Rounds (m.graphWith scope) body (.ok (pruned, report)) ∧
        report.rounds ≤ 1 + body.size ∧ report.rounds ≤ 1 + report.removed.length ∧
        (∃ g, m'.graph scope = .ok g ∧ Pruning.Settled g pruned) ∧
        m'.prune scope = .ok (m', ⟨[], 1⟩)) := by
  cases hbody : m.bodyOf? scope with
  | none =>
      cases scope with
      | none => cases hbody
      | some name =>
          have hnone := Option.map_eq_none_iff.mp hbody
          refine .inl ⟨name, rfl, hnone, ?_⟩
          change m.pruneFunction name = _
          unfold pruneFunction function
          rw [hnone]
          rfl
  | some body =>
      refine .inr ⟨body, rfl, ?_⟩
      have hrounds := Pruning.rounds_pruneBody (m.depicts_graphWith scope) body
      have hprune := prune_eq hbody
      cases hresult : Pruning.pruneBody (m.graphWith scope) body with
      | error why =>
          rw [hresult] at hrounds hprune
          exact .inl ⟨why, hprune, hrounds.isMissingSite (m.depicts_graphWith scope) rfl, hrounds⟩
      | ok done =>
          obtain ⟨pruned, report⟩ := done
          rw [hresult] at hrounds hprune
          have hpruned : (m.withBody pruned scope).bodyOf? scope = some pruned :=
            bodyOf?_withBody hbody
          have hbound := hrounds.bound (m.depicts_graphWith scope)
          -- The last round was made in the graph of the old module.
          have hsettled := (doomed_withBody m scope pruned pruned).trans hrounds.settles
          have hdepicts := (m.withBody pruned scope).depicts_graphWith scope pruned
          refine .inr ⟨_, pruned, report, hprune, hpruned, hrounds, hbound.1, hbound.2,
            ⟨_, graph_eq hpruned, Pruning.settled_of_doomed hdepicts hsettled⟩, ?_⟩
          rw [prune_eq hpruned, Pruning.pruneBody_of_settled hsettled]
          exact congrArg (fun again => Except.ok (again, _)) withBody_withBody

end Module

end ControlFlow
