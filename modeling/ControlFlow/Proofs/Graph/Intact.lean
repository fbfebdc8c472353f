import ControlFlow.Proofs.Graph.Finished

/-! # Graphs stay intact

A graph may go on growing after it was finished: points are placed, edges are drawn, and statements
are appended. Whatever is asked of it, it never has two nodes with one key or one flow twice, and
nothing that it has ever moves.
-/

namespace ControlFlow

namespace Graph

/-! ## Calls -/

/-- What can be asked of a graph. -/
inductive Call where
  /-- The node of a point, which is added if its key is new. -/
  | place (p : Point)
  /-- An edge, if both of its ends are known and it is not there. -/
  | draw (source target : Option NodeId)
  /-- More statements, entered from an exit. -/
  | append (parent : Exit) (stmts : List Stmt)

/-- What a graph answers. -/
inductive Answer where
  | node (n : NodeId)
  /-- The position of the edge, if one was drawn. -/
  | edge (position : Option Nat)
  | exit (e : Exit)

/-- Answer a call. -/
def serve (g : Graph) : Call → Answer × Graph
  | .place p => (.node (g.place p).1, (g.place p).2)
  | .draw (some source) (some target) =>
      if joins g.edges source target then (.edge none, g)
      else (.edge (some g.edges.length), g.draw source target)
  | .draw _ _ => (.edge none, g)
  | .append parent stmts => (.exit (g.append parent stmts).1, (g.append parent stmts).2)

/-- The graph after some calls. -/
def serveAll (g : Graph) (cs : List Call) : Graph := cs.foldl (fun g c => (g.serve c).2) g

variable {A : Point → Prop} {O : TreeId × Stmt → Prop} {g g' : Graph} {source target : NodeId}

theorem steps_serve (g : Graph) (c : Call) :
    Steps (fun _ => True) (fun _ => True) g (g.serve c).2 := by
  cases c with
  | place p => exact .single (.place g trivial)
  | draw source target =>
      cases source with
      | none => exact .refl
      | some source =>
          cases target with
          | none => exact .refl
          | some target =>
              unfold serve
              dsimp only
              split
              · exact .refl
              · exact .single (.draw g source target)
  | append parent stmts =>
      exact (grows_lowerSeq stmts none parent (.ofGraph g)).steps.mono (fun _ _ => trivial)
        fun _ _ => trivial

theorem steps_serveAll (g : Graph) (cs : List Call) :
    Steps (fun _ => True) (fun _ => True) g (g.serveAll cs) := by
  induction cs generalizing g with
  | nil => exact .refl
  | cons c rest ih => exact (steps_serve g c).trans (ih _)

/-! ## What every step keeps -/

/-- A graph has no two nodes with one key, draws no edge twice and implies no flow twice. -/
structure Intact (g : Graph) : Prop where
  keys : (g.nodes.map Point.key).Nodup
  edges : g.edges.Nodup
  implicit : g.implicit.Nodup

theorem place_edges (g : Graph) (p : Point) : (g.place p).2.edges = g.edges := by
  unfold place
  split <;> rfl

theorem place_implicit (g : Graph) (p : Point) : (g.place p).2.implicit = g.implicit := by
  unfold place
  split <;> rfl

theorem nodup_concat {flows : List Flow} (h : flows.Nodup)
    (hnew : ¬ joins flows source target = true) : (flows ++ [(source, target)]).Nodup := by
  refine List.nodup_append.mpr ⟨h, List.nodup_singleton _, ?_⟩
  rintro f hf _ hf' rfl
  cases List.mem_singleton.mp hf'
  exact hnew (joins_iff.mpr hf)

theorem Intact.draw (h : g.Intact) (source target : NodeId) : (g.draw source target).Intact := by
  unfold Graph.draw
  split
  next => exact h
  next hnew => exact ⟨h.keys, nodup_concat h.edges hnew, h.implicit⟩

theorem Intact.imply (h : g.Intact) (source target : NodeId) :
    (g.imply source target).Intact := by
  unfold Graph.imply
  split
  next => exact h
  next hnew =>
    rw [Bool.or_eq_true, not_or] at hnew
    exact ⟨h.keys, h.edges, nodup_concat h.implicit hnew.2⟩

theorem Intact.place (h : g.Intact) (p : Point) : (g.place p).2.Intact := by
  refine ⟨nodup_place h.keys, ?_, ?_⟩
  · rw [place_edges]
    exact h.edges
  · rw [place_implicit]
    exact h.implicit

theorem Intact.step (h : g.Intact) (hstep : Step A O g g') : g'.Intact := by
  cases hstep with
  | place hp => exact h.place _
  | join =>
      exact Intact.place (g := { g with marks := g.marks + 1 }) ⟨h.keys, h.edges, h.implicit⟩ _
  | draw source target => exact h.draw _ _
  | imply source target => exact h.imply _ _
  | own ho => exact ⟨h.keys, h.edges, h.implicit⟩

theorem Intact.steps (h : g.Intact) (hsteps : Steps A O g g') : g'.Intact :=
  hsteps.invariant (fun _ _ hstep hg => hg.step hstep) h

theorem intact_empty (m : Module) (showsGlobals : Bool) : (empty m showsGlobals).Intact :=
  ⟨nodup_keys_empty m showsGlobals, List.nodup_nil, List.nodup_nil⟩

/-- In an intact graph, a node is found by a key if and only if it has that key. -/
theorem Intact.find?_iff (h : g.Intact) {k : Key} {n : NodeId} :
    g.find? k = some n ↔ ∃ p, g.nodes[n]? = some p ∧ p.key = k := by
  constructor
  · exact find?_some
  · rintro ⟨p, hp, rfl⟩
    exact find?_of_getElem? h.keys hp

/-- All nodes and flows of a graph stand at the same positions in another one. -/
structure Prolongs (g g' : Graph) : Prop where
  nodes : g.nodes <+: g'.nodes
  edges : g.edges <+: g'.edges
  implicit : g.implicit <+: g'.implicit

namespace Prolongs

theorem refl (g : Graph) : g.Prolongs g :=
  ⟨List.prefix_refl _, List.prefix_refl _, List.prefix_refl _⟩

theorem trans {g'' : Graph} (h : g.Prolongs g') (h' : g'.Prolongs g'') : g.Prolongs g'' :=
  ⟨h.nodes.trans h'.nodes, h.edges.trans h'.edges, h.implicit.trans h'.implicit⟩

theorem place (g : Graph) (p : Point) : g.Prolongs (g.place p).2 := by
  have hedges : g.edges <+: (g.place p).2.edges := by
    simp only [place_edges, List.prefix_refl]
  have himplicit : g.implicit <+: (g.place p).2.implicit := by
    simp only [place_implicit, List.prefix_refl]
  exact ⟨(extends_place g p).nodes, hedges, himplicit⟩

theorem step (hstep : Step A O g g') : g.Prolongs g' := by
  cases hstep with
  | place hp => exact place g _
  | join =>
      obtain ⟨hnodes, hedges, himplicit⟩ := place { g with marks := g.marks + 1 }
        (.mark .join g.marks)
      exact ⟨hnodes, hedges, himplicit⟩
  | draw source target =>
      unfold Graph.draw
      split
      next => exact refl g
      next => exact ⟨List.prefix_refl _, List.prefix_append _ _, List.prefix_refl _⟩
  | imply source target =>
      unfold Graph.imply
      split
      next => exact refl g
      next => exact ⟨List.prefix_refl _, List.prefix_refl _, List.prefix_append _ _⟩
  | own ho => exact ⟨List.prefix_refl _, List.prefix_refl _, List.prefix_refl _⟩

theorem steps (hsteps : Steps A O g g') : g.Prolongs g' := by
  induction hsteps with
  | refl => exact refl g
  | tail _ hlast ih => exact ih.trans (step hlast)

end Prolongs

/-- Once an edge was asked for, it is there. -/
theorem mem_edges_serve (g : Graph) (source target : NodeId) :
    (source, target) ∈ (g.serve (.draw (some source) (some target))).2.edges := by
  unfold serve
  dsimp only
  split
  next h => exact joins_iff.mp h
  next => exact mem_edges_draw.mpr (.inr rfl)

end Graph

end ControlFlow
