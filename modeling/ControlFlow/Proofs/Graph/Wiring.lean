import ControlFlow.Graph.Basic
import Mathlib.Data.List.Nodup

/-! # Placing nodes and wiring flows

A point that is placed is found by its key from then on. Going on from an exit adds a flow from
each of its points, of which only the one from its drawn node is an edge.
-/

namespace ControlFlow.Graph

/-! ## Finding and placing nodes -/

section Placing

variable {g g' : Graph} {k : Key} {n : NodeId} {p : Point}

theorem find?_eq_none : g.find? k = none ↔ ∀ p ∈ g.nodes, p.key ≠ k := by
  simp [find?, List.findIdx?_eq_none_iff]

/-- A node that is found by a key has that key. -/
theorem find?_some (h : g.find? k = some n) : ∃ p, g.nodes[n]? = some p ∧ p.key = k := by
  obtain ⟨hn, hkey, -⟩ := List.findIdx?_eq_some_iff_getElem.mp h
  exact ⟨g.nodes[n], List.getElem?_eq_getElem hn, by simpa using hkey⟩

theorem lt_of_find? (h : g.find? k = some n) : n < g.nodes.length := by
  obtain ⟨p, hp, -⟩ := find?_some h
  exact (List.getElem?_eq_some_iff.mp hp).1

/-- Where no two nodes have one key, a node is found by its key. -/
theorem find?_of_getElem? (hkeys : (g.nodes.map Point.key).Nodup) (h : g.nodes[n]? = some p) :
    g.find? p.key = some n := by
  cases hfind : g.find? p.key with
  | none => exact absurd rfl (find?_eq_none.mp hfind p (List.mem_of_getElem? h))
  | some m =>
      obtain ⟨q, hq, hkey⟩ := find?_some hfind
      -- Two positions with one key are the same position.
      have hmn : (g.nodes.map Point.key)[m]? = (g.nodes.map Point.key)[n]? := by
        rw [List.getElem?_map, List.getElem?_map, hq, h, Option.map_some, Option.map_some, hkey]
      have hm : m < (g.nodes.map Point.key).length := by
        rw [List.length_map]
        exact lt_of_find? hfind
      rw [(List.getElem?_inj hm hkeys).mp hmn]

/-- What is found stays where it is when nodes are added. -/
theorem find?_of_prefix (hnodes : g.nodes <+: g'.nodes) (h : g.find? k = some n) :
    g'.find? k = some n := by
  obtain ⟨more, hmore⟩ := hnodes
  unfold find? at h ⊢
  rw [← hmore, List.findIdx?_append, h]
  rfl

theorem place_of_none (h : g.find? p.key = none) :
    g.place p = (g.nodes.length, { g with nodes := g.nodes ++ [p] }) := by
  unfold place
  rw [h]

theorem place_of_some (h : g.find? p.key = some n) : g.place p = (n, g) := by
  unfold place
  rw [h]

theorem place_flows (g : Graph) (p : Point) : (g.place p).2.flows = g.flows := by
  cases h : g.find? p.key with
  | some n => rw [place_of_some h]
  | none =>
      rw [place_of_none h]
      rfl

/-- A placed point is found where it was placed. -/
theorem find?_place (g : Graph) (p : Point) :
    (g.place p).2.find? p.key = some (g.place p).1 := by
  cases h : g.find? p.key with
  | some n =>
      rw [place_of_some h]
      exact h
  | none =>
      rw [place_of_none h]
      have hnone : g.nodes.findIdx? (fun q => q.key = p.key) = none := h
      simp [find?, List.findIdx?_append, hnone]

end Placing

/-! ## Flows -/

/-- All flows of a graph lead from and to nodes that it has. -/
def FlowsInside (g : Graph) : Prop :=
  ∀ f ∈ g.flows, f.1 < g.nodes.length ∧ f.2 < g.nodes.length

section Flows

variable {g : Graph} {source target n : NodeId} {f : Flow} {e : Exit}

theorem joins_iff {flows : List Flow} : joins flows source target = true ↔
    (source, target) ∈ flows := by
  simp only [joins, List.any_eq_true, Bool.and_eq_true, beq_iff_eq]
  constructor
  · rintro ⟨f, hf, rfl, rfl⟩
    exact hf
  · exact fun h => ⟨_, h, rfl, rfl⟩

theorem mem_flows : f ∈ g.flows ↔ f ∈ g.edges ∨ f ∈ g.implicit := List.mem_append

theorem mem_edges_draw : f ∈ (g.draw source target).edges ↔
    f ∈ g.edges ∨ f = (source, target) := by
  unfold draw
  split
  next h => exact ⟨.inl, fun hf => hf.elim id fun hf => hf ▸ joins_iff.mp h⟩
  next => simp

theorem draw_implicit (g : Graph) (source target : NodeId) :
    (g.draw source target).implicit = g.implicit := by
  unfold draw
  split <;> rfl

theorem imply_edges (g : Graph) (source target : NodeId) :
    (g.imply source target).edges = g.edges := by
  unfold imply
  split <;> rfl

theorem draw_nodes (g : Graph) (source target : NodeId) :
    (g.draw source target).nodes = g.nodes := by
  unfold draw
  split <;> rfl

theorem imply_nodes (g : Graph) (source target : NodeId) :
    (g.imply source target).nodes = g.nodes := by
  unfold imply
  split <;> rfl

theorem mem_flows_draw : f ∈ (g.draw source target).flows ↔
    f ∈ g.flows ∨ f = (source, target) := by
  rw [mem_flows, mem_flows, mem_edges_draw, draw_implicit, or_right_comm]

theorem mem_flows_imply : f ∈ (g.imply source target).flows ↔
    f ∈ g.flows ∨ f = (source, target) := by
  unfold imply
  split
  next h =>
    refine ⟨.inl, fun hf => hf.elim id fun hf => ?_⟩
    rw [hf, mem_flows]
    exact (Bool.or_eq_true_iff.mp h).imp joins_iff.mp joins_iff.mp
  next => simp [mem_flows, or_assoc]

theorem mem_flows_implyAll {ns : List NodeId} :
    f ∈ (ns.foldl (fun g n => g.imply n target) g).flows ↔
      f ∈ g.flows ∨ ∃ n ∈ ns, f = (n, target) := by
  induction ns generalizing g with
  | nil => simp
  | cons n rest ih =>
      rw [List.foldl_cons, ih, mem_flows_imply]
      simp [or_assoc]

/-- Going on from an exit adds a flow from each of its points. -/
theorem mem_flows_connect : f ∈ (g.connect e target).flows ↔
    f ∈ g.flows ∨ ∃ n ∈ e.points, f = (n, target) := by
  unfold connect Exit.points
  split
  next n hn =>
    rw [mem_flows_implyAll, mem_flows_draw, hn]
    simp [or_assoc]
  next hn =>
    rw [mem_flows_implyAll, hn]
    simp

theorem mem_flows_connectAll {es : List Exit} :
    f ∈ (es.foldl (fun g e => g.connect e target) g).flows ↔
      f ∈ g.flows ∨ ∃ e ∈ es, ∃ n ∈ e.points, f = (n, target) := by
  induction es generalizing g with
  | nil => simp
  | cons e rest ih =>
      rw [List.foldl_cons, ih, mem_flows_connect]
      simp [or_assoc]

theorem implyAll_nodes (g : Graph) (ns : List NodeId) (target : NodeId) :
    (ns.foldl (fun g n => g.imply n target) g).nodes = g.nodes := by
  induction ns generalizing g with
  | nil => rfl
  | cons n rest ih => rw [List.foldl_cons, ih, imply_nodes]

theorem connect_nodes (g : Graph) (e : Exit) (target : NodeId) :
    (g.connect e target).nodes = g.nodes := by
  unfold connect
  rw [implyAll_nodes]
  split
  next n hn => exact draw_nodes g n target
  next => rfl

theorem connectAll_nodes (g : Graph) (es : List Exit) (target : NodeId) :
    (es.foldl (fun g e => g.connect e target) g).nodes = g.nodes := by
  induction es generalizing g with
  | nil => rfl
  | cons e rest ih => rw [List.foldl_cons, ih, connect_nodes]

theorem implyAll_edges (g : Graph) (ns : List NodeId) (target : NodeId) :
    (ns.foldl (fun g n => g.imply n target) g).edges = g.edges := by
  induction ns generalizing g with
  | nil => rfl
  | cons n rest ih => rw [List.foldl_cons, ih, imply_edges]

/-- Going on from an exit draws an edge from its drawn node only. -/
theorem mem_edges_connect : f ∈ (g.connect e target).edges ↔
    f ∈ g.edges ∨ ∃ n, e.node = some n ∧ f = (n, target) := by
  unfold connect
  rw [implyAll_edges]
  split
  next n hn =>
    rw [mem_edges_draw, hn]
    simp
  next hn => simp [hn]

theorem mem_edges_connectAll {es : List Exit} :
    f ∈ (es.foldl (fun g e => g.connect e target) g).edges ↔
      f ∈ g.edges ∨ ∃ e ∈ es, ∃ n, e.node = some n ∧ f = (n, target) := by
  induction es generalizing g with
  | nil => simp
  | cons e rest ih =>
      rw [List.foldl_cons, ih, mem_edges_connect]
      simp [or_assoc]

end Flows

end ControlFlow.Graph
