import ControlFlow.Proofs.Graph.Growth
import ControlFlow.Proofs.Reaching.Observed
import Mathlib

/-! # More flow is more conservative

Edges that are drawn into a solved graph can only bring more. Once the definitions are followed
anew, every node has all definitions that it had, and no node is unused or dead that was not so
before.
-/

namespace ControlFlow

open Reaching
open Search (Path)

/-! ## Graphs that got more flow -/

namespace Graph

/-- Draw some edges, one after the other. -/
def drawAll (g : Graph) (edges : List Flow) : Graph :=
  edges.foldl (fun g f => g.draw f.1 f.2) g

/-- A graph has all edges and flows of another one, between the same nodes. -/
structure Widens (g g' : Graph) : Prop where
  module_eq : g'.module = g.module
  nodes_eq : g'.nodes = g.nodes
  edges : g.edges ⊆ g'.edges
  flows : g.flows ⊆ g'.flows

variable {g g' g'' : Graph} {n : NodeId} {effects : Array Effect} {defn : Definition}

namespace Widens

theorem refl (g : Graph) : g.Widens g := ⟨rfl, rfl, fun _ h => h, fun _ h => h⟩

theorem trans (h : g.Widens g') (h' : g'.Widens g'') : g.Widens g'' :=
  ⟨h'.module_eq.trans h.module_eq, h'.nodes_eq.trans h.nodes_eq,
    fun _ hf => h'.edges (h.edges hf), fun _ hf => h'.flows (h.flows hf)⟩

end Widens

theorem widens_draw (g : Graph) (source target : NodeId) : g.Widens (g.draw source target) :=
  ⟨(extends_draw g source target).module_eq, draw_nodes g source target,
    (extends_draw g source target).edges, (extends_draw g source target).flows⟩

theorem widens_drawAll (g : Graph) (edges : List Flow) : g.Widens (g.drawAll edges) := by
  induction edges generalizing g with
  | nil => exact .refl g
  | cons f rest ih => exact (widens_draw g f.1 f.2).trans (ih (g.draw f.1 f.2))

theorem mem_flows_drawAll {edges : List Flow} {f : Flow} :
    f ∈ (g.drawAll edges).flows ↔ f ∈ g.flows ∨ f ∈ edges := by
  induction edges generalizing g with
  | nil => simp [drawAll]
  | cons e rest ih =>
      have hrest : g.drawAll (e :: rest) = (g.draw e.1 e.2).drawAll rest := rfl
      rw [hrest, ih, mem_flows_draw, List.mem_cons, or_assoc]

theorem FlowsInside.drawAll {edges : List Flow} (h : g.FlowsInside)
    (hedges : ∀ f ∈ edges, f.1 < g.nodes.length ∧ f.2 < g.nodes.length) :
    (g.drawAll edges).FlowsInside := by
  intro f hf
  rw [(widens_drawAll g edges).nodes_eq]
  rcases mem_flows_drawAll.mp hf with hold | hnew
  · exact h f hold
  · exact hedges f hnew

namespace Widens

/-- A test that holds for fewer nodes selects fewer, in the same order. -/
theorem select_sublist (h : g.Widens g') {test test' : NodeId → Bool}
    (htest : ∀ n, test' n = true → test n = true) :
    (g'.select test').Sublist (g.select test) := by
  have hsorted : g'.sorted = g.sorted := by
    unfold sorted
    rw [h.nodes_eq]
  unfold select
  rw [hsorted, h.nodes_eq]
  refine List.monotone_filter_right _ fun n hn => ?_
  rw [Bool.and_eq_true] at hn ⊢
  exact ⟨hn.1, htest n hn.2⟩

theorem dead_sublist (h : g.Widens g') : g'.dead.Sublist g.dead := by
  refine h.select_sublist fun n hn => ?_
  simp only [Bool.and_eq_true, decide_eq_true_eq, Bool.not_eq_true', List.contains_eq_mem,
    decide_eq_false_iff_not, Search.mem_reached] at hn ⊢
  exact ⟨hn.1, fun hpath => hn.2 (hpath.mono h.edges)⟩

theorem reached (h : g.Widens g') (hn : Reached g effects defn n) : Reached g' effects defn n :=
  ⟨hn.1, hn.2.mono h.flows⟩

theorem outlives (h : g.Widens g') (hn : Outlives g effects defn n) :
    Outlives g' effects defn n :=
  hn.imp_right fun ⟨hreached, hpasses⟩ => ⟨h.reached hreached, hpasses⟩

end Widens

end Graph

/-! ## Analyses of such graphs -/

namespace Analysis

variable {a c e : Analysis} {n : NodeId}

/-- What a followed analysis answers at a node is what paths bring there. -/
theorem Followed.reach? (h : a.Followed) (hn : n < a.graph.nodes.length) :
    ∃ r, a.reach? n = some r ∧
      (∀ defn, defn ∈ r.before ↔ Reached a.graph a.effects defn n) ∧
      (∀ defn, defn ∈ r.after ↔ Outlives a.graph a.effects defn n) :=
  reach?_of_solved h.inside h.size_le h.spans_eq hn

/-- Definitions are followed anew in a graph whose nodes are classified, with the effects that
its nodes have. -/
theorem solve_of_sized (hinside : a.graph.FlowsInside) (hnodes : a.graph.nodes ≠ [])
    (hsize : a.graph.nodes.length ≤ a.effects.size) :
    a.solve = ({ a with spans := some (Reaching.solve a.graph.flows a.effects) }, none) := by
  have hpos : 0 < a.effects.size := (List.length_pos_iff.mpr hnodes).trans_le hsize
  have hempty : a.effects.isEmpty = false := by
    rw [Array.isEmpty]
    exact decide_eq_false (Nat.pos_iff_ne_zero.mp hpos)
  unfold Analysis.solve
  simp only [hempty, Bool.false_eq_true, if_false, follow_ok hinside hsize]

/-- More flow takes values to more nodes, so that no more nodes are unused. -/
theorem isUnused_of_widens (hc : c.Followed) (he : e.Followed) (hgraph : c.graph.Widens e.graph)
    (heffects : e.effects = c.effects) (hn : e.isUnused n = true) : c.isUnused n = true := by
  obtain ⟨eff, heff, hkeep, hpaths⟩ := (isUnused_iff he).mp hn
  rw [heffects] at heff hpaths
  refine (isUnused_iff hc).mpr ⟨eff, heff, hkeep, fun d hd m hpath hlooks => ?_⟩
  have hlooks' : e.LooksAt d m := by
    unfold LooksAt isVisible Graph.decl? at hlooks ⊢
    rwa [heffects, hgraph.module_eq, hgraph.nodes_eq]
  exact hpaths d hd m (hpath.mono hgraph.flows) hlooks'

/-- More flow is only more conservative. However many edges are drawn between the nodes of a
solved graph, its definitions can be followed anew with the same effects. Before and after every
node there are then all definitions that were there, and the nodes that are now unused or dead
were so before. -/
theorem solve_drawAll (hsolve : a.solve = (c, none)) (hnodes : a.graph.nodes ≠ [])
    {edges : List Flow}
    (hedges : ∀ f ∈ edges, f.1 < c.graph.nodes.length ∧ f.2 < c.graph.nodes.length) :
    ∃ e, ({ c with graph := c.graph.drawAll edges } : Analysis).solve = (e, none) ∧
      e.graph = c.graph.drawAll edges ∧ e.effects = c.effects ∧
      (∀ n < c.graph.nodes.length, ∃ r r', c.reach? n = some r ∧ e.reach? n = some r' ∧
        r.before ⊆ r'.before ∧ r.after ⊆ r'.after) ∧
      (∃ found found', c.unused = .ok found ∧ e.unused = .ok found' ∧ found'.Sublist found) ∧
      e.graph.dead.Sublist c.graph.dead := by
  obtain ⟨hgraph, hc⟩ := followed_of_solve hsolve
  rw [← hgraph] at hnodes
  have hwidens : c.graph.Widens (c.graph.drawAll edges) := Graph.widens_drawAll _ _
  have hinside : (c.graph.drawAll edges).FlowsInside := hc.inside.drawAll hedges
  have hnodes' : (c.graph.drawAll edges).nodes ≠ [] := hwidens.nodes_eq ▸ hnodes
  have hsize : (c.graph.drawAll edges).nodes.length ≤ c.effects.size :=
    hwidens.nodes_eq ▸ hc.size_le
  have hresolve := solve_of_sized (a := { c with graph := c.graph.drawAll edges })
    hinside hnodes' hsize
  have he := (followed_of_solve hresolve).2
  refine ⟨_, hresolve, rfl, rfl, fun n hn => ?_, ?_, hwidens.dead_sublist⟩
  · obtain ⟨r, hr, hbefore, hafter⟩ := hc.reach? hn
    have hn' : n < (c.graph.drawAll edges).nodes.length := hwidens.nodes_eq ▸ hn
    obtain ⟨r', hr', hbefore', hafter'⟩ := he.reach? hn'
    refine ⟨r, r', hr, hr', fun defn hdefn => ?_, fun defn hdefn => ?_⟩
    · exact (hbefore' defn).mpr (hwidens.reached ((hbefore defn).mp hdefn))
    · exact (hafter' defn).mpr (hwidens.outlives ((hafter defn).mp hdefn))
  · exact ⟨_, _, unused_of_followed hc hnodes, unused_of_followed he hnodes',
      hwidens.select_sublist fun n => isUnused_of_widens hc he hwidens rfl⟩

/-- A variable that is set before a jump and read behind it. -/
def skipping : Module :=
  ⟨"skipping", [⟨0, "x", .localVariable, .int, false⟩], [],
    ⟨0, [.simple 4 (.expr (.assign 3 (.name 1 "x" (some 0)) (.literal 2 (.int 1)))),
      .jump 5 (.return none), .jump 7 (.return (some (.name 6 "x" (some 0))))]⟩, []⟩

/-- The effects of the store and of the reader. -/
def skippingEffects : Array Effect :=
  #[.none, .none, ⟨[], [0], [], false, false⟩, ⟨[0], [], [], true, false⟩, .none]

/-- The store is unused and the reader dead, and an edge between them can only change that. -/
theorem solve_drawAll_skipping :
    (ofGraph (.ofModule skipping)).solve = (solved (.ofModule skipping) skippingEffects, none) ∧
    ∃ e found, ({ solved (.ofModule skipping) skippingEffects with
        graph := (Graph.ofModule skipping).drawAll [(2, 3)] } : Analysis).solve = (e, none) ∧
      e.unused = .ok found ∧ found.Sublist [2] ∧ e.graph.dead.Sublist [3] := by
  have heffects : (Graph.ofModule skipping).effects = .ok skippingEffects := by
    with_unfolding_all rfl
  have hinside : (Graph.ofModule skipping).FlowsInside := by
    unfold Graph.FlowsInside
    decide
  have hsolve := solve_ofGraph hinside heffects
  have hunused : (solved (.ofModule skipping) skippingEffects).unused = .ok [2] := by cbv
  have hdead : (Graph.ofModule skipping).dead = [3] := by cbv
  have hnodes : (Graph.ofModule skipping).nodes ≠ [] := by decide
  have hedges : ∀ f ∈ [((2, 3) : Flow)], f.1 < (Graph.ofModule skipping).nodes.length ∧
      f.2 < (Graph.ofModule skipping).nodes.length := by decide
  obtain ⟨e, he, -, -, -, ⟨found, found', hfound, hfound', hsub⟩, hless⟩ :=
    solve_drawAll hsolve hnodes hedges
  cases hunused.symm.trans hfound
  exact ⟨hsolve, e, found', he, hfound', hsub, hdead ▸ hless⟩

end Analysis

end ControlFlow
