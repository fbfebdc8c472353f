import ControlFlow.Proofs.Analysis.Classified
import ControlFlow.Proofs.Reaching.Exact

/-! # What a solved analysis answers

An analysis that follows its definitions answers exactly what the sweeps leave at every node, and
following them again changes nothing.
-/

namespace ControlFlow

open Search (Path)

theorem Search.size_explore {next : Nat → List Nat} {pool : Array Bool} {pending : List Nat} :
    (explore next pool pending).size = pool.size := by
  fun_induction explore next pool pending with
  | case1 pool => rfl
  | case2 pool x pending _ ih =>
      rw [ih]
      exact Array.size_setIfInBounds
  | case3 pool x pending _ ih => exact ih

namespace Reaching

variable {g : Graph} {effects : Array Effect}

/-- A definition with the nodes that the search along paths finds for it. -/
def spanOf (g : Graph) (effects : Array Effect) (defn : Definition) : Span :=
  ⟨defn, Search.missed (Search.targetTable effects.size g.flows) (passes effects defn) defn.2⟩

theorem mem_solve {s : Span} : s ∈ solve g.flows effects ↔
    ∃ defn, definesAt effects defn.1 defn.2 = true ∧ s = spanOf g effects defn := by
  simp only [solve, List.mem_map, mem_definitions, eq_comm]
  rfl

theorem reaches_spanOf (hinside : ∀ f ∈ g.flows, f.1 < effects.size ∧ f.2 < effects.size)
    {defn : Definition} {n : NodeId} (hn : n < effects.size) :
    (spanOf g effects defn).reaches n = true ↔ Path g.flows (passes effects defn) defn.2 n := by
  have hsize : (spanOf g effects defn).missed.size = effects.size := by
    rw [spanOf, Search.missed, Search.size_explore, Array.size_replicate, Search.size_targetTable]
  -- The marks are read with another default here, which plays no part inside the table.
  have hdefault : (spanOf g effects defn).missed.getD n true =
      (spanOf g effects defn).missed.getD n false := by
    simp [Array.getD_eq_getD_getElem?, hsize, hn]
  have hmissed := @Search.getD_missed effects.size g.flows hinside (passes effects defn) defn.2 n
  rw [Span.reaches, hdefault, Bool.not_eq_true', Bool.eq_false_iff, ne_eq, spanOf, hmissed]
  simp [hn]

theorem mem_before_reachOf (hinside : ∀ f ∈ g.flows, f.1 < effects.size ∧ f.2 < effects.size)
    {defn : Definition} {n : NodeId} (hn : n < effects.size) :
    defn ∈ (reachOf effects (solve g.flows effects) n).before ↔ Reached g effects defn n := by
  simp only [reachOf, List.mem_map, List.mem_filter, mem_solve]
  constructor
  · rintro ⟨s, ⟨⟨defn', hmade, rfl⟩, hreaches⟩, rfl⟩
    exact ⟨hmade, (reaches_spanOf hinside hn).mp hreaches⟩
  · intro h
    exact ⟨spanOf g effects defn,
      ⟨⟨defn, h.1, rfl⟩, (reaches_spanOf hinside hn).mpr h.2⟩, rfl⟩

theorem mem_after_reachOf (hinside : ∀ f ∈ g.flows, f.1 < effects.size ∧ f.2 < effects.size)
    {defn : Definition} {n : NodeId} (hn : n < effects.size) :
    defn ∈ (reachOf effects (solve g.flows effects) n).after ↔ Outlives g effects defn n := by
  simp only [reachOf, List.mem_map, List.mem_filter, mem_solve, Bool.or_eq_true,
    Bool.and_eq_true, decide_eq_true_eq, Bool.not_eq_true']
  constructor
  · rintro ⟨s, ⟨⟨defn', hmade, rfl⟩, hthere⟩, rfl⟩
    rcases hthere with rfl | ⟨hreaches, hnot⟩
    · exact .inl ⟨rfl, hmade⟩
    · have hpass : passes effects defn' n = true := by
        simp only [passes, Bool.or_eq_true, Bool.not_eq_true']
        exact .inr hnot
      exact .inr ⟨⟨hmade, (reaches_spanOf hinside hn).mp hreaches⟩, hpass⟩
  · rintro (⟨rfl, hmade⟩ | ⟨hreached, hpass⟩)
    · exact ⟨spanOf g effects defn, ⟨⟨defn, hmade, rfl⟩, .inl rfl⟩, rfl⟩
    · refine ⟨spanOf g effects defn, ⟨⟨defn, hreached.1, rfl⟩, ?_⟩, rfl⟩
      simp only [passes, Bool.or_eq_true, beq_iff_eq, Bool.not_eq_true'] at hpass
      rcases hpass with rfl | hnot
      · exact .inl rfl
      · exact .inr ⟨(reaches_spanOf hinside hn).mpr hreached.2, hnot⟩

end Reaching

namespace Analysis

open Reaching

variable {a b : Analysis}

theorem classify_ok (h : a.classify = .ok b) :
    b.graph = a.graph ∧ b.graph.effects = .ok b.effects ∧ b.spans = none := by
  unfold Analysis.classify at h
  cases heffects : a.graph.effects with
  | error why =>
      rw [heffects] at h
      cases h
  | ok effects =>
      rw [heffects] at h
      cases h
      exact ⟨rfl, heffects, rfl⟩

/-- Definitions can be followed in every graph whose nodes all have effects and whose flows stay
inside it. -/
theorem follow_ok (hinside : a.graph.FlowsInside) (hsize : a.graph.nodes.length ≤ a.effects.size) :
    a.follow = .ok { a with spans := some (Reaching.solve a.graph.flows a.effects) } := by
  have hall : (a.graph.flows.all fun f =>
      decide (f.1 < a.graph.nodes.length) && decide (f.2 < a.graph.nodes.length)) = true := by
    simp only [List.all_eq_true, Bool.and_eq_true, decide_eq_true_eq]
    exact hinside
  unfold Analysis.follow
  simp only [hall, if_true, hsize]

theorem solve_of_classified (hinside : a.graph.FlowsInside)
    (heffects : a.graph.effects = .ok a.effects) :
    a.solve = ({ a with spans := some (Reaching.solve a.graph.flows a.effects) }, none) := by
  have hsize := (Graph.classifies_effects heffects).size_eq.ge
  unfold Analysis.solve
  split
  next why hwhy =>
    split at hwhy
    · simp [Analysis.classify, heffects, bind, Except.bind] at hwhy
      cases hwhy
    · cases hwhy
  next c hc =>
    -- Effects that are found anew are the ones that were there.
    have hc : c.graph = a.graph ∧ c.effects = a.effects := by
      split at hc
      · rw [Analysis.classify, heffects] at hc
        cases hc
        exact ⟨rfl, rfl⟩
      · cases hc
        exact ⟨rfl, rfl⟩
    rw [follow_ok (by rw [hc.1]; exact hinside) (by rw [hc.1, hc.2]; exact hsize)]
    simp only [hc.1, hc.2]

/-- The definitions that a solved analysis answers at a node. -/
theorem reach?_of_solved (hinside : a.graph.FlowsInside)
    (hsize : a.graph.nodes.length ≤ a.effects.size)
    (hspans : a.spans = some (Reaching.solve a.graph.flows a.effects)) {n : NodeId}
    (hn : n < a.graph.nodes.length) :
    ∃ r, a.reach? n = some r ∧
      (∀ defn, defn ∈ r.before ↔ Reached a.graph a.effects defn n) ∧
      (∀ defn, defn ∈ r.after ↔ Outlives a.graph a.effects defn n) := by
  have hinside' : ∀ f ∈ a.graph.flows, f.1 < a.effects.size ∧ f.2 < a.effects.size := fun f hf =>
    ⟨(hinside f hf).1.trans_le hsize, (hinside f hf).2.trans_le hsize⟩
  have hn' : n < a.effects.size := hn.trans_le hsize
  refine ⟨reachOf a.effects (Reaching.solve a.graph.flows a.effects) n, ?_, ?_, ?_⟩
  · simp [Analysis.reach?, hn', hspans]
  · exact fun defn => mem_before_reachOf hinside' hn'
  · exact fun defn => mem_after_reachOf hinside' hn'

/-- On every graph that can be classified, and whose flows lead between its nodes, the sweeps
settle, in one way only. The sets that they leave are what the solved analysis answers, hold
exactly the definitions that paths bring, and are the least solution of the equations of the
analysis; solving once more changes nothing. -/
theorem sweeps_settle_exactly (hinside : a.graph.FlowsInside) (hclass : a.classify = .ok b) :
    ∃ sets c, Settles b.graph b.effects .empty sets ∧
      (∀ other, Settles b.graph b.effects .empty other → other = sets) ∧
      b.solve = (c, none) ∧ c.solve = (c, none) ∧
      (∀ m < b.graph.nodes.length, ∃ r, c.reach? m = some r ∧
        (∀ defn, defn ∈ r.before ↔ defn ∈ sets.before m) ∧
        (∀ defn, defn ∈ r.after ↔ defn ∈ sets.after m)) ∧
      (∀ d n, ∀ m < b.graph.nodes.length,
        ((d, n) ∈ sets.before m ↔ definesAt b.effects d n = true ∧
          Path b.graph.flows (fun l => l = n || !definesAt b.effects d l) n m) ∧
        ((d, n) ∈ sets.after m ↔ (m = n ∧ definesAt b.effects d n = true) ∨
          ((d, n) ∈ sets.before m ∧ (definesAt b.effects d m = true → m = n)))) ∧
      Solution b.graph b.effects sets ∧
      ∀ other, Solution b.graph b.effects other → ∀ m < b.graph.nodes.length,
        sets.before m ⊆ other.before m ∧ sets.after m ⊆ other.after m := by
  obtain ⟨hgraph, heffects, -⟩ := classify_ok hclass
  have hinside : b.graph.FlowsInside := hgraph ▸ hinside
  have hsize := (Graph.classifies_effects heffects).size_eq.ge
  obtain ⟨sets, hsets⟩ := exists_settles (g := b.graph) (onlyMade_empty : OnlyMade b.effects .empty)
  have hsolve := solve_of_classified hinside heffects
  refine ⟨sets, _, hsets, fun other hother => hother.unique hsets, hsolve, ?_, ?_, ?_,
    hsets.solution, fun other hother => hsets.least hinside hother⟩
  · exact solve_of_classified (a := { b with spans := _ }) hinside heffects
  · intro m hm
    obtain ⟨r, hr, hbefore, hafter⟩ := reach?_of_solved
      (a := { b with spans := some (Reaching.solve b.graph.flows b.effects) })
      hinside hsize rfl hm
    exact ⟨r, hr, fun defn => (hbefore defn).trans (hsets.mem_before hinside).symm,
      fun defn => (hafter defn).trans (hsets.mem_after hinside hm).symm⟩
  · intro d n m hm
    refine ⟨hsets.mem_before hinside, (hsets.mem_after hinside hm).trans ?_⟩
    rw [hsets.mem_before hinside]
    refine or_congr ?_ (and_congr_right fun _ => ?_)
    · constructor
      · rintro ⟨rfl, hmade⟩
        exact ⟨rfl, hmade⟩
      · rintro ⟨rfl, hmade⟩
        exact ⟨rfl, hmade⟩
    · by_cases hmn : m = n <;> by_cases hd : definesAt b.effects d m = true <;>
        simp [passes, hmn, hd]

/-- Two nodes that set one variable in turn; the first also leads back to itself, and the second
to the end. -/
def ring : Graph where
  module := ⟨"ring", [], [], ⟨0, []⟩, []⟩
  showsGlobals := false
  nodes := [.mark .start 0, .mark .finish 1, .loopVar ⟨1, 0, "x", .int⟩, .loopVar ⟨2, 0, "x", .int⟩]
  edges := [(0, 2), (2, 3), (3, 2)]
  implicit := [(2, 2), (3, 1)]
  owners := []
  marks := 2

/-- The effects in the ring. -/
def ringEffects : Array Effect :=
  #[.none, .none, .define 0, .define 0]

/-- In a ring the first setter reaches itself, and the second one the end. -/
theorem sweeps_settle_on_ring : ring.FlowsInside ∧
    (ofGraph ring).classify = .ok ⟨ring, ringEffects, none⟩ ∧
    ∃ sets, Settles ring ringEffects .empty sets ∧
      (0, 2) ∈ sets.before 2 ∧ (0, 3) ∈ sets.before 1 := by
  have hinside : ring.FlowsInside := by
    unfold Graph.FlowsInside
    decide
  have hclass : (ofGraph ring).classify = .ok ⟨ring, ringEffects, none⟩ := by
    with_unfolding_all rfl
  obtain ⟨sets, c, hsets, -, -, -, -, hpaths, -, -⟩ :=
    sweeps_settle_exactly (a := ofGraph ring) hinside hclass
  refine ⟨hinside, hclass, sets, hsets, ?_, ?_⟩
  · exact (hpaths 0 2 2 (by decide)).1.mpr ⟨by decide, .edge (by decide)⟩
  · exact (hpaths 0 3 1 (by decide)).1.mpr ⟨by decide, .edge (by decide)⟩

end Analysis

end ControlFlow
