import ControlFlow.Proofs.Graph.Intact
import ControlFlow.Proofs.Pruning.Doomed

/-! # Which nodes are unused

A node is unused exactly if it need not stay and no flow path takes a value that it makes to a node
that looks at it. The unused nodes of a graph are listed once each, in the order of their keys.
-/

namespace ControlFlow

open Reaching Search

/-! ## The order of nodes -/

namespace Key

theorem le_trans {a b c : Key} (hab : a.le b = true) (hbc : b.le c = true) : a.le c = true := by
  cases a <;> cases b <;> cases c <;> grind [le]

theorem le_total (a b : Key) : (a.le b || b.le a) = true := by
  cases a <;> cases b <;> grind [le]

theorem le_antisymm {a b : Key} (hab : a.le b = true) (hba : b.le a = true) : a = b := by
  cases a <;> cases b <;> grind [le]

end Key

namespace Graph

variable {g : Graph}

/-- The key of one node stands before that of another. -/
def Precedes (g : Graph) (m n : NodeId) : Prop :=
  ∃ p q, g.nodes[m]? = some p ∧ g.nodes[n]? = some q ∧ p.key.le q.key = true ∧ p.key ≠ q.key

theorem Precedes.ne {m n : NodeId} (h : g.Precedes m n) : m ≠ n := by
  rintro rfl
  obtain ⟨p, q, hp, hq, -, hne⟩ := h
  rw [hp] at hq
  cases hq
  exact hne rfl

/-- Where no two nodes have one key, all nodes are listed in the strict order of their keys. -/
theorem pairwise_sorted (hkeys : (g.nodes.map Point.key).Nodup) : g.sorted.Pairwise g.Precedes := by
  let below : Point × NodeId → Point × NodeId → Bool := fun a b => a.1.key.le b.1.key
  have hperm := List.mergeSort_perm g.nodes.zipIdx below
  have hle : (g.nodes.zipIdx.mergeSort below).Pairwise fun a b => below a b = true :=
    List.pairwise_mergeSort (fun a b c (hab : below a b = true) hbc => Key.le_trans hab hbc)
      (fun a b => Key.le_total a.1.key b.1.key) _
  have hne : (g.nodes.zipIdx.mergeSort below).Pairwise fun a b => a.1.key ≠ b.1.key := by
    have hmap : (g.nodes.zipIdx.map fun a => a.1.key) = g.nodes.map Point.key := by
      calc g.nodes.zipIdx.map (Point.key ∘ Prod.fst)
          _ = (g.nodes.zipIdx.map Prod.fst).map Point.key := List.map_map.symm
          _ = g.nodes.map Point.key := by rw [List.zipIdx_map_fst]
    rw [← List.pairwise_map (f := fun a : Point × NodeId => a.1.key)]
    exact (hperm.map _).nodup_iff.mpr (hmap ▸ hkeys)
  unfold sorted
  rw [List.pairwise_map]
  apply (hle.and hne).imp_of_mem
  rintro ⟨p, m⟩ ⟨q, n⟩ hp hq ⟨hpq, hdiff⟩
  have hnode {p : Point} {m : NodeId} (h : (p, m) ∈ g.nodes.zipIdx.mergeSort below) :
      g.nodes[m]? = some p :=
    List.mk_mem_zipIdx_iff_getElem?.mp (List.mem_mergeSort.mp h)
  exact ⟨p, q, hnode hp, hnode hq, hpq, hdiff⟩

end Graph

/-! ## Looking at values -/

namespace Analysis

variable {a c : Analysis} {d : DeclId} {n : NodeId}

/-- A node looks at the value of a variable: it reads the variable, or other code may read it there
or after the end. -/
def LooksAt (a : Analysis) (d : DeclId) (m : NodeId) : Prop :=
  (∃ r, a.effects[m]? = some r ∧ d ∈ r.uses) ∨
    (a.isVisible d = true ∧ ((∃ r, a.effects[m]? = some r ∧ r.escapes = true) ∨
      ∃ q, a.graph.nodes[m]? = some q ∧ q.isEnd = true))

theorem looksAt_iff {m : NodeId} : a.looksAt d (a.isVisible d) m = true ↔ a.LooksAt d m := by
  unfold looksAt LooksAt
  simp only [Bool.or_eq_true, Bool.and_eq_true, Option.any_eq_true, List.contains_iff_mem,
    and_or_left, exists_or, ← and_assoc, or_assoc]
  refine or_congr_right (or_congr_left ?_)
  constructor
  · rintro ⟨r, ⟨hr, hvisible⟩, hescapes⟩
    exact ⟨hvisible, r, hr, hescapes⟩
  · rintro ⟨hvisible, r, hr, hescapes⟩
    exact ⟨r, ⟨hr, hvisible⟩, hescapes⟩

/-- What it takes for definitions to be followed: nodes that all have effects, and flows between
them. -/
structure Followed (a : Analysis) : Prop where
  inside : a.graph.FlowsInside
  size_le : a.graph.nodes.length ≤ a.effects.size
  spans_eq : a.spans = some (Reaching.solve a.graph.flows a.effects)

theorem followed_of_solve (h : a.solve = (c, none)) : c.graph = a.graph ∧ c.Followed := by
  unfold Analysis.solve at h
  split at h
  next => cases h
  next b hb =>
    have hgraph : b.graph = a.graph := by
      split at hb
      next => exact (classify_ok hb).1
      next =>
        cases hb
        rfl
    split at h
    next => cases h
    next e he =>
      cases h
      unfold Analysis.follow at he
      dsimp only at he
      split at he
      next hinside =>
        split at he
        next hsize =>
          cases he
          refine ⟨hgraph, ⟨fun f hf => ?_, hsize, rfl⟩⟩
          simpa using List.all_eq_true.mp hinside f hf
        next => cases he
      next => cases he

theorem Followed.flows_lt (h : a.Followed) :
    ∀ f ∈ a.graph.flows, f.1 < a.effects.size ∧ f.2 < a.effects.size := by
  intro f hf
  obtain ⟨hsource, htarget⟩ := h.inside f hf
  exact ⟨hsource.trans_le h.size_le, htarget.trans_le h.size_le⟩

theorem Followed.lt_of_path (h : a.Followed) {via : NodeId → Bool} {m : NodeId}
    (hpath : Path a.graph.flows via n m) : m < a.graph.nodes.length := by
  cases hpath with
  | edge hflow => exact (h.inside _ hflow).2
  | step _ _ hflow => exact (h.inside _ hflow).2

/-- A definition is seen exactly if a path takes it to a node that looks at it. -/
theorem isSeen_spanOf (h : a.Followed) {defn : Definition} :
    a.isSeen (spanOf a.graph a.effects defn) = true ↔
      ∃ m, Path a.graph.flows (passes a.effects defn) defn.2 m ∧ a.LooksAt defn.1 m := by
  unfold isSeen
  simp only [List.any_eq_true, List.mem_range, Bool.and_eq_true]
  constructor
  · rintro ⟨m, hm, hreaches, hlooks⟩
    exact ⟨m, (reaches_spanOf h.flows_lt hm).mp hreaches, looksAt_iff.mp hlooks⟩
  · rintro ⟨m, hpath, hlooks⟩
    have hm : m < a.effects.size := (h.lt_of_path hpath).trans_le h.size_le
    exact ⟨m, hm, (reaches_spanOf h.flows_lt hm).mpr hpath, looksAt_iff.mpr hlooks⟩

/-- A node is unused exactly if it need not stay and no path takes a value of it to a node that
looks at it. -/
theorem isUnused_iff (h : a.Followed) : a.isUnused n = true ↔
    ∃ e, a.effects[n]? = some e ∧ e.keep = false ∧ ∀ d ∈ e.defines, ∀ m,
      Path a.graph.flows (passes a.effects (d, n)) n m → ¬ a.LooksAt d m := by
  unfold isUnused
  simp only [h.spans_eq, Option.getD_some, Bool.and_eq_true, Option.any_eq_true,
    Bool.not_eq_true', List.all_eq_true, Bool.or_eq_true, bne_iff_ne]
  constructor
  · rintro ⟨⟨e, he, hkeep⟩, hspans⟩
    refine ⟨e, he, hkeep, fun d hd m hpath hlooks => ?_⟩
    have hspan := hspans (spanOf a.graph a.effects (d, n))
      (mem_solve.mpr ⟨(d, n), definesAt_iff.mpr ⟨e, he, hd⟩, rfl⟩)
    have hseen : a.isSeen (spanOf a.graph a.effects (d, n)) = true :=
      (isSeen_spanOf h).mpr ⟨m, hpath, hlooks⟩
    rcases hspan with hother | hunseen
    · exact hother rfl
    · rw [hseen] at hunseen
      cases hunseen
  · rintro ⟨e, he, hkeep, hpaths⟩
    refine ⟨⟨e, he, hkeep⟩, fun s hs => ?_⟩
    obtain ⟨⟨d, k⟩, hmade, rfl⟩ := mem_solve.mp hs
    by_cases hk : k = n
    · subst hk
      obtain ⟨e', he', hd⟩ := definesAt_iff.mp hmade
      cases he.symm.trans he'
      refine .inr (Bool.eq_false_iff.mpr fun hseen => ?_)
      obtain ⟨m, hpath, hlooks⟩ := (isSeen_spanOf h).mp hseen
      exact hpaths d hd m hpath hlooks
    · exact .inl hk

/-- The unused nodes of an analysis can be listed. -/
theorem unused_of_followed (h : a.Followed) (hnodes : a.graph.nodes ≠ []) :
    a.unused = .ok (a.graph.select a.isUnused) := by
  have hpos : 0 < a.effects.size := (List.length_pos_iff.mpr hnodes).trans_le h.size_le
  have hempty : a.effects.isEmpty = false := by
    rw [Array.isEmpty]
    exact decide_eq_false (Nat.pos_iff_ne_zero.mp hpos)
  unfold unused
  simp [hempty, h.spans_eq, Nat.not_lt.mpr h.size_le]

/-- Once the definitions were followed in a graph, however it has grown, its unused nodes can be
listed, once each and in the strict order of their keys. They are exactly the nodes that are no
marks, need not stay, and make no value that a flow path, past no other node that sets the variable,
takes to a reader of the variable, or to other code or the end if other code may read the
variable. -/
theorem unused_lists_unseen {m : Module} {showsGlobals : Bool}
    (hgrown : Graph.Steps (fun _ => True) (fun _ => True) (Graph.empty m showsGlobals) a.graph)
    (hsolve : a.solve = (c, none)) :
    ∃ found, c.unused = .ok found ∧ found.Pairwise c.graph.Precedes ∧ found.Nodup ∧
      ∀ n, n ∈ found ↔ ∃ p e, c.graph.nodes[n]? = some p ∧ p.isMark = false ∧
        c.effects[n]? = some e ∧ e.keep = false ∧ ∀ d ∈ e.defines,
          (∀ k r, c.effects[k]? = some r → d ∈ r.uses →
            ¬ Path c.graph.flows (fun l => l = n || !definesAt c.effects d l) n k) ∧
          (c.isVisible d = true → ∀ k,
            ((∃ r, c.effects[k]? = some r ∧ r.escapes = true) ∨
              ∃ q, c.graph.nodes[k]? = some q ∧ q.isEnd = true) →
            ¬ Path c.graph.flows (fun l => l = n || !definesAt c.effects d l) n k) := by
  obtain ⟨hgraph, hfollowed⟩ := followed_of_solve hsolve
  rw [← hgraph] at hgrown
  have hkeys : (c.graph.nodes.map Point.key).Nodup :=
    ((Graph.intact_empty m showsGlobals).steps hgrown).keys
  have hnodes : c.graph.nodes ≠ [] :=
    List.ne_nil_of_length_pos (Nat.two_pos.trans_le (Graph.Steps.extends hgrown).length_le)
  have hpairwise : (c.graph.select c.isUnused).Pairwise c.graph.Precedes :=
    (Graph.pairwise_sorted hkeys).filter _
  refine ⟨_, unused_of_followed hfollowed hnodes, hpairwise,
    hpairwise.imp Graph.Precedes.ne, fun n => ?_⟩
  rw [Graph.mem_select, isUnused_iff hfollowed]
  constructor
  · rintro ⟨⟨p, hp, hmark⟩, e, he, hkeep, hpaths⟩
    refine ⟨p, e, hp, hmark, he, hkeep, fun d hd => ⟨?_, ?_⟩⟩
    · exact fun k r hr hreads hpath => hpaths d hd k hpath (.inl ⟨r, hr, hreads⟩)
    · exact fun hvisible k hleaves hpath => hpaths d hd k hpath (.inr ⟨hvisible, hleaves⟩)
  · rintro ⟨p, e, hp, hmark, he, hkeep, hpaths⟩
    refine ⟨⟨p, hp, hmark⟩, e, he, hkeep, fun d hd k hpath hlooks => ?_⟩
    rcases hlooks with ⟨r, hr, hreads⟩ | ⟨hvisible, hleaves⟩
    · exact (hpaths d hd).1 k r hr hreads hpath
    · exact (hpaths d hd).2 hvisible k hleaves hpath

/-- A number that is looked at by nobody, and a loop that counts up a variable which nothing else
reads. -/
def counting : Module :=
  let count := Expr.operator 7 "+" [.name 5 "x" (some 0), .literal 6 (.int 1)]
  let step := Stmt.simple 9 (.expr (.assign 8 (.name 4 "x" (some 0)) count))
  ⟨"counting", [⟨0, "x", .localVariable, .int, false⟩], [],
    ⟨0, [.simple 2 (.expr (.literal 1 (.int 1))),
      .while 10 (.literal 3 (.bool true)) ⟨11, [step]⟩ none]⟩, []⟩

/-- The effects in the loop. -/
def countingEffects : Array Effect :=
  #[.none, .none, .none, .keepIf true, ⟨[0], [0], [], false, false⟩]

/-- The number is unused, but not the step of the loop, which reads what it stored one round
before. -/
theorem unused_lists_unseen_counting :
    Graph.Steps (fun _ => True) (fun _ => True) (Graph.empty counting true)
      (Graph.ofModule counting) ∧
    (ofGraph (.ofModule counting)).solve = (solved (.ofModule counting) countingEffects, none) ∧
    ∃ found, (solved (.ofModule counting) countingEffects).unused = .ok found ∧
      2 ∈ found ∧ 4 ∉ found := by
  have hgrown := Graph.steps_ofModule counting
  have heffects : (Graph.ofModule counting).effects = .ok countingEffects := by
    with_unfolding_all rfl
  have hinside : (Graph.ofModule counting).FlowsInside := by
    unfold Graph.FlowsInside
    decide
  have hsolve := solve_ofGraph hinside heffects
  obtain ⟨found, hfound, -, -, hmem⟩ := unused_lists_unseen hgrown hsolve
  refine ⟨hgrown, hsolve, found, hfound, ?_, fun hstep => ?_⟩
  · refine (hmem 2).mpr ⟨_, .none, rfl, rfl, rfl, rfl, fun d hd => ?_⟩
    cases hd
  · obtain ⟨p, e, -, -, he, -, hpaths⟩ := (hmem 4).mp hstep
    cases he
    have hround : Path (Graph.ofModule counting).flows
        (fun l => l = 4 || !definesAt countingEffects 0 l) 4 4 :=
      .step (.edge (m := 3) (by decide)) (by decide) (by decide)
    exact (hpaths 0 List.mem_cons_self).1 4 _ rfl List.mem_cons_self hround

end Analysis

end ControlFlow
