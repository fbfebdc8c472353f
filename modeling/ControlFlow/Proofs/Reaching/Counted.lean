import ControlFlow.Proofs.Reaching.Observed
import Mathlib.Algebra.GroupWithZero.Nat

/-! # Counting the uses of values

The tally of a node is the number of places where a value that it makes leaves the body and other
code may read it, together with the number of nodes that read one. It is zero exactly if no node
looks at a value of the node, so that the nodes that were never counted are the unused ones.
-/

namespace ControlFlow.Analysis

open Reaching

variable {a : Analysis} {n : NodeId}

namespace Tally

theorem getElem?_add (t : Tally) (m : NodeId) (count : Nat) :
    (t.add m count)[n]? = if m = n then some (t.getD n 0 + count) else t[n]? := by
  rw [add, Std.TreeMap.getElem?_insert]
  by_cases h : m = n
  · simp [h]
  · simp [h]

@[simp]
theorem getD_add (t : Tally) (m : NodeId) (count : Nat) :
    (t.add m count).getD n 0 = t.getD n 0 + if m = n then count else 0 := by
  rw [Std.TreeMap.getD_eq_getD_getElem?, getElem?_add]
  split
  · rfl
  · rw [← Std.TreeMap.getD_eq_getD_getElem?, Nat.add_zero]

end Tally

/-! ## What is counted -/

theorem getD_tallyOut (a : Analysis) (ds : List Definition) (t : Tally) (n : NodeId) :
    (ds.foldl a.tallyOut t).getD n 0 =
      t.getD n 0 + ds.countP fun d => a.isVisible d.1 && d.2 == n := by
  induction ds generalizing t with
  | nil => rfl
  | cons d rest ih =>
      rw [List.foldl_cons, ih, List.countP_cons, tallyOut]
      by_cases hvisible : a.isVisible d.1 = true
      · by_cases hn : d.2 = n <;> simp [hvisible, hn]; omega
      · simp [hvisible]

/-- What leaves the body at some nodes is counted there. -/
theorem getD_tallyLeaving (a : Analysis) (ks : List NodeId) (t : Tally) (n : NodeId) :
    (ks.foldl (fun t k => if a.letsOut k then (a.before k).foldl a.tallyOut t else t) t).getD n 0 =
      t.getD n 0 + (ks.map fun k => if a.letsOut k then
        (a.before k).countP fun d => a.isVisible d.1 && d.2 == n else 0).sum := by
  induction ks generalizing t with
  | nil => rfl
  | cons k rest ih =>
      rw [List.foldl_cons, ih, List.map_cons, List.sum_cons, ← Nat.add_assoc]
      congr 1
      split
      · exact getD_tallyOut a _ t n
      · rfl

/-- Each node of the tree is counted once, with all readers of its values. -/
theorem getElem?_tallyReads (a : Analysis) (ks : List NodeId) (hks : ks.Nodup) (t : Tally)
    (n : NodeId) :
    (ks.foldl (fun t k =>
      if a.graph.nodes[k]?.any Point.isMark then t else t.add k (a.ownReaders k)) t)[n]? =
      if n ∈ ks ∧ a.graph.nodes[n]?.any Point.isMark = false then
        some (t.getD n 0 + a.ownReaders n) else t[n]? := by
  induction ks generalizing t with
  | nil => simp
  | cons k rest ih =>
      obtain ⟨hk, hrest⟩ := List.nodup_cons.mp hks
      rw [List.foldl_cons, ih hrest]
      by_cases hmark : a.graph.nodes[k]?.any Point.isMark = true
      · rw [if_pos hmark]
        by_cases hn : n = k
        · subst hn
          simp [hk, hmark]
        · simp [hn]
      · rw [if_neg hmark, Tally.getD_add, Tally.getElem?_add]
        by_cases hn : n = k
        · subst hn
          simp [hk, hmark]
        · simp [hn, Ne.symm hn]

/-- How often the values of a node of the tree are seen. -/
def seenCount (a : Analysis) (n : NodeId) : Nat :=
  ((List.range a.graph.nodes.length).map fun k => if a.letsOut k then
    (a.before k).countP fun d => a.isVisible d.1 && d.2 == n else 0).sum + a.ownReaders n

/-- Every node of the tree has its count in the end. -/
theorem getElem?_tally (a : Analysis) {p : Point} (hp : a.graph.nodes[n]? = some p)
    (hmark : p.isMark = false) : (a.tallyReads a.tallyLeaving)[n]? = some (a.seenCount n) := by
  have hrange : n ∈ List.range a.graph.nodes.length :=
    List.mem_range.mpr (List.getElem?_eq_some_iff.mp hp).1
  have hfree : a.graph.nodes[n]?.any Point.isMark = false := by simp [hp, hmark]
  have hleaving : a.tallyLeaving.getD n 0 = _ := getD_tallyLeaving a _ ∅ n
  rw [tallyReads, getElem?_tallyReads a _ List.nodup_range, if_pos ⟨hrange, hfree⟩, hleaving,
    Std.TreeMap.getD_emptyc, Nat.zero_add, seenCount]

/-! ## What is never counted -/

/-- An analysis as it is once the definitions were followed, in a graph that may have grown since:
the nodes have one key each, and all of them have effects. -/
structure Tallied (a : Analysis) : Prop where
  nodup_keys : (a.graph.nodes.map Point.key).Nodup
  size_eq : a.effects.size = a.graph.nodes.length
  spans_eq : ∃ g : Graph, a.spans = some (Reaching.solve g.flows a.effects)

theorem mem_before {spans : List Span} (h : a.spans = some spans) {d : Definition} {k : NodeId} :
    d ∈ a.before k ↔ k < a.effects.size ∧ ∃ s ∈ spans, s.reaches k = true ∧ s.defn = d := by
  unfold before reach?
  rw [h]
  split
  next hk => simp [reachOf, hk, and_assoc]
  next hk => simp [hk]

theorem ownReaders_eq_sum (a : Analysis) (n : NodeId) : a.ownReaders n =
    (((a.effects[n]?.map Effect.defines).getD []).map fun d => a.readers (d, n)).sum := by
  rw [ownReaders, List.sum_eq_foldl, List.foldl_map]

/-- Nobody reads the values of a node exactly if none of them is there before a node that names its
variable. -/
theorem ownReaders_eq_zero_iff : a.ownReaders n = 0 ↔
    ∀ e, a.effects[n]? = some e → ∀ d ∈ e.defines, ∀ (k : NodeId) (r : Effect),
      a.effects[k]? = some r → d ∈ r.uses → (d, n) ∉ a.before k := by
  have hreaders (d : DeclId) : a.readers (d, n) = 0 ↔ ∀ (k : NodeId) (r : Effect),
      a.effects[k]? = some r → d ∈ r.uses → (d, n) ∉ a.before k := by
    simp only [readers, List.countP_eq_zero, List.mem_range, Bool.and_eq_true, Option.any_eq_true,
      List.contains_iff_mem]
    constructor
    · exact fun h k r hr hd hbefore =>
        h k (Array.getElem?_eq_some_iff.mp hr).1 ⟨⟨r, hr, hd⟩, hbefore⟩
    · rintro h k - ⟨⟨r, hr, hd⟩, hbefore⟩
      exact h k r hr hd hbefore
  rw [ownReaders_eq_sum, List.sum_eq_zero_iff_forall_eq_nat]
  simp only [List.forall_mem_map, hreaders]
  cases a.effects[n]? with
  | none => simp
  | some e => simp

/-- The count of a node is zero exactly if no node looks at a value of it. -/
theorem Tallied.seenCount_eq_zero_iff (h : a.Tallied) (n : NodeId) :
    a.seenCount n = 0 ↔ ∀ s ∈ a.spans.getD [], s.defn.2 = n → a.isSeen s = false := by
  obtain ⟨g, hspans⟩ := h.spans_eq
  have hleaving (k : NodeId) : (if a.letsOut k then
      (a.before k).countP fun d => a.isVisible d.1 && d.2 == n else 0) = 0 ↔
      (a.letsOut k = true → ∀ d ∈ a.before k, d.2 = n → a.isVisible d.1 = false) := by
    split
    next hout => simp [List.countP_eq_zero, hout]; grind
    next hin => simp [hin]
  rw [seenCount, Nat.add_eq_zero_iff, List.sum_eq_zero_iff_forall_eq_nat, ownReaders_eq_zero_iff]
  simp only [List.forall_mem_map, List.mem_range, hleaving, hspans, Option.getD_some]
  constructor
  · -- A definition that is seen was counted where it is seen.
    rintro ⟨hnone, hunread⟩ s hs rfl
    obtain ⟨defn, hmade, rfl⟩ := mem_solve.mp hs
    obtain ⟨e, he, hd⟩ := definesAt_iff.mp hmade
    refine Bool.eq_false_iff.mpr fun hseen => ?_
    simp only [isSeen, List.any_eq_true, List.mem_range, Bool.and_eq_true] at hseen
    obtain ⟨k, hk, hreaches, hlooks⟩ := hseen
    have hbefore : defn ∈ a.before k := (mem_before hspans).mpr ⟨hk, _, hs, hreaches, rfl⟩
    rcases looksAt_iff.mp hlooks with ⟨r, hr, hreads⟩ | ⟨hvisible, hout⟩
    · exact hunread e he _ hd k r hr hreads hbefore
    · have hletsOut : a.letsOut k = true := by
        simp only [letsOut, Bool.or_eq_true, Option.any_eq_true]
        exact hout
      have hhidden := hnone k (h.size_eq ▸ hk) hletsOut defn hbefore rfl
      exact Bool.false_ne_true (hhidden.symm.trans hvisible)
  · intro hunseen
    have hseen {k : NodeId} {d : Definition} (hd : d ∈ a.before k) (hn : d.2 = n)
        (hlooks : a.LooksAt d.1 k) : False := by
      obtain ⟨hk, s, hs, hreaches, rfl⟩ := (mem_before hspans).mp hd
      have hfalse := hunseen s hs hn
      simp only [isSeen, List.any_eq_false, List.mem_range, Bool.and_eq_true, not_and] at hfalse
      exact hfalse k hk hreaches (looksAt_iff.mpr hlooks)
    refine ⟨fun k _ hout d hd hn => Bool.eq_false_iff.mpr fun hvisible => ?_,
      fun e he d hd k r hr hreads hbefore => ?_⟩
    · simp only [letsOut, Bool.or_eq_true, Option.any_eq_true] at hout
      exact hseen hd hn (.inr ⟨hvisible, hout⟩)
    · exact hseen hbefore rfl (.inl ⟨r, hr, hreads⟩)

/-! ## The list of nodes -/

/-- Nodes without repetition are sorted in the strict order of their keys. -/
theorem pairwise_sortByKey {g : Graph} (hkeys : (g.nodes.map Point.key).Nodup) {ns : List NodeId}
    (hns : ns.Nodup) (hinside : ∀ n ∈ ns, ∃ p, g.nodes[n]? = some p) :
    (g.sortByKey ns).Pairwise g.Precedes := by
  let key (n : NodeId) : Key := (g.nodes[n]?.map Point.key).getD (.mark n)
  have hle : (g.sortByKey ns).Pairwise fun m n => (key m).le (key n) = true :=
    List.pairwise_mergeSort (fun l m n (hlm : (key l).le (key m) = true) hmn =>
      Key.le_trans hlm hmn) (fun m n => Key.le_total (key m) (key n)) ns
  have hne : (g.sortByKey ns).Pairwise (· ≠ ·) :=
    (List.mergeSort_perm ns _).nodup_iff.mpr hns
  apply (hle.and hne).imp_of_mem
  rintro m n hm hn ⟨hmn, hdiff⟩
  obtain ⟨p, hp⟩ := hinside m (List.mem_mergeSort.mp hm)
  obtain ⟨q, hq⟩ := hinside n (List.mem_mergeSort.mp hn)
  simp only [key, hp, hq, Option.map_some, Option.getD_some] at hmn
  refine ⟨p, q, hp, hq, hmn, fun hkey => hdiff ?_⟩
  have hfound := Graph.find?_of_getElem? hkeys hp
  rw [hkey, Graph.find?_of_getElem? hkeys hq] at hfound
  exact (Option.some.inj hfound).symm

theorem precedes_asymm {g : Graph} {m n : NodeId} (h : g.Precedes m n) : ¬ g.Precedes n m := by
  rintro ⟨q, p, hq, hp, hle, -⟩
  obtain ⟨p', q', hp', hq', hle', hne⟩ := h
  cases hp.symm.trans hp'
  cases hq.symm.trans hq'
  exact hne (Key.le_antisymm hle' hle)

/-- A node is unused exactly if it need not stay and its count is zero. -/
theorem Tallied.isUnused_iff_seenCount (h : a.Tallied) : a.isUnused n = true ↔
    (a.effects[n]?.any fun e => !e.keep) = true ∧ a.seenCount n = 0 := by
  rw [h.seenCount_eq_zero_iff, isUnused, Bool.and_eq_true]
  refine and_congr_right fun _ => ?_
  simp only [List.all_eq_true, Bool.or_eq_true, bne_iff_ne, Bool.not_eq_true', imp_iff_not_or]

/-- Where the definitions were followed, counting finds the unused nodes. -/
theorem Tallied.uncounted_eq_unused (h : a.Tallied) : a.uncounted = a.unused := by
  unfold uncounted unused
  split
  · rfl
  split
  · rfl
  let tally := a.tallyReads a.tallyLeaving
  let found := (tally.toList.filter fun c => c.2 == 0 &&
    (a.graph.nodes[c.1]?.any fun p => !p.isMark) && (a.effects[c.1]?.any fun e => !e.keep)).map
      Prod.fst
  refine congrArg Except.ok (?_ : a.graph.sortByKey found = a.graph.select a.isUnused)
  have hmem (n : NodeId) : n ∈ found ↔ n ∈ a.graph.select a.isUnused := by
    rw [Graph.mem_select]
    rw [h.isUnused_iff_seenCount]
    simp only [found, List.mem_map, List.mem_filter, Prod.exists, exists_and_right,
      exists_eq_right, Std.TreeMap.mem_toList_iff_getElem?_eq_some, Bool.and_eq_true, beq_iff_eq]
    constructor
    · rintro ⟨count, hcount, ⟨rfl, hany⟩, hkeep⟩
      obtain ⟨p, hp, hmark⟩ := Option.any_eq_true _ _ |>.mp hany
      rw [Bool.not_eq_true'] at hmark
      rw [a.getElem?_tally hp hmark] at hcount
      exact ⟨⟨p, hp, hmark⟩, hkeep, Option.some.inj hcount⟩
    · rintro ⟨⟨p, hp, hmark⟩, hkeep, hcount⟩
      exact ⟨0, hcount ▸ a.getElem?_tally hp hmark, ⟨rfl, by simp [hp, hmark]⟩, hkeep⟩
  have hnodup : found.Nodup := by
    have hkeys := Std.TreeMap.nodup_keys (t := tally)
    rw [← Std.TreeMap.map_fst_toList_eq_keys] at hkeys
    exact hkeys.sublist (List.filter_sublist.map _)
  have hinside (n : NodeId) (hn : n ∈ found) : ∃ p, a.graph.nodes[n]? = some p := by
    obtain ⟨⟨p, hp, -⟩, -⟩ := Graph.mem_select.mp ((hmem n).mp hn)
    exact ⟨p, hp⟩
  have hsorted := pairwise_sortByKey h.nodup_keys hnodup hinside
  have hselected : (a.graph.select a.isUnused).Pairwise a.graph.Precedes :=
    (Graph.pairwise_sorted h.nodup_keys).filter _
  refine List.Perm.eq_of_pairwise (fun m n _ _ hmn hnm => (precedes_asymm hmn hnm).elim)
    hsorted hselected ?_
  refine (List.perm_ext_iff_of_nodup (hsorted.imp Graph.Precedes.ne)
    (hselected.imp Graph.Precedes.ne)).mpr fun n => ?_
  rw [← hmem]
  exact List.mem_mergeSort

/-- So it is once the definitions were followed in a graph whose nodes have one key each. -/
theorem tallied_solved {g : Graph} {effects : Array Effect}
    (hkeys : (g.nodes.map Point.key).Nodup) (heffects : g.effects = .ok effects) :
    (solved g effects).Tallied :=
  ⟨hkeys, (Graph.classifies_effects heffects).size_eq, g, rfl⟩

end ControlFlow.Analysis
