import ControlFlow.Proofs.Pruning.Survival
import Mathlib.Data.Nat.Nth
import Mathlib.Order.Monotone.Basic

/-! # Only the order of numbers counts

The numbers of a tree tell its nodes apart and put them in order, and nothing else depends on them.
A map of the numbers of a module that keeps their order need not be a part of one that keeps the
order of all numbers: it may close gaps. But the module and what the map makes of it are both made
of the module in which each number is replaced by its rank, by maps that keep the order of all
numbers.
-/

namespace ControlFlow

/-! ## Ranks -/

namespace Ranks

/-- The numbers of a list, and all numbers above a bound. -/
def Kept (xs : List Nat) (bound n : Nat) : Prop := n ∈ xs ∨ bound < n

instance (xs : List Nat) (bound : Nat) : DecidablePred (Kept xs bound) :=
  fun n => inferInstanceAs (Decidable (n ∈ xs ∨ bound < n))

/-- A map on the numbers of a list, continued above a bound. -/
def continued (f : Nat → Nat) (xs : List Nat) (bound n : Nat) : Nat :=
  if n ∈ xs then f n else bound + 1 + n

variable {xs : List Nat} {f : Nat → Nat} {bound bound' : Nat}

theorem infinite_kept (xs : List Nat) (bound : Nat) : (Set.ofPred (Kept xs bound)).Infinite := by
  refine Set.infinite_of_forall_exists_gt fun n => ⟨max n bound + 1, .inr ?_, ?_⟩
  · omega
  · omega

theorem continued_lt (hf : StrictMonoOn f {n | n ∈ xs}) (hbound : ∀ n ∈ xs, n ≤ bound)
    (hbound' : ∀ n ∈ xs, f n ≤ bound') {n k : Nat} (hn : Kept xs bound n) (hlt : n < k) :
    continued f xs bound' n < continued f xs bound' k := by
  unfold continued
  by_cases hnx : n ∈ xs
  · have hfn := hbound' n hnx
    rw [if_pos hnx]
    split
    next hkx => exact hf hnx hkx hlt
    next => omega
  · have hn := hn.resolve_left hnx
    have hkx : k ∉ xs := fun hkx => by
      have hk := hbound k hkx
      omega
    rw [if_neg hnx, if_neg hkx]
    omega

/-- A map that keeps the order of some numbers goes from their ranks, and so does the way back to
the numbers themselves, by maps that keep the order of all numbers. -/
theorem exists_maps (hf : StrictMonoOn f {n | n ∈ xs}) : ∃ rank back forth : Nat → Nat,
    StrictMono back ∧ StrictMono forth ∧ ∀ n ∈ xs, back (rank n) = n ∧ forth (rank n) = f n := by
  obtain ⟨bound, hbound⟩ := (List.finite_toSet xs).bddAbove
  obtain ⟨bound', hbound'⟩ := (List.finite_toSet (xs.map f)).bddAbove
  have hinf := infinite_kept xs bound
  have hback := Nat.nth_strictMono hinf
  refine ⟨Nat.count (Kept xs bound), Nat.nth (Kept xs bound),
    continued f xs bound' ∘ Nat.nth (Kept xs bound), hback, fun i j hij => ?_, fun n hn => ?_⟩
  · exact continued_lt hf (fun n hn => hbound hn)
      (fun n hn => hbound' (List.mem_map_of_mem hn)) (Nat.nth_mem_of_infinite hinf i) (hback hij)
  · have hnth : Nat.nth (Kept xs bound) (Nat.count (Kept xs bound) n) = n :=
      Nat.nth_count (.inl hn)
    exact ⟨hnth, by rw [Function.comp_apply, hnth, continued, if_pos hn]⟩

end Ranks

variable {f r h : TreeId → TreeId} {m : Module}

/-! ## Regions -/

/-- A part of a module that has a flow graph. -/
inductive Region where
  /-- The top-level code. -/
  | top
  | function (fn : Function)
  | block (b : Block)

namespace Region

variable {s : Region}

/-- Whether a module has the part. -/
def In (m : Module) : Region → Prop
  | top => True
  | function fn => fn ∈ m.functions
  | block b => b ∈ m.blocks

def graph (m : Module) : Region → Graph
  | top => .ofModule m
  | function fn => .ofFunction m fn
  | block b => .ofBlock m b

/-- A part with the numbers of all its nodes replaced. -/
def renumber (f : TreeId → TreeId) : Region → Region
  | top => top
  | function fn => function (fn.renumber f)
  | block b => block (b.renumber f)

theorem module_graph (m : Module) (s : Region) : (s.graph m).module = m := by
  cases s with
  | top => exact Graph.ofModule_module m
  | function fn => exact Graph.ofBlock_module m fn.body
  | block b => exact Graph.ofBlock_module m b

theorem graph_renumber (hf : Function.Injective f) (m : Module) (s : Region) :
    (s.renumber f).graph (m.renumber f) = (s.graph m).recast (m.renumber f) f := by
  cases s with
  | top => exact Graph.ofModule_recast hf m
  | function fn => exact Graph.ofBlock_recast hf m (m.renumber f) fn.body
  | block b => exact Graph.ofBlock_recast hf m (m.renumber f) b

theorem In.renumber (hs : s.In m) (f : TreeId → TreeId) : (s.renumber f).In (m.renumber f) := by
  cases s with
  | top => trivial
  | function fn => exact List.mem_map_of_mem hs
  | block b =>
      change _ ∈ (m.renumber f).blocks
      rw [Module.blocks_renumber]
      exact List.mem_map_of_mem hs

theorem renumber_self (s : Region) : s.renumber (fun n => n) = s := by
  cases s with
  | top => rfl
  | function fn => exact congrArg function fn.renumber_self
  | block b => exact congrArg block b.renumber_self

theorem In.renumber_renumber (hs : s.In m) (hn : ∀ n ∈ m.ids, f (r n) = h n) :
    (s.renumber r).renumber f = s.renumber h := by
  have hblock {b : Block} (hb : b ∈ m.blocks) : ∀ n ∈ b.ids, f (r n) = h n :=
    fun n hmem => hn n ((Module.ids_sublist_of_mem_blocks hb).subset hmem)
  cases s with
  | top => rfl
  | function fn =>
      have hbody := hblock (Module.body_mem_blocks hs)
      exact congrArg function (Function.renumber_renumber hbody)
  | block b => exact congrArg block (Block.renumber_renumber (hblock hs))

end Region

/-! ## What is found out -/

/-- What is found out about a part of a module, up to a stage. -/
def Region.viewAt (m : Module) (s : Region) (stage : Analysis.Stage) :
    Except AnalysisFault Analysis.View :=
  (stage.reach (s.graph m)).map Analysis.view

theorem Region.viewAt_renumber (hf : StrictMono f) (m : Module) (s : Region)
    (stage : Analysis.Stage) :
    (s.renumber f).viewAt (m.renumber f) stage = s.viewAt m stage := by
  have hdecls : (m.renumber f).decls = (s.graph m).module.decls := by
    rw [module_graph]
    rfl
  unfold viewAt
  rw [graph_renumber hf.injective, Analysis.Stage.reach_recast hdecls]
  cases hreach : stage.reach (s.graph m) with
  | error why => rfl
  | ok a =>
      rw [← Analysis.Stage.graph_of_reach hreach] at hdecls
      exact congrArg Except.ok (Analysis.view_recast hdecls hf)

/-! ## Pruning -/

theorem Pruning.setBody_renumber (name : String) (pruned : Block) (fns : List Function) :
    setBody name (pruned.renumber f) (fns.map (Function.renumber f)) =
      (setBody name pruned fns).map (Function.renumber f) := by
  induction fns with
  | nil => rfl
  | cons fn rest ih =>
      by_cases hname : fn.name = name
      · rw [setBody, if_pos hname]
        exact if_pos hname
      · rw [setBody, if_neg hname, List.map_cons, List.map_cons, ← ih]
        exact if_neg hname

namespace Module

variable {scope : Option String} {pruned : Block} {p : Module} {report : Pruning.Report}

/-- A pruned module and its report with the numbers of the tree replaced. -/
def renumberPruned (f : TreeId → TreeId) (done : Module × Pruning.Report) :
    Module × Pruning.Report :=
  (done.1.renumber f, done.2.renumber f)

theorem function?_renumber (m : Module) (name : String) :
    (m.renumber f).function? name = (m.function? name).map (Function.renumber f) := by
  rw [function?, functions_renumber, List.find?_map]
  rfl

theorem bodyOf?_renumber (m : Module) (scope : Option String) :
    (m.renumber f).bodyOf? scope = (m.bodyOf? scope).map (Block.renumber f) := by
  cases scope with
  | none => rfl
  | some name =>
      rw [bodyOf?, bodyOf?, function?_renumber, Option.map_map, Option.map_map]
      rfl

theorem withBody_renumber (m : Module) (scope : Option String) (pruned : Block) :
    (m.renumber f).withBody (pruned.renumber f) scope = (m.withBody pruned scope).renumber f := by
  cases scope with
  | none => rfl
  | some name =>
      have hfunctions := Pruning.setBody_renumber (f := f) name pruned m.functions
      simp only [withBody, renumber, hfunctions]

theorem doomed_renumber (hf : StrictMono f) (m : Module) (scope : Option String) (b : Block) :
    Pruning.doomed ((m.renumber f).graphWith scope (b.renumber f)) (b.renumber f) =
      (Pruning.doomed (m.graphWith scope b) b).map (List.map f) := by
  have hdecls : m.decls = (m.graphWith scope b).module.decls := (decls_graphWith m scope b).symm
  cases scope with
  | none =>
      have hgraph := Graph.ofModule_recast hf.injective { m with body := b }
      rw [← Pruning.doomed_recast (m := ({ m with body := b } : Module).renumber f) hf hdecls b]
      exact congrArg (Pruning.doomed · _) hgraph
  | some name =>
      have hgraph := Graph.ofBlock_recast hf.injective m (m.renumber f) b
      rw [← Pruning.doomed_recast (m := m.renumber f) hf hdecls b]
      exact congrArg (Pruning.doomed · _) hgraph

/-- Pruning a renumbered module gives the renumbered pruned module. -/
theorem prune_renumber (hf : StrictMono f) (m : Module) (scope : Option String) :
    (m.renumber f).prune scope = (m.prune scope).map (renumberPruned f) := by
  have hbody' := bodyOf?_renumber (f := f) m scope
  cases hbody : m.bodyOf? scope with
  | none =>
      cases scope with
      | none => cases hbody
      | some name =>
          have hnone := Option.map_eq_none_iff.mp hbody
          have hnone' : (m.renumber f).function? name = none := by
            rw [function?_renumber, hnone, Option.map_none]
          change (m.renumber f).pruneFunction name = (m.pruneFunction name).map _
          unfold pruneFunction function
          rw [hnone, hnone']
          rfl
  | some body =>
      rw [hbody] at hbody'
      rw [prune_eq hbody', prune_eq hbody,
        Pruning.pruneBody_renumber hf.injective (doomed_renumber hf m scope)]
      cases Pruning.pruneBody (m.graphWith scope) body with
      | error why => rfl
      | ok done =>
          have hdone := withBody_renumber (f := f) m scope done.1
          simp only [Except.map, Pruning.renumberPruned, renumberPruned, hdone]

/-- Swapping a body for one with fewer numbers gives a module with fewer numbers. -/
theorem SwapsBody.ids_subset {body : Block} (hswaps : m.SwapsBody scope body pruned p)
    (hsub : pruned.ids ⊆ body.ids) : body.ids ⊆ m.ids ∧ p.ids ⊆ m.ids := by
  cases hswaps with
  | top => exact ⟨List.subset_append_right _ _, append_subset_append (List.Subset.refl _) hsub⟩
  | @function before after fn _ hfunctions _ =>
      have hfn : fn ∈ m.functions := by
        rw [hfunctions]
        exact List.mem_append_right _ List.mem_cons_self
      have hparts : (before ++ { fn with body := pruned } :: after).flatMap (·.body.ids) ⊆
          m.functions.flatMap (·.body.ids) := by
        rw [hfunctions, List.flatMap_append, List.flatMap_append, List.flatMap_cons,
          List.flatMap_cons]
        exact append_subset_append (List.Subset.refl _)
          (append_subset_append hsub (List.Subset.refl _))
      refine ⟨(ids_sublist_of_mem_blocks (body_mem_blocks hfn)).subset, ?_⟩
      exact append_subset_append (append_subset_append (List.Subset.refl _) hparts)
        (List.Subset.refl _)

theorem prune_ids_subset (hprune : m.prune scope = .ok (p, report)) :
    p.ids ⊆ m.ids ∧ report.removed ⊆ m.ids := by
  obtain ⟨body, pruned, hbody, rfl, rfl, hrounds⟩ := exists_of_prune hprune
  have hremoved := hrounds.removed_subset (m.depicts_graphWith scope)
  obtain ⟨hids, hleft⟩ := (swapsBody_withBody hbody _).ids_subset
    (Pruning.ids_takeOut_sublist report.removed body).subset
  exact ⟨hleft, List.Subset.trans hremoved hids⟩

/-- Of the numbers in the trees of a module, only the order counts, whether they are distinct or
not: where all of them are replaced and their order is kept, the same is found out about each part
of the module, and pruning takes out the same statements in as many rounds. -/
theorem only_order_counts (m : Module) {f : TreeId → TreeId}
    (hf : StrictMonoOn f {n | n ∈ m.ids}) :
    (m.renumber f).ids = m.ids.map f ∧
    (∀ s : Region, s.In m → (s.renumber f).In (m.renumber f) ∧
      ∀ stage, (s.renumber f).viewAt (m.renumber f) stage = s.viewAt m stage) ∧
    ∀ scope, (m.renumber f).prune scope = (m.prune scope).map (renumberPruned f) := by
  obtain ⟨rank, back, forth, hback, hforth, hmaps⟩ := Ranks.exists_maps hf
  have hm : (m.renumber rank).renumber back = m := by
    rw [renumber_renumber fun n hn => (hmaps n hn).1, renumber_self]
  have hm' : (m.renumber rank).renumber forth = m.renumber f :=
    renumber_renumber fun n hn => (hmaps n hn).2
  refine ⟨m.ids_renumber, fun s hs => ⟨hs.renumber f, fun stage => ?_⟩, fun scope => ?_⟩
  · have hs₀ : (s.renumber rank).renumber back = s := by
      rw [hs.renumber_renumber fun n hn => (hmaps n hn).1, s.renumber_self]
    have hs' : (s.renumber rank).renumber forth = s.renumber f :=
      hs.renumber_renumber fun n hn => (hmaps n hn).2
    calc (s.renumber f).viewAt (m.renumber f) stage
        = (s.renumber rank).viewAt (m.renumber rank) stage := by
          rw [← hs', ← hm', Region.viewAt_renumber hforth]
      _ = s.viewAt m stage := by
          rw [← Region.viewAt_renumber hback, hs₀, hm]
  · have hprune := prune_renumber hback (m.renumber rank) scope
    have hprune' := prune_renumber hforth (m.renumber rank) scope
    rw [hm] at hprune
    rw [hm'] at hprune'
    rw [hprune, hprune']
    cases hresult : (m.renumber rank).prune scope with
    | error why => rfl
    | ok done =>
        obtain ⟨hids, hremoved⟩ := prune_ids_subset hresult
        -- Numbers that are left or were removed are ranks of numbers of the module.
        have hforth_eq (n : Nat) (hn : n ∈ (m.renumber rank).ids) : f (back n) = forth n := by
          rw [ids_renumber] at hn
          obtain ⟨k, hk, rfl⟩ := List.mem_map.mp hn
          rw [(hmaps k hk).1, (hmaps k hk).2]
        have hleft : (done.1.renumber back).renumber f = done.1.renumber forth :=
          renumber_renumber fun n hn => hforth_eq n (hids hn)
        have hgone : (done.2.removed.map back).map f = done.2.removed.map forth := by
          rw [List.map_map]
          exact List.map_congr_left fun n hn => hforth_eq n (hremoved hn)
        simp only [Except.map, renumberPruned, Pruning.Report.renumber, hleft, hgone]

/-- An unused variable before a return, numbered in tens. -/
def spaced : Module :=
  ⟨"m", [⟨0, "x", .localVariable, .int, false⟩], [],
    ⟨10, [.simple 30 (.declare ⟨0, "x", .int, some (.literal 20 (.int 1))⟩),
      .jump 50 (.return (some (.literal 40 (.int 2))))]⟩, []⟩

/-- Numbering by ones instead of tens keeps the order of these numbers, though not of all. -/
theorem only_order_counts_spaced : StrictMonoOn (fun n => n / 10) {n | n ∈ spaced.ids} ∧
    ¬ StrictMono (fun n : Nat => n / 10) ∧
    (∀ stage, Region.top.viewAt (spaced.renumber fun n => n / 10) stage =
      Region.top.viewAt spaced stage) ∧
    spaced.prune none = .ok ({ spaced with body :=
      ⟨10, [.jump 50 (.return (some (.literal 40 (.int 2))))]⟩ }, ⟨[30], 2⟩) ∧
    (spaced.renumber fun n => n / 10).prune none = .ok ({ spaced with body :=
      ⟨1, [.jump 5 (.return (some (.literal 4 (.int 2))))]⟩ }, ⟨[3], 2⟩) := by
  have hf : StrictMonoOn (fun n => n / 10) {n | n ∈ spaced.ids} := by
    intro n hn k hk hlt
    have hall : ∀ n ∈ spaced.ids, ∀ k ∈ spaced.ids, n < k → n / 10 < k / 10 := by decide
    exact hall n hn k hk hlt
  have hprune : spaced.prune none = .ok ({ spaced with body :=
      ⟨10, [.jump 50 (.return (some (.literal 40 (.int 2))))]⟩ }, ⟨[30], 2⟩) := by cbv
  obtain ⟨-, hregions, hpruned⟩ := only_order_counts spaced hf
  refine ⟨hf, fun hmono => ?_, (hregions .top trivial).2, hprune, ?_⟩
  · exact absurd (hmono (show 10 < 11 by decide)) (by decide)
  · rw [hpruned none, hprune]
    rfl

end Module

end ControlFlow
