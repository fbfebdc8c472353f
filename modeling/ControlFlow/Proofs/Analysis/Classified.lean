import ControlFlow.Analysis.Unused

/-! # The effects of a classified graph

Sharing storage only adds to what a node reads and refers to. Whatever else the classification
says about a node is what the node says by itself.
-/

namespace ControlFlow

section Folds

variable {α β ε : Type} {f : β → α → Except ε β}

theorem foldlM_ok_invariant {P : β → Prop} {xs : List α}
    (hstep : ∀ b, ∀ a ∈ xs, ∀ b', P b → f b a = .ok b' → P b')
    {b b' : β} (hb : P b) (h : xs.foldlM f b = .ok b') : P b' := by
  induction xs generalizing b with
  | nil =>
      cases h
      exact hb
  | cons x rest ih =>
      rw [List.foldlM_cons] at h
      cases hx : f b x with
      | error why =>
          rw [hx] at h
          cases h
      | ok c =>
          rw [hx] at h
          have hc := hstep b x List.mem_cons_self c hb hx
          exact ih (fun b a ha => hstep b a (List.mem_cons_of_mem x ha)) hc h

theorem foldlM_error {Q : ε → Prop} (hstep : ∀ b a why, f b a = .error why → Q why)
    {xs : List α} {b : β} {why : ε} (h : xs.foldlM f b = .error why) : Q why := by
  induction xs generalizing b with
  | nil => cases h
  | cons x rest ih =>
      rw [List.foldlM_cons] at h
      cases hx : f b x with
      | error why' =>
          rw [hx] at h
          cases h
          exact hstep b x why hx
      | ok c =>
          rw [hx] at h
          exact ih h

/-- A fold goes through if each of its steps does, from wherever the steps before led to. -/
theorem foldlM_ok_of {P : β → Prop} {xs : List α}
    (hstep : ∀ b, ∀ a ∈ xs, P b → ∃ b', f b a = .ok b' ∧ P b') {b : β} (hb : P b) :
    ∃ b', xs.foldlM f b = .ok b' ∧ P b' := by
  induction xs generalizing b with
  | nil => exact ⟨b, rfl, hb⟩
  | cons x rest ih =>
      obtain ⟨c, hc, hP⟩ := hstep b x List.mem_cons_self hb
      obtain ⟨d, hd, hP'⟩ := ih (fun b a ha => hstep b a (List.mem_cons_of_mem x ha)) hP
      refine ⟨d, ?_, hP'⟩
      rw [List.foldlM_cons, hc]
      exact hd

/-- Where a fold goes through, so does its step at every element, and the rest of the fold after
that step. -/
theorem foldlM_ok_step {P : β → Prop} {xs : List α}
    (hstep : ∀ b, ∀ a ∈ xs, ∀ b', P b → f b a = .ok b' → P b') {b c : β} (hb : P b)
    (h : xs.foldlM f b = .ok c) {a : α} (ha : a ∈ xs) :
    ∃ b b' rest, P b ∧ f b a = .ok b' ∧ rest ⊆ xs ∧ rest.foldlM f b' = .ok c := by
  induction xs generalizing b with
  | nil => cases ha
  | cons x rest ih =>
      rw [List.foldlM_cons] at h
      cases hx : f b x with
      | error why =>
          rw [hx] at h
          cases h
      | ok b' =>
          rw [hx] at h
          rcases List.mem_cons.mp ha with rfl | hrest
          · exact ⟨b, b', rest, hb, hx, List.subset_cons_self _ _, h⟩
          · have hb' := hstep b x List.mem_cons_self b' hb hx
            obtain ⟨u, u', later, hu, hgoes, hsub, hlater⟩ :=
              ih (fun b a ha => hstep b a (List.mem_cons_of_mem x ha)) hb' h hrest
            have hrests := List.Subset.trans hsub (List.subset_cons_self x rest)
            exact ⟨u, u', later, hu, hgoes, hrests, hlater⟩

/-- What the step at an element brings about, and no step undoes, holds in the end. -/
theorem foldlM_ok_establishes {P Q : β → Prop} {xs : List α}
    (hstep : ∀ b, ∀ a ∈ xs, ∀ b', P b → f b a = .ok b' → P b')
    (hkeep : ∀ b, ∀ a ∈ xs, ∀ b', Q b → f b a = .ok b' → Q b') {a : α} (ha : a ∈ xs)
    (hmake : ∀ b b', P b → f b a = .ok b' → Q b') {b c : β} (hb : P b)
    (h : xs.foldlM f b = .ok c) : Q c := by
  obtain ⟨u, u', later, hu, hgoes, hsub, hlater⟩ := foldlM_ok_step hstep hb h ha
  exact foldlM_ok_invariant (fun b a ha => hkeep b a (hsub ha)) (hmake u u' hu hgoes) hlater

end Folds

/-- A variable that is referred into has no node that declares it. -/
def AnalysisFault.IsMissingSite (why : AnalysisFault) : Prop :=
  ∃ name referrer, why = .noSite name referrer

/-- The same effect, but perhaps with more reads and references. -/
structure Effect.Widened (a b : Effect) : Prop where
  defines : b.defines = a.defines
  keep : b.keep = a.keep
  escapes : b.escapes = a.escapes
  uses : ∀ d ∈ a.uses, d ∈ b.uses

namespace Effect.Widened

theorem refl (a : Effect) : a.Widened a := ⟨rfl, rfl, rfl, fun _ h => h⟩

theorem addAlias {a b : Effect} (h : a.Widened b) (d : DeclId) : a.Widened (b.addAlias d) :=
  ⟨h.defines, h.keep, h.escapes, h.uses⟩

theorem widenUses {a b : Effect} (h : a.Widened b) (sites : List (DeclId × NodeId))
    (effects : Array Effect) : a.Widened (Graph.widenUses sites effects b) := by
  refine ⟨h.defines, h.keep, h.escapes, fun d hd => ?_⟩
  simp only [Graph.widenUses, Ascending.mem_insertAll]
  exact .inr (h.uses d hd)

end Effect.Widened

namespace Graph

variable {g : Graph} {effects : Array Effect}

/-! ## Stores -/

theorem eq_name_of_named {target : Expr} {d : DeclId} (h : target.named? = some d) :
    ∃ id name, target = .name id name (some d) := by
  cases target with
  | name id name decl =>
      cases h
      exact ⟨id, name, rfl⟩
  | _ => cases h

theorem store_of_named {target : Expr} {d : DeclId} (h : target.named? = some d) :
    g.store target = .define d := by
  obtain ⟨id, name, rfl⟩ := eq_name_of_named h
  rfl

theorem store_of_unnamed {target : Expr} (h : target.named? = none) : g.store target =
    (match target.base? with
      | some base => Effect.define base
      | none => .keepIf true).and (g.evaluation target false) := by
  cases target with
  | name id name decl =>
      cases h
      rfl
  | _ => rfl

theorem base?_of_named {target : Expr} {d : DeclId} (h : target.named? = some d) :
    target.base? = some d := by
  obtain ⟨id, name, rfl⟩ := eq_name_of_named h
  rfl

/-! ## Classification -/

/-- Every node of a graph has its effect, perhaps widened. -/
structure Classifies (g : Graph) (effects : Array Effect) : Prop where
  size_eq : effects.size = g.nodes.length
  widened : ∀ (n : NodeId) (p : Point) (e : Effect), g.nodes[n]? = some p →
    effects[n]? = some e → (g.effect p).Widened e

theorem classifies_initial (g : Graph) : g.Classifies (g.nodes.map g.effect).toArray := by
  refine ⟨by simp, fun n p e hp he => ?_⟩
  simp only [List.getElem?_toArray, List.getElem?_map, hp, Option.map_some,
    Option.some.injEq] at he
  subst he
  exact .refl _

theorem Classifies.modify (h : g.Classifies effects) (site : NodeId) (d : DeclId) :
    g.Classifies (effects.modify site (Effect.addAlias d)) := by
  refine ⟨by rw [Array.size_modify, h.size_eq], fun n p e hp he => ?_⟩
  rw [Array.getElem?_modify] at he
  by_cases hsite : site = n
  · simp only [hsite, if_true] at he
    obtain ⟨e', he', rfl⟩ := Option.map_eq_some_iff.mp he
    exact (h.widened n p e' hp he').addAlias d
  · simp only [hsite, if_false] at he
    exact h.widened n p e hp he

theorem Classifies.map_widenUses (h : g.Classifies effects) (sites : List (DeclId × NodeId))
    (shared : Array Effect) : g.Classifies (effects.map (widenUses sites shared)) := by
  refine ⟨by rw [Array.size_map, h.size_eq], fun n p e hp he => ?_⟩
  rw [Array.getElem?_map] at he
  obtain ⟨e', he', rfl⟩ := Option.map_eq_some_iff.mp he
  exact (h.widened n p e' hp he').widenUses sites shared

/-- What a node shares back is recorded step by step: a node of a variable that it refers into
refers to its own variable from then on. -/
theorem shareBack_induction {P : Array Effect → Prop} {sites : List (DeclId × NodeId)} {n : NodeId}
    {shared : Array Effect} (hbefore : P effects)
    (hstep : ∀ p e own d site b, g.nodes[n]? = some p → effects[n]? = some e →
      p.declared? = some own → d ∈ e.aliases → siteIn? sites d = some site → P b →
      P (b.modify site (Effect.addAlias own)))
    (hshare : g.shareBack sites effects n = .ok shared) : P shared := by
  unfold Graph.shareBack at hshare
  split at hshare
  next p e hp he =>
    split at hshare
    next hnone =>
      cases hshare
      exact hbefore
    next own hown =>
      refine foldlM_ok_invariant (P := P) (fun b d hd b' hb hgoes => ?_) hbefore hshare
      split at hgoes
      next site hsite =>
        cases hgoes
        exact hstep p e own d site b hp he hown hd hsite hb
      next => cases hgoes
  next =>
    cases hshare
    exact hbefore

theorem Classifies.shareBack (h : g.Classifies effects) {sites : List (DeclId × NodeId)}
    {n : NodeId} {shared : Array Effect} (hshare : g.shareBack sites effects n = .ok shared) :
    g.Classifies shared :=
  shareBack_induction h (fun _ _ own _ site _ _ _ _ _ _ hb => hb.modify site own) hshare

/-- Where classification comes to an end, all nodes have shared back, and what they read is widened
once after that. -/
theorem effects_eq (h : g.effects = .ok effects) :
    ∃ shared, g.shareAliases (g.nodes.map g.effect).toArray = .ok shared ∧
      effects = shared.map (widenUses g.sites shared) := by
  unfold Graph.effects at h
  cases hshare : g.shareAliases (g.nodes.map g.effect).toArray with
  | error why =>
      rw [hshare] at h
      cases h
  | ok shared =>
      rw [hshare] at h
      cases h
      exact ⟨shared, rfl, rfl⟩

/-- A classified graph has an effect for each node. -/
theorem classifies_effects (h : g.effects = .ok effects) : g.Classifies effects := by
  obtain ⟨shared, hshared, rfl⟩ := effects_eq h
  refine Classifies.map_widenUses ?_ _ _
  exact foldlM_ok_invariant (P := g.Classifies)
    (fun b n _ b' hb hstep => hb.shareBack hstep) (classifies_initial g) hshared

/-- Classification fails for one reason only: a variable that is referred into has no node. -/
theorem effects_error {why : AnalysisFault} (h : g.effects = .error why) :
    why.IsMissingSite := by
  unfold Graph.effects at h
  cases hshare : g.shareAliases (g.nodes.map g.effect).toArray with
  | ok shared =>
      rw [hshare] at h
      cases h
  | error why' =>
      rw [hshare] at h
      cases h
      refine foldlM_error (Q := AnalysisFault.IsMissingSite) (fun b n why' hstep => ?_) hshare
      unfold Graph.shareBack at hstep
      split at hstep
      next p e hp he =>
        split at hstep
        next => cases hstep
        next own hown =>
          refine foldlM_error (Q := AnalysisFault.IsMissingSite) (fun b d why'' hinner => ?_) hstep
          split at hinner
          next => cases hinner
          next =>
            cases hinner
            exact ⟨_, _, rfl⟩
      next => cases hstep

end Graph

end ControlFlow
