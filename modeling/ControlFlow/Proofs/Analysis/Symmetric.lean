import ControlFlow.Proofs.Analysis.Shared
import Mathlib.Data.List.Sort

/-! # Shared storage is symmetric

Once a graph is classified, two variables refer into each other's storage exactly if one of them is
a view or an iterator and the other one is named in its initial value. Where the nodes stand in the
graph makes no difference.
-/

namespace ControlFlow

/-- The variable that a node introduces, with its type and its initial value. -/
def Point.variable? : Point → Option LocalVar
  | .stmt (.simple _ (.declare var)) => some var
  | .global v => some ⟨v.decl, v.name, v.ty, v.init⟩
  | .loopVar var => some ⟨var.decl, var.name, var.ty, none⟩
  | _ => none

/-- The variable is a view or an iterator, and another one is named in its initial value. -/
def LocalVar.BorrowsFrom (v : LocalVar) (d : DeclId) : Prop :=
  (v.ty = .streamView ∨ ∃ container, v.ty = .iterator container) ∧
    ∃ init e, v.init = some init ∧ e ∈ init.walk ∧ e.named? = some d

theorem isAliasing_iff {ty : Ty} :
    ty.isAliasing = true ↔ ty = .streamView ∨ ∃ container, ty = .iterator container := by
  cases ty <;> simp [Ty.isAliasing]

theorem mem_initialNames_iff {v : LocalVar} {d : DeclId} :
    d ∈ initialNames v.ty v.init ↔ v.BorrowsFrom d := by
  rw [LocalVar.BorrowsFrom, ← isAliasing_iff, initialNames]
  cases v.ty.isAliasing <;> cases v.init <;> simp

theorem declared?_eq_map (p : Point) : p.declared? = p.variable?.map LocalVar.decl := by
  cases p with
  | stmt s =>
      cases s with
      | simple id what => cases what <;> rfl
      | _ => rfl
  | _ => rfl

theorem referents_of_variable {p : Point} {v : LocalVar} (h : p.variable? = some v) :
    p.referents = initialNames v.ty v.init := by
  cases p with
  | global w =>
      cases h
      rfl
  | loopVar var =>
      cases h
      unfold initialNames
      cases var.ty.isAliasing <;> rfl
  | stmt s =>
      cases s with
      | simple id what =>
          cases what with
          | declare var =>
              cases h
              rfl
          | _ => cases h
      | _ => cases h
  | _ => cases h

namespace Graph

variable {g g' : Graph} {d : DeclId} {n m : NodeId} {p q : Point} {v w : LocalVar}
  {effects shared : Array Effect}

/-- A variable is declared as one that the graph is expected to have a node for: a local variable,
or a global where the graph shows the globals. -/
def Lists (g : Graph) (d : DeclId) : Prop :=
  ∃ decl, g.decl? d = some decl ∧
    (decl.kind = .localVariable ∨ decl.kind = .globalVariable ∧ g.showsGlobals = true)

theorem lists_iff : g.Lists d ↔ (g.decl? d).any g.declaresHere = true := by
  have hkind (decl : Declaration) : g.declaresHere decl = true ↔
      decl.kind = .localVariable ∨ decl.kind = .globalVariable ∧ g.showsGlobals = true := by
    unfold declaresHere
    cases decl.kind <;> simp
  simp only [Lists, Option.any_eq_true, hkind]

/-! ## References between two variables -/

theorem mem_aliases_of_variable (hv : p.variable? = some v) :
    d ∈ (g.effect p).aliases ↔ v.BorrowsFrom d ∧ g.Lists d := by
  rw [mem_aliases_iff, referents_of_variable hv, mem_initialNames_iff, lists_iff]

theorem introducesAt_of_variable (hp : g.nodes[n]? = some p) (hv : p.variable? = some v) :
    g.IntroducesAt n v.decl := by
  refine ⟨p, hp, ?_⟩
  rw [declared?_eq_map, hv]
  rfl

/-- Two variables share storage exactly if one of them borrows from the other. -/
theorem shares_iff_borrows (hone : g.OneSite) (hp : g.nodes[n]? = some p)
    (hv : p.variable? = some v) (hq : g.nodes[m]? = some q) (hw : q.variable? = some w)
    (hlists : g.Lists v.decl) (hlists' : g.Lists w.decl) :
    g.Shares n w.decl ↔ v.BorrowsFrom w.decl ∨ w.BorrowsFrom v.decl := by
  constructor
  · rintro (⟨p', hp', hd⟩ | ⟨own, k, hn, hk, ⟨q', hq', hown⟩⟩)
    · cases hp.symm.trans hp'
      exact .inl ((mem_aliases_of_variable hv).mp hd).1
    · -- Both variables have the nodes that are given, and no other ones.
      cases hn.unique (introducesAt_of_variable hp hv)
      cases hone.eq hk (introducesAt_of_variable hq hw)
      cases hq.symm.trans hq'
      exact .inr ((mem_aliases_of_variable hw).mp hown).1
  · rintro (hborrows | hborrows)
    · exact .inl ⟨p, hp, (mem_aliases_of_variable hv).mpr ⟨hborrows, hlists'⟩⟩
    · exact .inr ⟨v.decl, m, introducesAt_of_variable hp hv, introducesAt_of_variable hq hw, q, hq,
        (mem_aliases_of_variable hw).mpr ⟨hborrows, hlists⟩⟩

/-- A node that introduces no variable shares nothing. -/
theorem not_shares_of_undeclared (hp : g.nodes[n]? = some p) (hnone : p.declared? = none) :
    ¬ g.Shares n d := by
  rintro (⟨p', hp', hd⟩ | ⟨own, k, ⟨p', hp', hown⟩, -⟩)
  · cases hp.symm.trans hp'
    obtain ⟨own, hown⟩ := declared?_of_referents (mem_aliases_iff.mp hd).1
    rw [hnone] at hown
    cases hown
  · cases hp.symm.trans hp'
    rw [hnone] at hown
    cases hown

/-! ## The order of the nodes -/

/-- Two graphs have the same nodes, perhaps in another order. -/
structure Reorders (g g' : Graph) : Prop where
  module_eq : g'.module = g.module
  showsGlobals_eq : g'.showsGlobals = g.showsGlobals
  nodes : g'.nodes.Perm g.nodes

theorem Reorders.symm (h : g.Reorders g') : g'.Reorders g :=
  ⟨h.module_eq.symm, h.showsGlobals_eq.symm, h.nodes.symm⟩

theorem Reorders.oneSite (h : g.Reorders g') (hone : g.OneSite) : g'.OneSite :=
  (h.nodes.filterMap Point.declared?).nodup_iff.mpr hone

theorem Reorders.mem_aliases_iff (h : g.Reorders g') :
    d ∈ (g'.effect p).aliases ↔ d ∈ (g.effect p).aliases := by
  have hdecl : g'.decl? d = g.decl? d := by
    unfold decl?
    rw [h.module_eq]
  have hhere : g'.declaresHere = g.declaresHere := by
    funext decl
    unfold declaresHere
    rw [h.showsGlobals_eq]
  rw [Graph.mem_aliases_iff, Graph.mem_aliases_iff, hdecl, hhere]

theorem Reorders.exists_node (h : g.Reorders g') (hp : g.nodes[n]? = some p) :
    ∃ m : NodeId, g'.nodes[m]? = some p :=
  List.getElem?_of_mem (h.nodes.mem_iff.mpr (List.mem_of_getElem? hp))

theorem Reorders.shares (h : g.Reorders g') (hp : g.nodes[n]? = some p)
    (hq : g'.nodes[m]? = some p) (hshares : g.Shares n d) : g'.Shares m d := by
  rcases hshares with ⟨p', hp', hd⟩ | ⟨own, k, ⟨p', hp', hown⟩, ⟨q, hk, hdecl⟩, ⟨q', hk', hnames⟩⟩
  · cases hp.symm.trans hp'
    exact .inl ⟨p, hq, h.mem_aliases_iff.mpr hd⟩
  · cases hp.symm.trans hp'
    cases hk.symm.trans hk'
    obtain ⟨k', hthere⟩ := h.exists_node hk
    exact .inr ⟨own, k', ⟨p, hq, hown⟩, ⟨q, hthere, hdecl⟩, q, hthere,
      h.mem_aliases_iff.mpr hnames⟩

theorem Reorders.effects_ok (h : g.Reorders g') (hok : ∃ effects, g.effects = .ok effects) :
    ∃ effects, g'.effects = .ok effects := by
  refine effects_ok_iff.mpr fun p hp d hd => ?_
  obtain ⟨q, hq, hdecl⟩ := effects_ok_iff.mp hok p (h.nodes.mem_iff.mp hp) d
    (h.mem_aliases_iff.mp hd)
  exact ⟨q, h.nodes.mem_iff.mpr hq, hdecl⟩

/-- All references are listed in ascending order. -/
def InOrder (effects : Array Effect) : Prop :=
  ∀ (n : NodeId) (e : Effect), effects[n]? = some e → Ascending.Sorted e.aliases

theorem InOrder.modify (h : InOrder effects) (site : NodeId) (own : DeclId) :
    InOrder (effects.modify site (Effect.addAlias own)) := by
  intro n e he
  rw [Array.getElem?_modify] at he
  split at he
  · obtain ⟨e', he', rfl⟩ := Option.map_eq_some_iff.mp he
    exact Ascending.sorted_insert (h n e' he')
  · exact h n e he

theorem inOrder_effects (h : g.effects = .ok effects) : InOrder effects := by
  obtain ⟨shared, hshared, rfl⟩ := effects_eq h
  have hinitial : InOrder (g.nodes.map g.effect).toArray := by
    intro n e he
    rw [List.getElem?_toArray, List.getElem?_map] at he
    obtain ⟨p, -, rfl⟩ := Option.map_eq_some_iff.mp he
    exact Ascending.sorted_ofList _
  have hinOrder : InOrder shared :=
    foldlM_ok_invariant (fun _ _ _ _ hb hgoes => shareBack_induction hb
      (fun _ _ own _ site _ _ _ _ _ _ hb => hb.modify site own) hgoes) hinitial hshared
  intro n e he
  rw [Array.getElem?_map] at he
  obtain ⟨e', he', rfl⟩ := Option.map_eq_some_iff.mp he
  exact hinOrder n e' he'

theorem refers_iff_mem {e : Effect} (he : effects[n]? = some e) :
    Refers effects n d ↔ d ∈ e.aliases := by
  constructor
  · rintro ⟨e', he', hd⟩
    cases he.symm.trans he'
    exact hd
  · exact fun hd => ⟨e, he, hd⟩

/-- The same node refers into the same variables wherever it stands. -/
theorem Reorders.aliases_eq (h : g.Reorders g') (hone : g.OneSite) {effects' : Array Effect}
    (heffects : g.effects = .ok effects) (heffects' : g'.effects = .ok effects')
    (hp : g.nodes[n]? = some p) (hq : g'.nodes[m]? = some p) {e e' : Effect}
    (he : effects[n]? = some e) (he' : effects'[m]? = some e') : e'.aliases = e.aliases := by
  refine List.Pairwise.eq_of_mem_iff (inOrder_effects heffects' m e' he')
    (inOrder_effects heffects n e he) fun d => ?_
  rw [← refers_iff_mem he, ← refers_iff_mem he', refers_iff hone heffects,
    refers_iff (h.oneSite hone) heffects']
  exact ⟨h.symm.shares hq hp, h.shares hp hq⟩

/-! ## Classified graphs -/

/-- Once a graph in which no variable has two nodes is classified, all of its nodes have effects. Of
two variables that the graph is expected to show and does show, each refers into the other's storage
exactly if one of them borrows from the other; nodes that introduce no variable refer into nothing;
and with its nodes in another order, the graph can be classified as well, and each node refers into
the same variables. -/
theorem aliases_symmetric (hone : g.OneSite) (heffects : g.effects = .ok effects) :
    effects.size = g.nodes.length ∧
    (∀ (n m : NodeId) (p q : Point) (v w : LocalVar), g.nodes[n]? = some p →
      p.variable? = some v → g.nodes[m]? = some q → q.variable? = some w → g.Lists v.decl →
        g.Lists w.decl → (Refers effects n w.decl ↔ v.BorrowsFrom w.decl ∨ w.BorrowsFrom v.decl)) ∧
    (∀ (n : NodeId) (p : Point) (e : Effect), g.nodes[n]? = some p → p.declared? = none →
      effects[n]? = some e → e.aliases = []) ∧
    ∀ g', g.Reorders g' → ∃ effects', g'.effects = .ok effects' ∧
      ∀ (n m : NodeId) (p : Point), g.nodes[n]? = some p → g'.nodes[m]? = some p →
        ∃ e e', effects[n]? = some e ∧ effects'[m]? = some e' ∧ e'.aliases = e.aliases := by
  refine ⟨(classifies_effects heffects).size_eq, ?_, ?_, fun g' h => ?_⟩
  · intro n m p q v w hp hv hq hw hlists hlists'
    rw [refers_iff hone heffects]
    exact shares_iff_borrows hone hp hv hq hw hlists hlists'
  · intro n p e hp hnone he
    refine List.eq_nil_iff_forall_not_mem.mpr fun d hd => ?_
    have hshares := (refers_iff hone heffects).mp ((refers_iff_mem he).mpr hd)
    exact not_shares_of_undeclared hp hnone hshares
  · obtain ⟨effects', heffects'⟩ := h.effects_ok ⟨effects, heffects⟩
    refine ⟨effects', heffects', fun n m p hp hq => ?_⟩
    obtain ⟨e, he, -⟩ := exists_effect (classifies_effects heffects) hp
    obtain ⟨e', he', -⟩ := exists_effect (classifies_effects heffects') hq
    exact ⟨e, e', he, he', h.aliases_eq hone heffects heffects' hp hq he he'⟩

/-- An iterator that is made from itself and from a later one, which is made from it in turn. -/
def itself : LocalVar :=
  let names := [.name 0 "it" (some 1), .name 1 "other" (some 2), .name 2 "data" (some 0)]
  ⟨1, "it", .iterator .bytes, some (.operator 3 "zip" names)⟩

def another : LocalVar := ⟨2, "other", .iterator .bytes, some (.name 5 "it" (some 1))⟩

/-- A module that declares both before the bytes that they refer into. -/
def entangled : Module :=
  ⟨"m", [⟨0, "data", .localVariable, .bytes, false⟩,
      ⟨1, "it", .localVariable, .iterator .bytes, false⟩,
      ⟨2, "other", .localVariable, .iterator .bytes, false⟩], [],
    ⟨9, [.simple 4 (.declare itself), .simple 6 (.declare another),
      .simple 7 (.declare ⟨0, "data", .bytes, none⟩), .simple 8 .yield]⟩, []⟩

/-- The effects in that module. -/
def entangledEffects : Array Effect :=
  #[.none, .none, ⟨[0, 1, 2], [1], [0, 1, 2], false, false⟩,
    ⟨[0, 1, 2], [2], [1], false, false⟩, ⟨[], [0], [1], false, false⟩, ⟨[], [], [], true, true⟩]

/-- The bytes refer back to the iterator that is made from them, and the two iterators into each
other, whichever of them comes first; a node that declares nothing refers into nothing. -/
theorem aliases_symmetric_entangled : (ofModule entangled).OneSite ∧
    (ofModule entangled).effects = .ok entangledEffects ∧
    Refers entangledEffects 2 2 ∧ Refers entangledEffects 3 1 ∧ ¬ Refers entangledEffects 3 2 ∧
    (entangledEffects[5]?.map Effect.aliases) = some [] ∧
    ∃ effects, ({ ofModule entangled with nodes := (ofModule entangled).nodes.reverse }).effects =
      .ok effects ∧ effects[3]?.map Effect.aliases = some [0, 1, 2] := by
  have hone : (ofModule entangled).OneSite := by
    unfold OneSite
    decide
  have heffects : (ofModule entangled).effects = .ok entangledEffects := by
    with_unfolding_all rfl
  obtain ⟨-, hrefers, hnone, horder⟩ := aliases_symmetric hone heffects
  have hit : (ofModule entangled).Lists 1 := ⟨_, rfl, .inl rfl⟩
  have hother : (ofModule entangled).Lists 2 := ⟨_, rfl, .inl rfl⟩
  have hborrows : another.BorrowsFrom 1 :=
    ⟨.inr ⟨_, rfl⟩, _, .name 5 "it" (some 1), rfl, by simp [Expr.walk], rfl⟩
  obtain ⟨effects, hok, hsame⟩ := horder
    { ofModule entangled with nodes := (ofModule entangled).nodes.reverse }
    ⟨rfl, rfl, List.reverse_perm _⟩
  obtain ⟨e, e', he, he', heq⟩ := hsame 2 3 _ rfl rfl
  have hfirst := hrefers 2 3 _ _ itself another rfl rfl rfl rfl hit hother
  have hsecond := hrefers 3 2 _ _ another itself rfl rfl rfl rfl hother hit
  have hself := hrefers 3 3 _ _ another another rfl rfl rfl rfl hother hother
  have hnot : ¬ another.BorrowsFrom 2 := by
    simp [LocalVar.BorrowsFrom, another, Expr.walk, Expr.named?]
  refine ⟨hone, heffects, hfirst.mpr (.inr hborrows), hsecond.mpr (.inl hborrows),
    fun hrefers => (hself.mp hrefers).elim hnot hnot, congrArg some (hnone 5 _ _ rfl rfl rfl),
    effects, hok, ?_⟩
  · cases he
    rw [he', Option.map_some, heq]
    rfl

end Graph

end ControlFlow
