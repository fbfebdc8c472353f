import ControlFlow.Proofs.Analysis.Classified

/-! # When every variable has a node

Classification looks for the nodes of the variables that views and iterators refer into. It comes
to an end if and only if each of them has one: the variables that are noted on the way have nodes
of their own.
-/

namespace ControlFlow

/-- The variables that a view or an iterator with an initial value is initialised from. -/
def initialNames (ty : Ty) (init : Option Expr) : List DeclId :=
  if ty.isAliasing then ((init.map Expr.walk).getD []).filterMap Expr.named? else []

/-- The variables that a point's own one is initialised from, if that is a view or an iterator. -/
def Point.referents : Point → List DeclId
  | .stmt (.simple _ (.declare var)) => initialNames var.ty var.init
  | .global v => initialNames v.ty v.init
  | _ => []

namespace Graph

variable {g : Graph} {d own : DeclId} {n : NodeId} {p : Point} {effects : Array Effect}

/-! ## Nodes that introduce variables -/

/-- Some node introduces a variable. -/
def Introduces (g : Graph) (d : DeclId) : Prop := ∃ p ∈ g.nodes, p.declared? = some d

theorem isSome_siteIn?_iff : (siteIn? g.sites d).isSome = true ↔ g.Introduces d := by
  have hpair (p : Point) (n : NodeId) : (d, n) ∈ (p.declared?.map fun d => (d, n)) ↔
      p.declared? = some d := by
    cases p.declared? <;> simp
  simp only [siteIn?, Option.isSome_map, List.find?_isSome, sites, List.mem_reverse,
    List.mem_filterMap, decide_eq_true_eq]
  constructor
  · rintro ⟨⟨_, n⟩, ⟨⟨p, k⟩, hp, hd⟩, rfl⟩
    obtain ⟨d', hd', heq⟩ := Option.map_eq_some_iff.mp hd
    cases heq
    exact ⟨p, List.fst_mem_of_mem_zipIdx hp, hd'⟩
  · rintro ⟨p, hp, hd⟩
    obtain ⟨k, hk, rfl⟩ := List.mem_iff_getElem.mp hp
    refine ⟨(d, k), ⟨(g.nodes[k], k), ?_, ?_⟩, rfl⟩
    · exact List.mem_zipIdx_iff_getElem?.mpr (List.getElem?_eq_getElem hk)
    · rw [hd]
      rfl

/-! ## Sharing back -/

/-- While the nodes share back, each still refers into what it refers into by itself, and beyond
that only into variables that nodes introduce. -/
structure Sharing (g : Graph) (effects : Array Effect) : Prop where
  size_eq : effects.size = g.nodes.length
  keeps : ∀ (n : NodeId) (p : Point) (e : Effect), g.nodes[n]? = some p → effects[n]? = some e →
    (g.effect p).aliases ⊆ e.aliases
  adds : ∀ (n : NodeId) (p : Point) (e : Effect), g.nodes[n]? = some p → effects[n]? = some e →
    ∀ d ∈ e.aliases, d ∈ (g.effect p).aliases ∨ g.Introduces d

theorem sharing_initial (g : Graph) : g.Sharing (g.nodes.map g.effect).toArray := by
  have heffect {n : NodeId} {p : Point} {e : Effect} (hp : g.nodes[n]? = some p)
      (he : (g.nodes.map g.effect).toArray[n]? = some e) : g.effect p = e := by
    simpa [hp] using he
  refine ⟨by simp, fun n p e hp he => ?_, fun n p e hp he d hd => ?_⟩
  · rw [heffect hp he]
    exact List.Subset.refl _
  · rw [heffect hp he]
    exact .inl hd

/-- A node may refer back to a variable that a node introduces. -/
theorem Sharing.modify (h : g.Sharing effects) (site : NodeId) (hown : g.Introduces own) :
    g.Sharing (effects.modify site (Effect.addAlias own)) := by
  -- An effect afterwards is one from before, with or without the new variable.
  have hbefore {n : NodeId} {e : Effect}
      (he : (effects.modify site (Effect.addAlias own))[n]? = some e) :
      ∃ e', effects[n]? = some e' ∧ (e = e' ∨ e = e'.addAlias own) := by
    rw [Array.getElem?_modify] at he
    split at he
    · obtain ⟨e', he', rfl⟩ := Option.map_eq_some_iff.mp he
      exact ⟨e', he', .inr rfl⟩
    · exact ⟨e, he, .inl rfl⟩
  refine ⟨by rw [Array.size_modify, h.size_eq], fun n p e hp he d hd => ?_,
    fun n p e hp he d hd => ?_⟩
  · obtain ⟨e', he', rfl | rfl⟩ := hbefore he
    · exact h.keeps n p e hp he' hd
    · exact Ascending.mem_insert.mpr (.inr (h.keeps n p e' hp he' hd))
  · obtain ⟨e', he', rfl | rfl⟩ := hbefore he
    · exact h.adds n p e hp he' d hd
    · rcases Ascending.mem_insert.mp hd with rfl | hd
      · exact .inr hown
      · exact h.adds n p e' hp he' d hd

theorem Sharing.shareBack (h : g.Sharing effects) {shared : Array Effect}
    (hshare : g.shareBack g.sites effects n = .ok shared) : g.Sharing shared :=
  shareBack_induction h (fun p _ _ _ site _ hp _ hown _ _ hb =>
    hb.modify site ⟨p, List.mem_of_getElem? hp, hown⟩) hshare

theorem aliases_exprStmt (g : Graph) (e : Expr) : (g.exprStmt e).aliases = [] := by
  unfold exprStmt
  split
  next target source =>
    unfold store
    split
    next => rfl
    next => split <;> rfl
  next => rfl
  next => rfl

theorem mem_aliases_declaration {ty : Ty} {init : Option Expr} :
    d ∈ (g.declaration own ty init).aliases ↔
      d ∈ initialNames ty init ∧ (g.decl? d).any g.declaresHere = true := by
  unfold declaration initialNames
  cases init with
  | none => cases ty.isAliasing <;> simp [Effect.and, evaluation?, Effect.none]
  | some init =>
      cases ty.isAliasing <;> simp [Effect.and, evaluation?, evaluation, referents, Expr.reads]

/-- A node refers into the variables that its own one is initialised from, as far as these are
expected to have nodes. -/
theorem mem_aliases_iff : d ∈ (g.effect p).aliases ↔
    d ∈ p.referents ∧ (g.decl? d).any g.declaresHere = true := by
  have hnone {p : Point} (haliases : (g.pointEffect p).aliases = []) (hp : p.referents = []) :
      d ∈ (g.pointEffect p).aliases ↔
        d ∈ p.referents ∧ (g.decl? d).any g.declaresHere = true := by
    simp [haliases, hp]
  refine Ascending.mem_ofList.trans ?_
  cases p with
  | mark kind counter => exact hnone rfl rfl
  | expr e => exact hnone rfl rfl
  | global v => exact mem_aliases_declaration
  | loopVar var =>
      refine mem_aliases_declaration.trans ?_
      unfold initialNames
      cases var.ty.isAliasing <;> simp [Point.referents]
  | stmt s =>
      cases s with
      | simple id what =>
          cases what with
          | expr e => exact hnone (aliases_exprStmt g e) rfl
          | declare var => exact mem_aliases_declaration
          | _ => exact hnone rfl rfl
      | jump id how =>
          cases how with
          | «return» value => cases value <;> exact hnone rfl rfl
          | throw value => cases value <;> exact hnone rfl rfl
          | _ => exact hnone rfl rfl
      | _ => exact hnone rfl rfl

/-- Only declarations refer into variables. -/
theorem declared?_of_referents (hd : d ∈ p.referents) : ∃ own, p.declared? = some own := by
  unfold Point.referents at hd
  split at hd
  next id var => exact ⟨var.decl, rfl⟩
  next v => exact ⟨v.decl, rfl⟩
  next => cases hd

/-- Classification comes to an end if and only if every variable that a node refers into is
introduced by a node. -/
theorem effects_ok_iff : (∃ effects, g.effects = .ok effects) ↔
    ∀ p ∈ g.nodes, ∀ d ∈ (g.effect p).aliases, g.Introduces d := by
  constructor
  · rintro ⟨effects, heffects⟩ p hp d hd
    obtain ⟨own, hown⟩ := declared?_of_referents (mem_aliases_iff.mp hd).1
    obtain ⟨n, hn, rfl⟩ := List.mem_iff_getElem.mp hp
    obtain ⟨shared, hshare, -⟩ := effects_eq heffects
    -- When the turn of the node comes, it still refers into the variable.
    obtain ⟨before, after, -, hbefore, hturn, -⟩ := foldlM_ok_step (P := g.Sharing)
      (fun b n _ b' hb hstep => hb.shareBack hstep) (sharing_initial g) hshare
      (List.mem_range.mpr hn)
    have hnode := List.getElem?_eq_getElem hn
    have hsize : n < before.size := hbefore.size_eq.symm ▸ hn
    have heffect := Array.getElem?_eq_getElem hsize
    unfold Graph.shareBack at hturn
    rw [hnode, heffect] at hturn
    simp only [hown] at hturn
    obtain ⟨b, b', -, -, hstep, -⟩ := foldlM_ok_step (P := fun _ => True)
      (fun _ _ _ _ _ _ => trivial) trivial hturn (hbefore.keeps n _ _ hnode heffect hd)
    split at hstep
    next site hsite => exact isSome_siteIn?_iff.mp (hsite ▸ rfl)
    next => cases hstep
  · intro hsites
    have hshares : ∃ shared, g.shareAliases (g.nodes.map g.effect).toArray = .ok shared ∧
        g.Sharing shared := by
      refine foldlM_ok_of (fun b n _ hb => ?_) (sharing_initial g)
      suffices hgoes : ∃ b', g.shareBack g.sites b n = .ok b' by
        obtain ⟨b', hb'⟩ := hgoes
        exact ⟨b', hb', hb.shareBack hb'⟩
      unfold Graph.shareBack
      split
      next p e hp he =>
        split
        next => exact ⟨b, rfl⟩
        next own hown =>
          refine Exists.imp (fun _ => And.left) (foldlM_ok_of (P := fun _ => True)
            (fun effects d hd _ => ?_) trivial)
          have hd : g.Introduces d := (hb.adds n p e hp he d hd).elim
            (hsites p (List.mem_of_getElem? hp) d) id
          obtain ⟨site, hsite⟩ := Option.isSome_iff_exists.mp (isSome_siteIn?_iff.mpr hd)
          rw [hsite]
          exact ⟨_, rfl, trivial⟩
      next => exact ⟨b, rfl⟩
    obtain ⟨shared, hshared, -⟩ := hshares
    unfold Graph.effects
    rw [hshared]
    exact ⟨_, rfl⟩

end Graph

end ControlFlow
