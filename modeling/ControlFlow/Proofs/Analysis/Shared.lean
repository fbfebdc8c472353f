import ControlFlow.Proofs.Analysis.Noted
import ControlFlow.Proofs.Analysis.Sited

/-! # What shares storage

When all nodes have shared back, two variables refer into each other exactly if one of them is
initialised from the other and is a view or an iterator. A node reads what it names, and what the
nodes of these variables refer into; the references are followed no further.
-/

namespace ControlFlow

namespace Graph

variable {g : Graph} {d own : DeclId} {m n : NodeId} {p : Point} {effects shared : Array Effect}

/-! ## Sites -/

/-- A node introduces a variable. -/
def IntroducesAt (g : Graph) (n : NodeId) (d : DeclId) : Prop :=
  ∃ p, g.nodes[n]? = some p ∧ p.declared? = some d

/-- No variable is introduced by two nodes. -/
def OneSite (g : Graph) : Prop := (g.nodes.filterMap Point.declared?).Nodup

theorem IntroducesAt.unique {d d' : DeclId} (h : g.IntroducesAt n d) (h' : g.IntroducesAt n d') :
    d = d' := by
  obtain ⟨p, hp, hd⟩ := h
  obtain ⟨q, hq, hd'⟩ := h'
  cases hp.symm.trans hq
  exact Option.some.inj (hd.symm.trans hd')

theorem OneSite.eq (h : g.OneSite) (hm : g.IntroducesAt m d)
    (hn : g.IntroducesAt n d) : m = n := by
  have hlt {i j : NodeId} (hi : g.IntroducesAt i d) (hj : g.IntroducesAt j d) : ¬ i < j := by
    intro hij
    obtain ⟨p, hp, hpd⟩ := hi
    obtain ⟨q, hq, hqd⟩ := hj
    obtain ⟨hilt, rfl⟩ := List.getElem?_eq_some_iff.mp hp
    obtain ⟨hjlt, rfl⟩ := List.getElem?_eq_some_iff.mp hq
    have hpairs := List.pairwise_filterMap.mp h
    exact List.pairwise_iff_getElem.mp hpairs i j hilt hjlt hij d hpd d hqd rfl
  exact Nat.le_antisymm (Nat.not_lt.mp (hlt hn hm)) (Nat.not_lt.mp (hlt hm hn))

theorem introducesAt_of_declSite? (h : g.declSite? d = some n) : g.IntroducesAt n d := by
  obtain ⟨⟨d', n'⟩, hfind, rfl⟩ := Option.map_eq_some_iff.mp h
  have hd : d' = d := by simpa using List.find?_some hfind
  have hmem := List.mem_of_find?_eq_some hfind
  simp only [sites, List.mem_reverse, List.mem_filterMap] at hmem
  obtain ⟨⟨p, m⟩, hp, hpair⟩ := hmem
  obtain ⟨own, hown, heq⟩ := Option.map_eq_some_iff.mp hpair
  cases heq
  exact ⟨p, List.mk_mem_zipIdx_iff_getElem?.mp hp, hd ▸ hown⟩

theorem OneSite.declSite?_eq_some (h : g.OneSite) :
    g.declSite? d = some n ↔ g.IntroducesAt n d := by
  refine ⟨introducesAt_of_declSite?, fun hn => ?_⟩
  have hsome : (siteIn? g.sites d).isSome = true := by
    obtain ⟨p, hp, hd⟩ := hn
    exact isSome_siteIn?_iff.mpr ⟨p, List.mem_of_getElem? hp, hd⟩
  obtain ⟨m, hm⟩ := Option.isSome_iff_exists.mp hsome
  rw [h.eq hn (introducesAt_of_declSite? hm)]
  exact hm

/-! ## References -/

/-- A node refers into a variable by itself. -/
def Names (g : Graph) (n : NodeId) (d : DeclId) : Prop :=
  ∃ p, g.nodes[n]? = some p ∧ d ∈ (g.effect p).aliases

/-- A node refers into a variable, as its effect says. -/
def Refers (effects : Array Effect) (n : NodeId) (d : DeclId) : Prop :=
  ∃ e, effects[n]? = some e ∧ d ∈ e.aliases

theorem refers_modify {site : NodeId} :
    Refers (effects.modify site (Effect.addAlias own)) n d ↔
      Refers effects n d ∨ (site = n ∧ n < effects.size ∧ d = own) := by
  unfold Refers
  rw [Array.getElem?_modify]
  by_cases hsite : site = n
  · subst hsite
    by_cases hn : site < effects.size
    · simp [hn, Effect.addAlias, or_comm]
    · simp [hn]
  · simp [hsite]

/-- A node refers into a variable once all have shared back: by itself, or because a node of that
variable refers into the node's own variable by itself. -/
def Shares (g : Graph) (n : NodeId) (d : DeclId) : Prop :=
  g.Names n d ∨ ∃ own m, g.IntroducesAt n own ∧ g.IntroducesAt m d ∧ g.Names m own

theorem Shares.symm (h : g.Shares n d) (hone : g.OneSite) (hn : g.IntroducesAt n own)
    (hm : g.IntroducesAt m d) : g.Shares m own := by
  rcases h with hnames | ⟨own', m', hn', hm', hnames⟩
  · exact .inr ⟨d, n, hm, hn, hnames⟩
  · cases hn.unique hn'
    cases hone.eq hm hm'
    exact .inl hnames

/-! ## Sharing back -/

/-- While the nodes share back, none refers into more than it shares in the end, and what they read
stays as it is. -/
structure Sound (g : Graph) (effects : Array Effect) : Prop where
  shares : ∀ n d, Refers effects n d → g.Shares n d
  uses_eq : ∀ (n : NodeId) (p : Point) (e : Effect), g.nodes[n]? = some p →
    effects[n]? = some e → e.uses = (g.effect p).uses

theorem sound_initial (g : Graph) : g.Sound (g.nodes.map g.effect).toArray := by
  constructor
  · rintro n d ⟨e, he, hd⟩
    rw [List.getElem?_toArray, List.getElem?_map] at he
    obtain ⟨p, hp, rfl⟩ := Option.map_eq_some_iff.mp he
    exact .inl ⟨p, hp, hd⟩
  · intro n p e hp he
    rw [List.getElem?_toArray, List.getElem?_map, hp] at he
    cases he
    rfl

theorem Sound.modify (h : g.Sound effects) (hshares : g.Shares m own) :
    g.Sound (effects.modify m (Effect.addAlias own)) := by
  constructor
  · intro n d hrefers
    rcases refers_modify.mp hrefers with hbefore | ⟨rfl, -, rfl⟩
    · exact h.shares n d hbefore
    · exact hshares
  · intro n p e hp he
    rw [Array.getElem?_modify] at he
    split at he
    · obtain ⟨e', he', rfl⟩ := Option.map_eq_some_iff.mp he
      exact h.uses_eq n p e' hp he'
    · exact h.uses_eq n p e hp he

/-- A node shares back only what is shared the other way round. -/
theorem Sound.shareBack (h : g.Sound effects) (hone : g.OneSite)
    (hshare : g.shareBack g.sites effects n = .ok shared) : g.Sound shared := by
  refine shareBack_induction h (fun p e own d site b hp he hown hd hsite hb => ?_) hshare
  have hshares : g.Shares n d := h.shares n d ⟨e, he, hd⟩
  exact hb.modify (hshares.symm hone ⟨p, hp, hown⟩ (introducesAt_of_declSite? hsite))

theorem sound_of_shareAliases (hone : g.OneSite)
    (hshared : g.shareAliases (g.nodes.map g.effect).toArray = .ok shared) : g.Sound shared :=
  foldlM_ok_invariant (fun _ _ _ _ hb hgoes => hb.shareBack hone hgoes) (sound_initial g) hshared

/-- No reference is dropped while a node shares back. -/
theorem refers_of_shareBack {sites : List (DeclId × NodeId)} {k : NodeId}
    (h : Refers effects m d) (hshare : g.shareBack sites effects k = .ok shared) :
    Refers shared m d :=
  shareBack_induction (P := fun effects => Refers effects m d) h
    (fun _ _ _ _ _ _ _ _ _ _ _ hb => refers_modify.mpr (.inl hb)) hshare

/-- When a node has shared back, it is referred back to from where it refers to. -/
theorem refers_back (hn : g.IntroducesAt n own) (hrefers : Refers effects n d)
    (hsite : g.declSite? d = some m) (hm : m < effects.size)
    (hshare : g.shareBack g.sites effects n = .ok shared) : Refers shared m own := by
  obtain ⟨p, hp, hown⟩ := hn
  obtain ⟨e, he, hd⟩ := hrefers
  unfold Graph.shareBack at hshare
  simp only [hp, he, hown] at hshare
  refine foldlM_ok_establishes (P := fun b => m < b.size) (Q := fun b => Refers b m own)
    ?_ ?_ hd ?_ hm hshare
  · intro b d' _ b' hsize hgoes
    split at hgoes
    · cases hgoes
      rwa [Array.size_modify]
    · cases hgoes
  · intro b d' _ b' hb hgoes
    split at hgoes
    · cases hgoes
      exact refers_modify.mpr (.inl hb)
    · cases hgoes
  · intro b b' hsize hgoes
    have hsite : siteIn? g.sites d = some m := hsite
    rw [hsite] at hgoes
    cases hgoes
    exact refers_modify.mpr (.inr ⟨rfl, hsize, rfl⟩)

theorem refers_widen {sites : List (DeclId × NodeId)} {b : Array Effect} :
    Refers (effects.map (widenUses sites b)) n d ↔ Refers effects n d := by
  unfold Refers
  rw [Array.getElem?_map]
  cases effects[n]? <;> simp [widenUses]

/-- Once all nodes have shared back, they refer into what they share. -/
theorem refers_iff (hone : g.OneSite) (heffects : g.effects = .ok effects) :
    Refers effects n d ↔ g.Shares n d := by
  obtain ⟨shared, hshared, rfl⟩ := effects_eq heffects
  rw [refers_widen]
  have hsharing (b : Array Effect) (k : NodeId) (b' : Array Effect) (hb : g.Sharing b)
      (hgoes : g.shareBack g.sites b k = .ok b') : g.Sharing b' := hb.shareBack hgoes
  constructor
  · intro hrefers
    exact (sound_of_shareAliases hone hshared).shares n d hrefers
  · rintro (⟨p, hp, hd⟩ | ⟨own, m, hn, hm, ⟨p, hp, hd⟩⟩)
    · have hend : g.Sharing shared :=
        foldlM_ok_invariant (fun b k _ => hsharing b k) (sharing_initial g) hshared
      have hlt : n < shared.size := hend.size_eq ▸ (List.getElem?_eq_some_iff.mp hp).1
      have he := Array.getElem?_eq_getElem hlt
      exact ⟨_, he, hend.keeps n p _ hp he hd⟩
    · -- The other node names the own variable of this one, and tells it so in its turn.
      have hmlt := (List.getElem?_eq_some_iff.mp hp).1
      refine foldlM_ok_establishes (P := g.Sharing) (Q := fun b => Refers b n d)
        (fun b k _ => hsharing b k) (fun b k _ b' hb hgoes => refers_of_shareBack hb hgoes)
        (List.mem_range.mpr hmlt) ?_ (sharing_initial g) hshared
      intro b b' hb hgoes
      have he := Array.getElem?_eq_getElem (hb.size_eq.symm ▸ hmlt : m < b.size)
      have hsite : g.declSite? own = some n := hone.declSite?_eq_some.mpr hn
      obtain ⟨q, hq, -⟩ := hn
      have hnlt : n < b.size := hb.size_eq.symm ▸ (List.getElem?_eq_some_iff.mp hq).1
      exact refers_back hm ⟨_, he, hb.keeps m p _ hp he hd⟩ hsite hnlt hgoes

/-- References go both ways. -/
theorem Refers.symm (h : Refers effects n d) (hone : g.OneSite) (heffects : g.effects = .ok effects)
    (hn : g.IntroducesAt n own) : ∃ m, g.IntroducesAt m d ∧ Refers effects m own := by
  have hshares : g.Shares n d := (refers_iff hone heffects).mp h
  have hsite : ∃ m, g.IntroducesAt m d := by
    rcases hshares with ⟨p, hp, hd⟩ | ⟨-, m, -, hm, -⟩
    · obtain ⟨q, hq, hdecl⟩ :=
        effects_ok_iff.mp ⟨effects, heffects⟩ p (List.mem_of_getElem? hp) d hd
      obtain ⟨m, hm⟩ := List.getElem?_of_mem hq
      exact ⟨m, q, hm, hdecl⟩
    · exact ⟨m, hm⟩
  obtain ⟨m, hm⟩ := hsite
  exact ⟨m, hm, (refers_iff hone heffects).mpr (hshares.symm hone hn hm)⟩

end Graph

/-! ## What is read -/

/-- A variable is named in what is evaluated at a point. -/
def Point.Reads (p : Point) (d : DeclId) : Prop := ∃ s ∈ p.evaluated, s.named? = some d

namespace Graph

variable {g : Graph} {d : DeclId} {n : NodeId} {p : Point} {e : Effect} {effects : Array Effect}

theorem mem_uses_effect : d ∈ (g.effect p).uses ↔ p.Reads d :=
  Ascending.mem_ofList.trans ((pointEffect_notes p).uses d)

/-- A node reads what it names, and what the nodes of these variables refer into. -/
theorem mem_uses_iff (hone : g.OneSite) (heffects : g.effects = .ok effects)
    (hp : g.nodes[n]? = some p) (he : effects[n]? = some e) :
    d ∈ e.uses ↔ p.Reads d ∨ ∃ u s, p.Reads u ∧ g.IntroducesAt s u ∧ Refers effects s d := by
  obtain ⟨shared, hshared, rfl⟩ := effects_eq heffects
  have hsound := sound_of_shareAliases hone hshared
  rw [Array.getElem?_map] at he
  obtain ⟨e', he', rfl⟩ := Option.map_eq_some_iff.mp he
  have huses (u : DeclId) : u ∈ e'.uses ↔ p.Reads u := by
    rw [hsound.uses_eq n p e' hp he']
    exact mem_uses_effect
  have hshares (u : DeclId) : d ∈ sharedWith g.sites shared u ↔
      ∃ s, g.IntroducesAt s u ∧ Refers shared s d := by
    unfold sharedWith Refers
    simp only [← hone.declSite?_eq_some, declSite?]
    cases siteIn? g.sites u with
    | none => simp
    | some s => cases hs : shared[s]? <;> simp [hs]
  simp only [widenUses, Ascending.mem_insertAll, List.mem_flatMap, huses, hshares, refers_widen]
  rw [or_comm]
  simp only [exists_and_left]

/-- Once a graph in which no variable has two nodes is classified, a node reads what it names and
what the nodes of these variables refer into, and nothing else. Two variables refer into each other
exactly if one of them names the other one in its initial value. So what is read is closed under
references at the variables that are named, and altogether if each variable shares its storage with
one other variable at most. -/
theorem uses_follow_named (hone : g.OneSite) (heffects : g.effects = .ok effects)
    (hp : g.nodes[n]? = some p) :
    ∃ e, effects[n]? = some e ∧
      (∀ d, d ∈ e.uses ↔
        p.Reads d ∨ ∃ u s, p.Reads u ∧ g.IntroducesAt s u ∧ Refers effects s d) ∧
      (∀ s d, Refers effects s d ↔ g.Shares s d) ∧
      ∀ d ∈ e.uses, (p.Reads d ∨ ∀ s a b, Refers effects s a → Refers effects s b → a = b) →
        ∀ s a, g.IntroducesAt s d → Refers effects s a → a ∈ e.uses := by
  obtain ⟨e, he, -⟩ := exists_effect (classifies_effects heffects) hp
  have huses (d : DeclId) := mem_uses_iff (d := d) hone heffects hp he
  have hnamed {d a : DeclId} {s : NodeId} (hd : p.Reads d) (hs : g.IntroducesAt s d)
      (ha : Refers effects s a) : a ∈ e.uses := (huses a).mpr (.inr ⟨d, s, hd, hs, ha⟩)
  refine ⟨e, he, huses, fun s d => refers_iff hone heffects, fun d hd hclosed s a hs ha => ?_⟩
  rcases hclosed with hread | hpairs
  · exact hnamed hread hs ha
  · rcases (huses d).mp hd with hread | ⟨u, t, hu, ht, hrefers⟩
    · exact hnamed hread hs ha
    · -- The node of the variable refers back to what is named, and so to nothing else.
      obtain ⟨s', hs', hback⟩ := hrefers.symm hone heffects ht
      cases hone.eq hs hs'
      cases hpairs s a u ha hback
      exact (huses a).mpr (.inl hu)

/-- A store through a vector. -/
def slotStore : Stmt :=
  let target := Expr.operator 9 "[]" [.name 7 "v" (some 0), .literal 8 (.int 0)]
  .simple 12 (.expr (.assign 11 target (.literal 10 (.int 5))))

/-- A reader of an iterator over it. -/
def secondReader : Stmt :=
  .jump 15 (.return (some (.operator 14 "*" [.name 13 "second" (some 2)])))

/-- A module with both, where the iterator is a copy of another one. -/
def relaying : Module :=
  let iterator := Ty.iterator .vector
  let first := Expr.operator 3 "begin" [.name 2 "v" (some 0)]
  ⟨"m", [⟨0, "v", .localVariable, .other "vector<int>", false⟩,
      ⟨1, "first", .localVariable, iterator, false⟩,
      ⟨2, "second", .localVariable, iterator, false⟩], [],
    ⟨16, [.simple 1 (.declare ⟨0, "v", .other "vector<int>", none⟩),
      .simple 4 (.declare ⟨1, "first", iterator, some first⟩),
      .simple 6 (.declare ⟨2, "second", iterator, some (.name 5 "first" (some 1))⟩),
      slotStore, secondReader]⟩, []⟩

/-- The effects in that module. -/
def relayingEffects : Array Effect :=
  #[.none, .none, ⟨[], [0], [1], false, false⟩, ⟨[0, 1], [1], [0, 2], false, false⟩,
    ⟨[0, 1, 2], [2], [1], false, false⟩, ⟨[0, 1], [0], [], false, false⟩,
    ⟨[1, 2], [], [], true, false⟩]

/-- The reader of the second iterator reads the first one as well. -/
theorem uses_follow_named_relaying : (ofModule relaying).OneSite ∧
    (ofModule relaying).effects = .ok relayingEffects ∧
    (ofModule relaying).nodes[6]? = some (.stmt secondReader) ∧
    ∃ e, relayingEffects[6]? = some e ∧ 2 ∈ e.uses ∧ 1 ∈ e.uses := by
  have hone : (ofModule relaying).OneSite := by
    unfold OneSite
    decide
  have heffects : (ofModule relaying).effects = .ok relayingEffects := by
    with_unfolding_all rfl
  have hp : (ofModule relaying).nodes[6]? = some (.stmt secondReader) := rfl
  obtain ⟨e, he, huses, -, hclosed⟩ := uses_follow_named hone heffects hp
  have hreads : (Point.stmt secondReader).Reads 2 := by
    refine ⟨.name 13 "second" (some 2), ?_, rfl⟩
    simp [Point.evaluated, Point.exprs, Point.roots, secondReader, Expr.walk, walkEach]
  have hread : 2 ∈ e.uses := (huses 2).mpr (.inl hreads)
  have hsite : (ofModule relaying).IntroducesAt 4 2 := ⟨_, rfl, rfl⟩
  have hrefers : Refers relayingEffects 4 1 := ⟨_, rfl, List.mem_cons_self⟩
  exact ⟨hone, heffects, hp, e, he, hread, hclosed 2 hread (.inl hreads) 4 1 hsite hrefers⟩

/-- The reader of the second iterator does not read the vector, which the first one refers into, and
the store through the vector is unused. -/
theorem uses_stop_after_named : ∃ e r, (ofModule relaying).OneSite ∧
    (ofModule relaying).effects = .ok relayingEffects ∧ relayingEffects[6]? = some e ∧
    1 ∈ e.uses ∧ (ofModule relaying).IntroducesAt 3 1 ∧ relayingEffects[3]? = some r ∧
    0 ∈ r.aliases ∧ 0 ∉ e.uses ∧
    (ofModule relaying).nodes[5]? = some (.stmt slotStore) ∧
    (Analysis.solved (ofModule relaying) relayingEffects).unused = .ok [5] := by
  refine ⟨_, _, ?_, ?_, rfl, ?_, ⟨_, rfl, rfl⟩, rfl, ?_, ?_, rfl, ?_⟩
  · unfold OneSite
    decide
  · with_unfolding_all rfl
  · decide
  · decide
  · decide
  · cbv

end Graph

end ControlFlow
