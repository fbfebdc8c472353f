import ControlFlow.Proofs.Tree.Scope

/-! # Names and what introduces them

A variable that is named in a body is introduced there by a declaration statement of a block around
the name, by a loop around it, or by a catch around it, whose parameter it is. Each name is listed
with all that is introduced around it, wherever in its block a declaration stands. Removal that
spares the declarations of whatever is named takes nothing away from the names that are left.
-/

namespace ControlFlow

/-- The variables that are introduced around a place in a body. -/
structure Binders where
  /-- By declaration statements and by loops. -/
  declared : List DeclId
  /-- As the parameters of catches. -/
  caught : List DeclId

namespace Binders

def none : Binders := ⟨[], []⟩

/-- In a block with some statements. -/
def within (b : Binders) (ss : List Stmt) : Binders :=
  { b with declared := ss.filterMap Stmt.declared? ++ b.declared }

/-- In the body of a `for`. -/
def looping (b : Binders) (var : LoopVar) : Binders := { b with declared := var.decl :: b.declared }

/-- In the body of a catch. -/
def catching (b : Binders) (param : Option DeclId) : Binders :=
  { b with caught := param.toList ++ b.caught }

end Binders

/-- A name that was resolved to a variable. -/
structure Mention where
  decl : DeclId
  /-- The name stands in the initial value of a view or an iterator. -/
  shared : Bool
  binders : Binders

/-- The names in some expressions of one statement. -/
def mentionsIn (b : Binders) (shared : Bool) (es : List Expr) : List Mention :=
  es.filterMap fun e => e.named?.map fun d => ⟨d, shared, b⟩

/-- Whether the expressions of a statement are the initial value of a view or an iterator. -/
def Simple.shares : Simple → Bool
  | .declare var => var.ty.isAliasing
  | _ => false

mutual

/-- The names in a statement, at any depth. -/
def Stmt.mentions (b : Binders) : Stmt → List Mention
  | .simple _ what => mentionsIn b what.shares what.exprs
  | .jump _ how => mentionsIn b false how.exprs
  | .block _ ⟨_, body⟩ => mentionsOf (b.within body) body
  | .while _ cond ⟨_, body⟩ none => mentionsIn b false cond.walk ++ mentionsOf (b.within body) body
  | .while _ cond ⟨_, body⟩ (some ⟨_, orElse⟩) =>
      mentionsIn b false cond.walk ++ mentionsOf (b.within body) body ++
        mentionsOf (b.within orElse) orElse
  | .for _ var seq ⟨_, body⟩ =>
      mentionsIn b false seq.walk ++ mentionsOf ((b.looping var).within body) body
  | .if _ cond ⟨_, body⟩ none => mentionsIn b false cond.walk ++ mentionsOf (b.within body) body
  | .if _ cond ⟨_, body⟩ (some ⟨_, orElse⟩) =>
      mentionsIn b false cond.walk ++ mentionsOf (b.within body) body ++
        mentionsOf (b.within orElse) orElse
  | .try _ ⟨_, body⟩ catches => mentionsOf (b.within body) body ++ mentionsOfCatches b catches

/-- The names in a sequence of statements. -/
def mentionsOf (b : Binders) : List Stmt → List Mention
  | [] => []
  | s :: rest => s.mentions b ++ mentionsOf b rest

def mentionsOfCatches (b : Binders) : List Catch → List Mention
  | [] => []
  | ⟨_, param, ⟨_, body⟩⟩ :: rest =>
      mentionsOf ((b.catching param).within body) body ++ mentionsOfCatches b rest

end

/-- The names in a block that nothing is around. -/
def Block.mentions (b : Block) : List Mention := mentionsOf (Binders.none.within b.stmts) b.stmts

/-- The names in the initial value of a global, which nothing is around. -/
def Global.mentions (v : Global) : List Mention :=
  mentionsIn .none v.ty.isAliasing ((v.init.map Expr.walk).getD [])

variable {b b' : Binders} {shared : Bool} {es : List Expr} {ss : List Stmt} {d : DeclId}
  {doomed : Stmt → Bool} {named : List DeclId} {μ : Mention}

theorem mentions_while (id : TreeId) (cond : Expr) (bid : TreeId) (body : List Stmt)
    (orElse : Option Block) : (Stmt.while id cond ⟨bid, body⟩ orElse).mentions b =
      mentionsIn b false cond.walk ++ mentionsOf (b.within body) body ++
        mentionsOf (b.within (elseOf orElse)) (elseOf orElse) := by
  rcases orElse with _ | ⟨eid, orElse⟩ <;> simp [Stmt.mentions, mentionsOf]

theorem mentions_if (id : TreeId) (cond : Expr) (bid : TreeId) (body : List Stmt)
    (orElse : Option Block) : (Stmt.if id cond ⟨bid, body⟩ orElse).mentions b =
      mentionsIn b false cond.walk ++ mentionsOf (b.within body) body ++
        mentionsOf (b.within (elseOf orElse)) (elseOf orElse) := by
  rcases orElse with _ | ⟨eid, orElse⟩ <;> simp [Stmt.mentions, mentionsOf]

theorem mem_mentionsIn : μ ∈ mentionsIn b shared es ↔
    μ.decl ∈ es.filterMap Expr.named? ∧ μ.shared = shared ∧ μ.binders = b := by
  simp only [mentionsIn, List.mem_filterMap, Option.map_eq_some_iff]
  constructor
  · rintro ⟨e, he, d, hd, rfl⟩
    exact ⟨⟨e, he, hd⟩, rfl, rfl⟩
  · rintro ⟨⟨e, he, hd⟩, rfl, rfl⟩
    exact ⟨e, he, _, hd, rfl⟩

/-! ## What views and iterators are initialised from -/

/-- The variables that a view or an iterator is initialised from by a statement. -/
def Stmt.referents : Stmt → List DeclId
  | .simple _ what => if what.shares then what.exprs.filterMap Expr.named? else []
  | _ => []

/-- The shared variables of some names. -/
def sharedOf (μs : List Mention) : List DeclId := (μs.filter Mention.shared).map Mention.decl

theorem sharedOf_append (μs νs : List Mention) :
    sharedOf (μs ++ νs) = sharedOf μs ++ sharedOf νs := by
  simp [sharedOf]

theorem sharedOf_mentionsIn (b : Binders) (shared : Bool) (es : List Expr) :
    sharedOf (mentionsIn b shared es) = if shared then es.filterMap Expr.named? else [] := by
  induction es with
  | nil => cases shared <;> rfl
  | cons e rest ih =>
      simp only [mentionsIn, sharedOf] at ih ⊢
      cases hd : e.named? with
      | none => simpa [List.filterMap_cons, hd] using ih
      | some d => cases shared <;> simpa [List.filterMap_cons, hd] using ih

/-- The names in initial values of views and iterators are those that statements refer into. -/
theorem sharedOf_mentions :
    (∀ s : Stmt, ∀ b, sharedOf (s.mentions b) = s.referents ++ s.inner.flatMap Stmt.referents) ∧
    (∀ ss, ∀ b, sharedOf (mentionsOf b ss) = (stmtsOf ss).flatMap Stmt.referents) ∧
    (∀ cs, ∀ b, sharedOf (mentionsOfCatches b cs) =
      (stmtsOfCatches cs).flatMap Stmt.referents) := by
  have hcontrol (b : Binders) (es : List Expr) : sharedOf (mentionsIn b false es) = [] :=
    sharedOf_mentionsIn b false es
  refine tree_induction ?simple ?jump ?block ?while_ ?for_ ?if_ ?try_ ?nil ?cons ?noCatch ?catch_
  case simple =>
    intro id what b
    rw [Stmt.mentions, sharedOf_mentionsIn, Stmt.inner, List.flatMap_nil, List.append_nil,
      Stmt.referents]
  case jump =>
    intro id how b
    rw [Stmt.mentions, hcontrol]
    rfl
  case block => exact fun _ _ _ ih b => ih _
  case while_ =>
    intro id cond bid body orElse ihbody ihelse b
    simp only [mentions_while, inner_while, sharedOf_append, hcontrol, ihbody, ihelse,
      List.flatMap_append]
    rfl
  case for_ =>
    intro id var seq bid body ih b
    simp only [Stmt.mentions, Stmt.inner, sharedOf_append, hcontrol, ih]
    rfl
  case if_ =>
    intro id cond bid body orElse ihbody ihelse b
    simp only [mentions_if, inner_if, sharedOf_append, hcontrol, ihbody, ihelse,
      List.flatMap_append]
    rfl
  case try_ =>
    intro id bid body catches ihbody ihcatches b
    simp only [Stmt.mentions, Stmt.inner, sharedOf_append, ihbody, ihcatches, List.flatMap_append]
    rfl
  case nil => exact fun _ => rfl
  case cons =>
    intro s rest ihs ihrest b
    simp only [mentionsOf, stmtsOf, sharedOf_append, ihs, ihrest, List.flatMap_cons,
      List.flatMap_append, List.append_assoc]
  case noCatch => exact fun _ => rfl
  case catch_ =>
    intro id param bid body rest ihbody ihrest b
    simp only [mentionsOfCatches, stmtsOfCatches, sharedOf_append, ihbody, ihrest,
      List.flatMap_append]

/-! ## What is introduced -/

/-- The variables that statements introduce, at any depth; the parameters of catches are not among
them. -/
def introducedBy (ss : List Stmt) : List DeclId :=
  (stmtsOf ss).flatMap fun s => s.ownPoints.filterMap Point.declared?

theorem introduced_of_declared {s : Stmt} (h : s.declared? = some d) :
    s.ownPoints.filterMap Point.declared? = [d] := by
  unfold Stmt.declared? at h
  split at h
  next id var =>
    cases h
    rfl
  next => cases h

theorem mem_stmtsOf_of_mem {s : Stmt} (hs : s ∈ ss) : s ∈ stmtsOf ss := by
  induction ss with
  | nil => cases hs
  | cons t rest ih =>
      rw [stmtsOf]
      rcases List.mem_cons.mp hs with rfl | hrest
      · exact List.mem_cons_self
      · exact List.mem_cons_of_mem t (List.mem_append_right _ (ih hrest))

theorem declared_subset (ss : List Stmt) : ss.filterMap Stmt.declared? ⊆ introducedBy ss := by
  intro d hd
  obtain ⟨s, hs, hdeclared⟩ := List.mem_filterMap.mp hd
  refine List.mem_flatMap.mpr ⟨s, mem_stmtsOf_of_mem hs, ?_⟩
  rw [introduced_of_declared hdeclared]
  exact List.mem_singleton_self d

/-- Whatever is declared around some names was declared there before, or is introduced by one of
some statements. -/
def BoundBy (b : Binders) (ss : List Stmt) (μs : List Mention) : Prop :=
  ∀ μ ∈ μs, ∀ d ∈ μ.binders.declared, d ∈ b.declared ∨
    ∃ s ∈ ss, d ∈ s.ownPoints.filterMap Point.declared?

theorem BoundBy.mono {ts : List Stmt} {μs : List Mention} (h : BoundBy b ss μs) (hsub : ss ⊆ ts) :
    BoundBy b ts μs :=
  fun μ hμ d hd => (h μ hμ d hd).imp_right fun ⟨s, hs, hd⟩ => ⟨s, hsub hs, hd⟩

theorem BoundBy.append {ts : List Stmt} {μs νs : List Mention} (h : BoundBy b ss μs)
    (h' : BoundBy b ts νs) : BoundBy b (ss ++ ts) (μs ++ νs) :=
  List.forall_mem_append.mpr ⟨h.mono (List.subset_append_left _ _),
    h'.mono (List.subset_append_right _ _)⟩

/-- What a block declares is introduced by statements in it. -/
theorem BoundBy.of_within {μs : List Mention} (h : BoundBy (b.within ss) (stmtsOf ss) μs) :
    BoundBy b (stmtsOf ss) μs := by
  intro μ hμ d hd
  rcases h μ hμ d hd with hwithin | hinside
  · rcases List.mem_append.mp hwithin with hdeclared | hbefore
    · exact .inr (List.mem_flatMap.mp (declared_subset ss hdeclared))
    · exact .inl hbefore
  · exact .inr hinside

theorem boundBy_mentionsIn (b : Binders) (shared : Bool) (es : List Expr) (ss : List Stmt) :
    BoundBy b ss (mentionsIn b shared es) := by
  intro μ hμ d hd
  rw [(mem_mentionsIn.mp hμ).2.2] at hd
  exact .inl hd

theorem boundBy_mentions :
    (∀ s : Stmt, ∀ b, BoundBy b (s :: s.inner) (s.mentions b)) ∧
    (∀ ss, ∀ b, BoundBy b (stmtsOf ss) (mentionsOf b ss)) ∧
    (∀ cs, ∀ b, BoundBy b (stmtsOfCatches cs) (mentionsOfCatches b cs)) := by
  refine tree_induction ?simple ?jump ?block ?while_ ?for_ ?if_ ?try_ ?nil ?cons ?noCatch ?catch_
  case simple => exact fun _ _ b => boundBy_mentionsIn b _ _ _
  case jump => exact fun _ _ b => boundBy_mentionsIn b _ _ _
  case block =>
    intro id bid body ih b
    exact (ih _).of_within.mono (List.subset_cons_self _ _)
  case while_ =>
    intro id cond bid body orElse ihbody ihelse b
    rw [mentions_while, inner_while, List.append_assoc]
    exact (boundBy_mentionsIn b _ _ [_]).append ((ihbody _).of_within.append (ihelse _).of_within)
  case for_ =>
    intro id var seq bid body ih b
    refine (boundBy_mentionsIn b _ _ []).append fun μ hμ d hd => ?_
    -- The variable of the loop is introduced by the loop itself.
    rcases (ih _).of_within μ hμ d hd with hbefore | ⟨s, hs, hd⟩
    · rcases List.mem_cons.mp hbefore with rfl | hbefore
      · exact .inr ⟨_, List.mem_cons_self, List.mem_cons_self⟩
      · exact .inl hbefore
    · exact .inr ⟨s, List.mem_cons_of_mem _ hs, hd⟩
  case if_ =>
    intro id cond bid body orElse ihbody ihelse b
    rw [mentions_if, inner_if, List.append_assoc]
    exact (boundBy_mentionsIn b _ _ [_]).append ((ihbody _).of_within.append (ihelse _).of_within)
  case try_ =>
    intro id bid body catches ihbody ihcatches b
    exact ((ihbody _).of_within.append (ihcatches b)).mono (List.subset_cons_self _ _)
  case nil => exact fun _ _ hμ => nomatch hμ
  case cons => exact fun _ _ ihs ihrest b => (ihs b).append (ihrest b)
  case noCatch => exact fun _ _ hμ => nomatch hμ
  case catch_ =>
    intro id param bid body rest ihbody ihrest b
    have hbody : BoundBy b (stmtsOf body) (mentionsOf ((b.catching param).within body) body) :=
      (ihbody ((b.catching param).within body)).of_within
    exact hbody.append (ihrest b)

/-- Whatever is declared around a name in a block is introduced by a statement of the block. -/
theorem Block.introduced_of_mem_declared {block : Block} (hμ : μ ∈ block.mentions)
    (hd : d ∈ μ.binders.declared) : d ∈ introducedBy block.stmts := by
  rcases (boundBy_mentions.2.1 block.stmts _).of_within μ hμ d hd with hnone | hinside
  · cases hnone
  · exact List.mem_flatMap.mpr hinside

/-! ## Removal -/

/-- All that is named and was declared is still declared. -/
def Binders.Keep (named : List DeclId) (b b' : Binders) : Prop :=
  ∀ d ∈ named, d ∈ b.declared → d ∈ b'.declared

/-- Each name was there before, and it is still declared around it if it was. -/
def Remain (μs νs : List Mention) : Prop :=
  ∀ ν ∈ νs, ∃ μ ∈ μs, μ.decl = ν.decl ∧ μ.shared = ν.shared ∧
    (μ.decl ∈ μ.binders.declared → ν.decl ∈ ν.binders.declared)

theorem Remain.append {μs μs' νs νs' : List Mention} (h : Remain μs νs) (h' : Remain μs' νs') :
    Remain (μs ++ μs') (νs ++ νs') := by
  refine List.forall_mem_append.mpr ⟨fun ν hν => ?_, fun ν hν => ?_⟩
  · obtain ⟨μ, hμ, hsame⟩ := h ν hν
    exact ⟨μ, List.mem_append_left _ hμ, hsame⟩
  · obtain ⟨μ, hμ, hsame⟩ := h' ν hν
    exact ⟨μ, List.mem_append_right _ hμ, hsame⟩

theorem remain_mentionsIn (hkeep : b.Keep named b') (hnamed : es.filterMap Expr.named? ⊆ named)
    (shared : Bool) : Remain (mentionsIn b shared es) (mentionsIn b' shared es) := by
  intro ν hν
  obtain ⟨hdecl, hshared, hbinders⟩ := mem_mentionsIn.mp hν
  refine ⟨⟨ν.decl, shared, b⟩, mem_mentionsIn.mpr ⟨hdecl, rfl, rfl⟩, rfl, hshared.symm, fun hd => ?_⟩
  rw [hbinders]
  exact hkeep _ (hnamed hdecl) hd

/-- A block keeps the declarations that are spared. -/
theorem Binders.Keep.within (h : b.Keep named b')
    (hspares : ∀ t ∈ stmtsOf ss, ∀ d ∈ named, t.declared? = some d → doomed t = false) :
    (b.within ss).Keep named (b'.within (stmtsWithout doomed ss)) := by
  intro d hd hdeclared
  refine List.mem_append.mpr ((List.mem_append.mp hdeclared).imp (fun hblock => ?_) (h d hd))
  obtain ⟨s, hs, hs'⟩ := List.mem_filterMap.mp hblock
  have hstays : ∀ ss : List Stmt, s ∈ ss → doomed s = false → s ∈ stmtsWithout doomed ss := by
    intro ss hs hspared
    induction ss with
    | nil => cases hs
    | cons t rest ih =>
        rw [stmtsWithout_cons]
        rcases List.mem_cons.mp hs with rfl | hrest
        · rw [stmtsWithout_single hspared, without_of_declared hs']
          exact List.mem_append_left _ (List.mem_singleton_self s)
        · exact List.mem_append_right _ (ih hrest)
  exact List.mem_filterMap.mpr ⟨s, hstays ss hs (hspares s (mem_stmtsOf_of_mem hs) d hd hs'), hs'⟩

theorem Binders.Keep.looping (h : b.Keep named b') (var : LoopVar) :
    (b.looping var).Keep named (b'.looping var) :=
  fun d hd hdeclared => List.mem_cons.mpr ((List.mem_cons.mp hdeclared).imp_right (h d hd))

theorem Binders.Keep.catching (h : b.Keep named b') (param : Option DeclId) :
    (b.catching param).Keep named (b'.catching param) :=
  h

/-- Removal that spares the declarations of whatever is named takes nothing away from names. -/
theorem remain_without :
    (∀ s : Stmt, ∀ b b', b.Keep named b' → s.exprs.filterMap Expr.named? ⊆ named →
      (∀ t ∈ s.inner, ∀ d ∈ named, t.declared? = some d → doomed t = false) →
      Remain (s.mentions b) ((s.without doomed).mentions b')) ∧
    (∀ ss, ∀ b b', b.Keep named b' → (exprsOf ss).filterMap Expr.named? ⊆ named →
      (∀ t ∈ stmtsOf ss, ∀ d ∈ named, t.declared? = some d → doomed t = false) →
      Remain (mentionsOf b ss) (mentionsOf b' (stmtsWithout doomed ss))) ∧
    (∀ cs, ∀ b b', b.Keep named b' → (exprsOfCatches cs).filterMap Expr.named? ⊆ named →
      (∀ t ∈ stmtsOfCatches cs, ∀ d ∈ named, t.declared? = some d → doomed t = false) →
      Remain (mentionsOfCatches b cs) (mentionsOfCatches b' (catchesWithout doomed cs))) := by
  refine tree_induction ?simple ?jump ?block ?while_ ?for_ ?if_ ?try_ ?nil ?cons ?noCatch ?catch_
  case simple => exact fun _ _ _ _ hkeep hnamed _ => remain_mentionsIn hkeep hnamed _
  case jump => exact fun _ _ _ _ hkeep hnamed _ => remain_mentionsIn hkeep hnamed _
  case block =>
    intro id bid body ih b b' hkeep hnamed hspares
    exact ih _ _ (hkeep.within hspares) hnamed hspares
  case while_ =>
    intro id cond bid body orElse ihbody ihelse b b' hkeep hnamed hspares
    rw [exprs_while, List.filterMap_append, List.filterMap_append, List.append_subset,
      List.append_subset] at hnamed
    rw [inner_while, List.forall_mem_append] at hspares
    rw [without_while, mentions_while, mentions_while, elseOf_without]
    exact ((remain_mentionsIn hkeep hnamed.1.1 _).append
      (ihbody _ _ (hkeep.within hspares.1) hnamed.1.2 hspares.1)).append
      (ihelse _ _ (hkeep.within hspares.2) hnamed.2 hspares.2)
  case for_ =>
    intro id var seq bid body ih b b' hkeep hnamed hspares
    rw [Stmt.exprs, List.filterMap_append, List.append_subset] at hnamed
    exact (remain_mentionsIn hkeep hnamed.1 _).append
      (ih _ _ ((hkeep.looping var).within hspares) hnamed.2 hspares)
  case if_ =>
    intro id cond bid body orElse ihbody ihelse b b' hkeep hnamed hspares
    rw [exprs_if, List.filterMap_append, List.filterMap_append, List.append_subset,
      List.append_subset] at hnamed
    rw [inner_if, List.forall_mem_append] at hspares
    rw [without_if, mentions_if, mentions_if, elseOf_without]
    exact ((remain_mentionsIn hkeep hnamed.1.1 _).append
      (ihbody _ _ (hkeep.within hspares.1) hnamed.1.2 hspares.1)).append
      (ihelse _ _ (hkeep.within hspares.2) hnamed.2 hspares.2)
  case try_ =>
    intro id bid body catches ihbody ihcatches b b' hkeep hnamed hspares
    rw [Stmt.exprs, List.filterMap_append, List.append_subset] at hnamed
    rw [Stmt.inner, List.forall_mem_append] at hspares
    exact (ihbody _ _ (hkeep.within hspares.1) hnamed.1 hspares.1).append
      (ihcatches _ _ hkeep hnamed.2 hspares.2)
  case nil => exact fun _ _ _ _ _ => List.forall_mem_nil _
  case cons =>
    intro s rest ihs ihrest b b' hkeep hnamed hspares
    rw [exprsOf, List.filterMap_append, List.append_subset] at hnamed
    rw [stmtsOf, List.forall_mem_cons, List.forall_mem_append] at hspares
    have hrest := ihrest b b' hkeep hnamed.2 hspares.2.2
    rw [stmtsWithout]
    split
    next =>
      have hgone : Remain (s.mentions b) [] := List.forall_mem_nil _
      exact hgone.append hrest
    next => exact (ihs b b' hkeep hnamed.1 hspares.2.1).append hrest
  case noCatch => exact fun _ _ _ _ _ => List.forall_mem_nil _
  case catch_ =>
    intro id param bid body rest ihbody ihrest b b' hkeep hnamed hspares
    rw [exprsOfCatches, List.filterMap_append, List.append_subset] at hnamed
    rw [stmtsOfCatches, List.forall_mem_append] at hspares
    exact (ihbody _ _ ((hkeep.catching param).within hspares.1) hnamed.1 hspares.1).append
      (ihrest _ _ hkeep hnamed.2 hspares.2)

end ControlFlow
