import ControlFlow.Proofs.Tree.Behind
import ControlFlow.Proofs.Tree.Without

/-! # What goes when statements are removed

A statement that is removed takes along everything nested in it. Every statement of a tree either
is left, without what went inside it, or goes, and it goes if it is doomed or nested in a doomed
statement.
-/

namespace ControlFlow

variable {doomed : Stmt → Bool} {s t : Stmt}

mutual

/-- The statements nested in a statement that go with the doomed ones. -/
def Stmt.takenInside (doomed : Stmt → Bool) : Stmt → List Stmt
  | .simple _ _ | .jump _ _ => []
  | .block _ ⟨_, body⟩ => takenOf doomed body
  | .while _ _ ⟨_, body⟩ none => takenOf doomed body
  | .while _ _ ⟨_, body⟩ (some ⟨_, orElse⟩) => takenOf doomed body ++ takenOf doomed orElse
  | .for _ _ _ ⟨_, body⟩ => takenOf doomed body
  | .if _ _ ⟨_, body⟩ none => takenOf doomed body
  | .if _ _ ⟨_, body⟩ (some ⟨_, orElse⟩) => takenOf doomed body ++ takenOf doomed orElse
  | .try _ ⟨_, body⟩ catches => takenOf doomed body ++ takenOfCatches doomed catches

/-- The statements of a sequence, at any depth, that go with the doomed ones. -/
def takenOf (doomed : Stmt → Bool) : List Stmt → List Stmt
  | [] => []
  | s :: rest =>
      (if doomed s then s :: s.inner else s.takenInside doomed) ++ takenOf doomed rest

def takenOfCatches (doomed : Stmt → Bool) : List Catch → List Stmt
  | [] => []
  | ⟨_, _, ⟨_, body⟩⟩ :: rest => takenOf doomed body ++ takenOfCatches doomed rest

end

@[simp] theorem takenInside_while (id : TreeId) (cond : Expr) (bid : TreeId) (body : List Stmt)
    (orElse : Option Block) : (Stmt.while id cond ⟨bid, body⟩ orElse).takenInside doomed =
      takenOf doomed body ++ takenOf doomed (elseOf orElse) := by
  rcases orElse with _ | ⟨_, _⟩ <;> simp [Stmt.takenInside, takenOf]

@[simp] theorem takenInside_if (id : TreeId) (cond : Expr) (bid : TreeId) (body : List Stmt)
    (orElse : Option Block) : (Stmt.if id cond ⟨bid, body⟩ orElse).takenInside doomed =
      takenOf doomed body ++ takenOf doomed (elseOf orElse) := by
  rcases orElse with _ | ⟨_, _⟩ <;> simp [Stmt.takenInside, takenOf]

/-! ## Nesting -/

/-- What is nested in a part of a tree is nested in the tree. -/
theorem inner_subset (t : Stmt) :
    (∀ s : Stmt, t ∈ s.inner → t.inner ⊆ s.inner) ∧
    (∀ ss, t ∈ stmtsOf ss → t.inner ⊆ stmtsOf ss) ∧
    (∀ cs, t ∈ stmtsOfCatches cs → t.inner ⊆ stmtsOfCatches cs) := by
  have hboth {as bs : List Stmt} (has : t ∈ as → t.inner ⊆ as) (hbs : t ∈ bs → t.inner ⊆ bs)
      (h : t ∈ as ++ bs) : t.inner ⊆ as ++ bs := by
    rcases List.mem_append.mp h with h | h
    · exact List.subset_append_of_subset_left _ (has h)
    · exact List.subset_append_of_subset_right _ (hbs h)
  refine tree_induction ?simple ?jump ?block ?while_ ?for_ ?if_ ?try_ ?nil ?cons ?noCatch ?catch_
  case simple => exact fun _ _ h => absurd h List.not_mem_nil
  case jump => exact fun _ _ h => absurd h List.not_mem_nil
  case block => exact fun _ _ _ ih => ih
  case while_ =>
    intro id cond bid body orElse ihbody ihelse
    rw [inner_while]
    exact hboth ihbody ihelse
  case for_ => exact fun _ _ _ _ _ ih => ih
  case if_ =>
    intro id cond bid body orElse ihbody ihelse
    rw [inner_if]
    exact hboth ihbody ihelse
  case try_ => exact fun _ _ _ _ ihbody ihcatches => hboth ihbody ihcatches
  case nil => exact fun h => absurd h List.not_mem_nil
  case cons =>
    intro s rest ihs ihrest h
    rw [stmtsOf] at h ⊢
    rcases List.mem_cons.mp h with rfl | h
    · exact List.subset_cons_of_subset _ (List.subset_append_left _ _)
    · exact List.subset_cons_of_subset _ (hboth ihs ihrest h)
  case noCatch => exact fun h => absurd h List.not_mem_nil
  case catch_ => exact fun _ _ _ _ _ ihbody ihrest => hboth ihbody ihrest

/-- What is nested in a statement behind a jump is behind the jump as well. -/
theorem Block.BehindJump.inner {b : Block} (h : b.BehindJump t) (hs : s ∈ t.inner) :
    b.BehindJump s := by
  obtain ⟨c, hc, before, jump, after, heq, hjump, ht⟩ := h
  exact ⟨c, hc, before, jump, after, heq, hjump, (inner_subset t).2.1 after ht hs⟩

/-! ## What goes and what is left -/

/-- The statements of a tree are those that are left and those that go, each without the doomed
ones nested in it. -/
theorem stmts_perm_taken :
    (∀ s : Stmt, (s.inner.map (Stmt.without doomed)).Perm
      ((s.without doomed).inner ++ (s.takenInside doomed).map (Stmt.without doomed))) ∧
    (∀ ss, ((stmtsOf ss).map (Stmt.without doomed)).Perm
      (stmtsOf (stmtsWithout doomed ss) ++ (takenOf doomed ss).map (Stmt.without doomed))) ∧
    (∀ cs, ((stmtsOfCatches cs).map (Stmt.without doomed)).Perm
      (stmtsOfCatches (catchesWithout doomed cs) ++
        (takenOfCatches doomed cs).map (Stmt.without doomed))) := by
  have hboth {as bs ts us : List Stmt} {ls ms : List Stmt}
      (h : (as.map (Stmt.without doomed)).Perm (ls ++ ts.map (Stmt.without doomed)))
      (h' : (bs.map (Stmt.without doomed)).Perm (ms ++ us.map (Stmt.without doomed))) :
      ((as ++ bs).map (Stmt.without doomed)).Perm
        ((ls ++ ms) ++ (ts ++ us).map (Stmt.without doomed)) := by
    rw [List.map_append, List.map_append]
    exact perm_append_of_split h h'
  refine tree_induction ?simple ?jump ?block ?while_ ?for_ ?if_ ?try_ ?nil ?cons ?noCatch ?catch_
  case simple => exact fun _ _ => .nil
  case jump => exact fun _ _ => .nil
  case block => exact fun _ _ _ ih => ih
  case while_ =>
    intro id cond bid body orElse ihbody ihelse
    rw [without_while, inner_while, inner_while, takenInside_while, elseOf_without]
    exact hboth ihbody ihelse
  case for_ => exact fun _ _ _ _ _ ih => ih
  case if_ =>
    intro id cond bid body orElse ihbody ihelse
    rw [without_if, inner_if, inner_if, takenInside_if, elseOf_without]
    exact hboth ihbody ihelse
  case try_ => exact fun _ _ _ _ ihbody ihcatches => hboth ihbody ihcatches
  case nil => exact .nil
  case cons =>
    intro s rest ihs ihrest
    rw [stmtsOf, stmtsWithout, takenOf, ← List.cons_append]
    by_cases hs : doomed s = true
    · -- The whole statement goes, and everything nested in it.
      have hwhole : ((s :: s.inner).map (Stmt.without doomed)).Perm
          ([] ++ (s :: s.inner).map (Stmt.without doomed)) := .refl _
      rw [if_pos hs, if_pos hs]
      exact hboth hwhole ihrest
    · have hparts : ((s :: s.inner).map (Stmt.without doomed)).Perm
          ((s.without doomed :: (s.without doomed).inner) ++
            (s.takenInside doomed).map (Stmt.without doomed)) := ihs.cons _
      rw [if_neg hs, if_neg hs, stmtsOf, ← List.cons_append]
      exact hboth hparts ihrest
  case noCatch => exact .nil
  case catch_ => exact fun _ _ _ _ _ ihbody ihrest => hboth ihbody ihrest

/-- What goes is doomed or nested in what is doomed. -/
theorem mem_taken (s : Stmt) :
    (∀ u : Stmt, s ∈ u.takenInside doomed ↔
      ∃ t ∈ u.inner, doomed t = true ∧ s ∈ t :: t.inner) ∧
    (∀ ss, s ∈ takenOf doomed ss ↔ ∃ t ∈ stmtsOf ss, doomed t = true ∧ s ∈ t :: t.inner) ∧
    (∀ cs, s ∈ takenOfCatches doomed cs ↔
      ∃ t ∈ stmtsOfCatches cs, doomed t = true ∧ s ∈ t :: t.inner) := by
  have hboth {as bs ts us : List Stmt}
      (h : s ∈ ts ↔ ∃ t ∈ as, doomed t = true ∧ s ∈ t :: t.inner)
      (h' : s ∈ us ↔ ∃ t ∈ bs, doomed t = true ∧ s ∈ t :: t.inner) :
      s ∈ ts ++ us ↔ ∃ t ∈ as ++ bs, doomed t = true ∧ s ∈ t :: t.inner := by
    simp only [List.mem_append, h, h', or_and_right, exists_or]
  have hnone : s ∈ ([] : List Stmt) ↔ ∃ t ∈ ([] : List Stmt), doomed t = true ∧ s ∈ t :: t.inner :=
    ⟨nofun, nofun⟩
  refine tree_induction ?simple ?jump ?block ?while_ ?for_ ?if_ ?try_ ?nil ?cons ?noCatch ?catch_
  case simple => exact fun _ _ => hnone
  case jump => exact fun _ _ => hnone
  case block => exact fun _ _ _ ih => ih
  case while_ =>
    intro id cond bid body orElse ihbody ihelse
    rw [takenInside_while, inner_while]
    exact hboth ihbody ihelse
  case for_ => exact fun _ _ _ _ _ ih => ih
  case if_ =>
    intro id cond bid body orElse ihbody ihelse
    rw [takenInside_if, inner_if]
    exact hboth ihbody ihelse
  case try_ => exact fun _ _ _ _ ihbody ihcatches => hboth ihbody ihcatches
  case nil => exact hnone
  case cons =>
    intro u rest ihu ihrest
    rw [takenOf, stmtsOf, ← List.cons_append]
    refine hboth ?_ ihrest
    by_cases hu : doomed u = true
    · rw [if_pos hu]
      constructor
      · exact fun hs => ⟨u, List.mem_cons_self, hu, hs⟩
      · rintro ⟨t, ht, -, hs⟩
        rcases List.mem_cons.mp ht with rfl | ht
        · exact hs
        · rcases List.mem_cons.mp hs with rfl | hs
          · exact List.mem_cons_of_mem _ ht
          · exact List.mem_cons_of_mem _ ((inner_subset t).1 u ht hs)
    · rw [if_neg hu, ihu]
      simp [hu]
  case noCatch => exact hnone
  case catch_ => exact fun _ _ _ _ _ ihbody ihrest => hboth ihbody ihrest

/-- Where the numbers of statements are distinct, a statement is gone if and only if it is doomed or
nested in a doomed one; all others are left. -/
theorem gone_iff {ss : List Stmt} (hids : ((stmtsOf ss).map Stmt.id).Nodup)
    (hs : s ∈ stmtsOf ss) : s.id ∉ (stmtsOf (stmtsWithout doomed ss)).map Stmt.id ↔
      ∃ t ∈ stmtsOf ss, doomed t = true ∧ s ∈ t :: t.inner := by
  have hid (ts : List Stmt) : (ts.map (Stmt.without doomed)).map Stmt.id = ts.map Stmt.id := by
    rw [List.map_map]
    exact List.map_congr_left fun t _ => id_without t
  have hperm := ((@stmts_perm_taken doomed).2.1 ss).map Stmt.id
  rw [hid, List.map_append, hid] at hperm
  have hdisjoint := (List.nodup_append'.mp (hperm.nodup hids)).2.2
  rw [← (mem_taken s).2.1 ss]
  constructor
  · intro hgone
    obtain ⟨t, ht, heq⟩ := List.mem_map.mp ((List.mem_append.mp
      (hperm.mem_iff.mp (List.mem_map_of_mem hs))).resolve_left hgone)
    obtain ⟨u, hu, hdoomed, htu⟩ := ((mem_taken t).2.1 ss).mp ht
    have hmem : t ∈ stmtsOf ss := by
      rcases List.mem_cons.mp htu with rfl | htu
      · exact hu
      · exact (inner_subset u).2.1 ss hu htu
    rwa [← List.inj_on_of_nodup_map hids hmem hs heq]
  · exact fun htaken hleft => hdisjoint hleft (List.mem_map_of_mem htaken)

/-- What is behind a jump in what is left was behind it before. -/
theorem deadStmts_without_subset :
    (∀ s : Stmt, (s.without doomed).deadInner ⊆ s.deadInner.map (Stmt.without doomed)) ∧
    (∀ ss, deadStmtsOf (stmtsWithout doomed ss) ⊆
      (deadStmtsOf ss).map (Stmt.without doomed)) ∧
    (∀ cs, deadStmtsOfCatches (catchesWithout doomed cs) ⊆
      (deadStmtsOfCatches cs).map (Stmt.without doomed)) := by
  have hboth {as bs ls ms : List Stmt} (h : ls ⊆ as.map (Stmt.without doomed))
      (h' : ms ⊆ bs.map (Stmt.without doomed)) :
      ls ++ ms ⊆ (as ++ bs).map (Stmt.without doomed) := by
    rw [List.map_append]
    exact append_subset_append h h'
  refine tree_induction ?simple ?jump ?block ?while_ ?for_ ?if_ ?try_ ?nil ?cons ?noCatch ?catch_
  case simple => exact fun _ _ => List.Subset.refl _
  case jump => exact fun _ _ => List.Subset.refl _
  case block => exact fun _ _ _ ih => ih
  case while_ =>
    intro id cond bid body orElse ihbody ihelse
    rw [without_while, deadInner_while, deadInner_while, elseOf_without]
    exact hboth ihbody ihelse
  case for_ => exact fun _ _ _ _ _ ih => ih
  case if_ =>
    intro id cond bid body orElse ihbody ihelse
    rw [without_if, deadInner_if, deadInner_if, elseOf_without]
    exact hboth ihbody ihelse
  case try_ => exact fun _ _ _ _ ihbody ihcatches => hboth ihbody ihcatches
  case nil => exact List.Subset.refl _
  case cons =>
    intro s rest ihs ihrest
    have hrest : (if s.isJump then stmtsOf (stmtsWithout doomed rest)
        else deadStmtsOf (stmtsWithout doomed rest)) ⊆
        (if s.isJump then stmtsOf rest else deadStmtsOf rest).map (Stmt.without doomed) := by
      split
      · exact (stmts_without_sublist.2.1 rest).subset
      · exact ihrest
    by_cases hs : doomed s = true
    · rw [stmtsWithout, if_pos hs, deadStmtsOf, List.map_append]
      refine List.subset_append_of_subset_right _ (List.Subset.trans ihrest (List.map_subset _ ?_))
      split
      · exact deadStmtsOf_subset rest
      · exact List.Subset.refl _
    · rw [stmtsWithout, if_neg hs, deadStmtsOf, deadStmtsOf, isJump_without]
      exact hboth ihs hrest
  case noCatch => exact List.Subset.refl _
  case catch_ => exact fun _ _ _ _ _ ihbody ihrest => hboth ihbody ihrest

/-- The expressions in what is left are expressions from before. -/
theorem exprs_without_subset :
    (∀ s : Stmt, (s.without doomed).exprs ⊆ s.exprs) ∧
    (∀ ss, exprsOf (stmtsWithout doomed ss) ⊆ exprsOf ss) ∧
    (∀ cs, exprsOfCatches (catchesWithout doomed cs) ⊆ exprsOfCatches cs) := by
  refine tree_induction ?simple ?jump ?block ?while_ ?for_ ?if_ ?try_ ?nil ?cons ?noCatch ?catch_
  case simple => exact fun _ _ => List.Subset.refl _
  case jump => exact fun _ _ => List.Subset.refl _
  case block => exact fun _ _ _ ih => ih
  case while_ =>
    intro id cond bid body orElse ihbody ihelse
    rw [without_while, exprs_while, exprs_while, elseOf_without]
    exact append_subset_append (append_subset_append (List.Subset.refl _) ihbody) ihelse
  case for_ => exact fun _ _ _ _ _ ih => append_subset_append (List.Subset.refl _) ih
  case if_ =>
    intro id cond bid body orElse ihbody ihelse
    rw [without_if, exprs_if, exprs_if, elseOf_without]
    exact append_subset_append (append_subset_append (List.Subset.refl _) ihbody) ihelse
  case try_ => exact fun _ _ _ _ ihbody ihcatches => append_subset_append ihbody ihcatches
  case nil => exact List.Subset.refl _
  case cons =>
    intro s rest ihs ihrest
    rw [stmtsWithout, exprsOf]
    split
    · exact List.subset_append_of_subset_right _ ihrest
    · exact append_subset_append ihs ihrest
  case noCatch => exact List.Subset.refl _
  case catch_ => exact fun _ _ _ _ _ ihbody ihrest => append_subset_append ihbody ihrest

end ControlFlow
