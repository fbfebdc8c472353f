import ControlFlow.Proofs.Tree.Parts
import ControlFlow.Tree.Removal

/-! # What is left after statements were removed

Removing doomed statements leaves a smaller tree if there is one, and the same tree if there is
none. Whatever is left was there before, in the same order.
-/

namespace ControlFlow

variable {doomed : Stmt → Bool}

theorem without_while (id : TreeId) (cond : Expr) (bid : TreeId) (body : List Stmt)
    (orElse : Option Block) : (Stmt.while id cond ⟨bid, body⟩ orElse).without doomed =
      .while id cond ⟨bid, stmtsWithout doomed body⟩ (orElse.map (Block.without doomed)) := by
  rcases orElse with _ | ⟨eid, orElse⟩ <;> rfl

theorem without_if (id : TreeId) (cond : Expr) (bid : TreeId) (body : List Stmt)
    (orElse : Option Block) : (Stmt.if id cond ⟨bid, body⟩ orElse).without doomed =
      .if id cond ⟨bid, stmtsWithout doomed body⟩ (orElse.map (Block.without doomed)) := by
  rcases orElse with _ | ⟨eid, orElse⟩ <;> rfl

theorem elseOf_without (orElse : Option Block) :
    elseOf (orElse.map (Block.without doomed)) = stmtsWithout doomed (elseOf orElse) := by
  rcases orElse with _ | ⟨eid, orElse⟩ <;> rfl

theorem stmtsWithout_cons (s : Stmt) (rest : List Stmt) :
    stmtsWithout doomed (s :: rest) = stmtsWithout doomed [s] ++ stmtsWithout doomed rest := by
  by_cases hs : doomed s = true
  · simp [stmtsWithout, hs]
  · simp [stmtsWithout, hs]

theorem stmtsWithout_single {s : Stmt} (hs : doomed s = false) :
    stmtsWithout doomed [s] = [s.without doomed] := by
  simp [stmtsWithout, hs]

theorem catchesWithout_eq_map (cs : List Catch) : catchesWithout doomed cs =
    cs.map fun c => ⟨c.id, c.param, ⟨c.body.id, stmtsWithout doomed c.body.stmts⟩⟩ := by
  induction cs with
  | nil => rfl
  | cons c rest ih =>
      obtain ⟨id, param, bid, body⟩ := c
      rw [catchesWithout, ih]
      rfl

/-! ## Sizes -/

theorem size_while (id : TreeId) (cond : Expr) (bid : TreeId) (body : List Stmt)
    (orElse : Option Block) : (Stmt.while id cond ⟨bid, body⟩ orElse).size =
      1 + sizeOfSeq body + sizeOfSeq (elseOf orElse) := by
  rcases orElse with _ | ⟨eid, orElse⟩ <;> rfl

theorem size_if (id : TreeId) (cond : Expr) (bid : TreeId) (body : List Stmt)
    (orElse : Option Block) : (Stmt.if id cond ⟨bid, body⟩ orElse).size =
      1 + sizeOfSeq body + sizeOfSeq (elseOf orElse) := by
  rcases orElse with _ | ⟨eid, orElse⟩ <;> rfl

theorem size_pos (s : Stmt) : 0 < s.size := by
  unfold Stmt.size
  split <;> omega

/-- Removal never lets a size grow, and makes it smaller if it is that of statements of which some
are doomed. -/
structure Shrinks (doomed : Stmt → Bool) (ss : List Stmt) (after before : Nat) : Prop where
  le : after ≤ before
  lt : (∃ t ∈ ss, doomed t = true) → after < before

namespace Shrinks

variable {ss ts : List Stmt} {n n' k k' : Nat}

theorem rfl_nil (n : Nat) : Shrinks doomed [] n n := ⟨Nat.le_refl n, nofun⟩

theorem append (h : Shrinks doomed ss n k) (h' : Shrinks doomed ts n' k') :
    Shrinks doomed (ss ++ ts) (n + n') (k + k') := by
  refine ⟨Nat.add_le_add h.le h'.le, ?_⟩
  rintro ⟨t, ht, hdoomed⟩
  rcases List.mem_append.mp ht with ht | ht
  · exact Nat.add_lt_add_of_lt_of_le (h.lt ⟨t, ht, hdoomed⟩) h'.le
  · exact Nat.add_lt_add_of_le_of_lt h.le (h'.lt ⟨t, ht, hdoomed⟩)

/-- A statement that stays counts before and after. -/
theorem succ (h : Shrinks doomed ss n k) : Shrinks doomed ss (1 + n) (1 + k) :=
  ⟨Nat.add_le_add_left h.le 1, fun hdoomed => Nat.add_lt_add_left (h.lt hdoomed) 1⟩

end Shrinks

/-- Removal lets a tree shrink. -/
theorem shrinks_without :
    (∀ s : Stmt, Shrinks doomed s.inner (s.without doomed).size s.size) ∧
    (∀ ss, Shrinks doomed (stmtsOf ss) (sizeOfSeq (stmtsWithout doomed ss)) (sizeOfSeq ss)) ∧
    (∀ cs, Shrinks doomed (stmtsOfCatches cs) (sizeOfCatches (catchesWithout doomed cs))
      (sizeOfCatches cs)) := by
  refine tree_induction ?simple ?jump ?block ?while_ ?for_ ?if_ ?try_ ?nil ?cons ?noCatch ?catch_
  case simple => exact fun _ _ => .rfl_nil _
  case jump => exact fun _ _ => .rfl_nil _
  case block => exact fun _ _ _ ih => ih.succ
  case while_ =>
    intro id cond bid body orElse ihbody ihelse
    rw [without_while, size_while, size_while, elseOf_without, inner_while]
    exact ihbody.succ.append ihelse
  case for_ => exact fun _ _ _ _ _ ih => ih.succ
  case if_ =>
    intro id cond bid body orElse ihbody ihelse
    rw [without_if, size_if, size_if, elseOf_without, inner_if]
    exact ihbody.succ.append ihelse
  case try_ => exact fun _ _ _ _ ihbody ihcatches => ihbody.succ.append ihcatches
  case nil => exact .rfl_nil _
  case cons =>
    intro s rest ihs ihrest
    simp only [stmtsWithout, stmtsOf, sizeOfSeq]
    split
    next hs =>
      -- The whole statement goes, and it counts for something.
      have hlt := Nat.add_lt_add_of_lt_of_le (size_pos s) ihrest.le
      rw [Nat.zero_add] at hlt
      exact ⟨Nat.le_of_lt hlt, fun _ => hlt⟩
    next hs =>
      refine ⟨(ihs.append ihrest).le, ?_⟩
      rintro ⟨t, ht, hdoomed⟩
      rcases List.mem_cons.mp ht with rfl | ht
      · exact absurd hdoomed hs
      · exact (ihs.append ihrest).lt ⟨t, ht, hdoomed⟩
  case noCatch => exact .rfl_nil _
  case catch_ => exact fun _ _ _ _ _ ihbody ihrest => ihbody.append ihrest

theorem size_without_lt {b : Block} (h : ∃ s ∈ b.allStmts, doomed s = true) :
    (b.without doomed).size < b.size :=
  (shrinks_without.2.1 b.stmts).lt h

/-- Without anything doomed, nothing changes. -/
theorem without_none :
    (∀ s : Stmt, s.without (fun _ => false) = s) ∧
    (∀ ss, stmtsWithout (fun _ => false) ss = ss) ∧
    (∀ cs, catchesWithout (fun _ => false) cs = cs) := by
  refine tree_induction ?simple ?jump ?block ?while_ ?for_ ?if_ ?try_ ?nil ?cons ?noCatch ?catch_
  case simple => exact fun _ _ => rfl
  case jump => exact fun _ _ => rfl
  case block =>
    intro id bid body ih
    rw [Stmt.without, ih]
  case while_ =>
    intro id cond bid body orElse ihbody ihelse
    rcases orElse with _ | ⟨eid, orElse⟩
    · rw [Stmt.without, ihbody]
    · rw [elseOf_some] at ihelse
      rw [Stmt.without, ihbody, ihelse]
  case for_ =>
    intro id var seq bid body ih
    rw [Stmt.without, ih]
  case if_ =>
    intro id cond bid body orElse ihbody ihelse
    rcases orElse with _ | ⟨eid, orElse⟩
    · rw [Stmt.without, ihbody]
    · rw [elseOf_some] at ihelse
      rw [Stmt.without, ihbody, ihelse]
  case try_ =>
    intro id bid body catches ihbody ihcatches
    rw [Stmt.without, ihbody, ihcatches]
  case nil => rfl
  case cons =>
    intro s rest ihs ihrest
    rw [stmtsWithout, if_neg Bool.false_ne_true, ihs, ihrest]
  case noCatch => rfl
  case catch_ =>
    intro id param bid body rest ihbody ihrest
    rw [catchesWithout, ihbody, ihrest]

/-! ## Parts -/

theorem pointsOf_without :
    (∀ s : Stmt, pointsOf [s.without doomed] ⊆ pointsOf [s]) ∧
    (∀ ss, pointsOf (stmtsWithout doomed ss) ⊆ pointsOf ss) ∧
    (∀ cs, pointsOfCatches (catchesWithout doomed cs) ⊆ pointsOfCatches cs) := by
  refine tree_induction ?simple ?jump ?block ?while_ ?for_ ?if_ ?try_ ?nil ?cons ?noCatch ?catch_
  case simple => exact fun _ _ => List.Subset.refl _
  case jump => exact fun _ _ => List.Subset.refl _
  case block =>
    intro id bid body ih
    simpa [Stmt.without] using ih
  case while_ =>
    intro id cond bid body orElse ihbody ihelse
    rw [without_while, pointsOf_while, pointsOf_while, elseOf_without]
    exact List.cons_subset_cons _ (append_subset_append ihbody ihelse)
  case for_ =>
    intro id var seq bid body ih
    simp only [Stmt.without, pointsOf_for]
    exact List.cons_subset_cons _ (List.cons_subset_cons _ ih)
  case if_ =>
    intro id cond bid body orElse ihbody ihelse
    rw [without_if, pointsOf_if, pointsOf_if, elseOf_without]
    exact List.cons_subset_cons _ (append_subset_append ihbody ihelse)
  case try_ =>
    intro id bid body catches ihbody ihcatches
    simp only [Stmt.without, pointsOf_try]
    exact append_subset_append ihbody ihcatches
  case nil => exact List.Subset.refl _
  case cons =>
    intro s rest ihs ihrest
    rw [pointsOf_cons s, stmtsWithout]
    split
    · exact List.subset_append_of_subset_right _ ihrest
    · rw [pointsOf_cons]
      exact append_subset_append ihs ihrest
  case noCatch => exact List.Subset.refl _
  case catch_ =>
    intro id param bid body rest ihbody ihrest
    simp only [catchesWithout, pointsOfCatches_cons]
    exact append_subset_append ihbody ihrest

/-- What is left has its numbers, in the same order. -/
theorem ids_without_sublist :
    (∀ s : Stmt, (s.without doomed).ids.Sublist s.ids) ∧
    (∀ ss, (idsOf (stmtsWithout doomed ss)).Sublist (idsOf ss)) ∧
    (∀ cs, (idsOfCatches (catchesWithout doomed cs)).Sublist (idsOfCatches cs)) := by
  refine tree_induction ?simple ?jump ?block ?while_ ?for_ ?if_ ?try_ ?nil ?cons ?noCatch ?catch_
  case simple => exact fun _ _ => List.Sublist.refl _
  case jump => exact fun _ _ => List.Sublist.refl _
  case block => exact fun id bid _ ih => (ih.cons_cons bid).cons_cons id
  case while_ =>
    intro id cond bid body orElse ihbody ihelse
    rcases orElse with _ | ⟨eid, orElse⟩
    · exact ((List.Sublist.refl _).append (ihbody.cons_cons bid)).cons_cons id
    · rw [elseOf_some] at ihelse
      exact ((List.Sublist.refl _).append
        ((ihbody.append (ihelse.cons_cons eid)).cons_cons bid)).cons_cons id
  case for_ =>
    intro id var seq bid body ih
    exact ((List.Sublist.refl _).append ((ih.cons_cons bid).cons_cons var.id)).cons_cons id
  case if_ =>
    intro id cond bid body orElse ihbody ihelse
    rcases orElse with _ | ⟨eid, orElse⟩
    · exact ((List.Sublist.refl _).append (ihbody.cons_cons bid)).cons_cons id
    · rw [elseOf_some] at ihelse
      exact ((List.Sublist.refl _).append
        ((ihbody.append (ihelse.cons_cons eid)).cons_cons bid)).cons_cons id
  case try_ =>
    intro id bid body catches ihbody ihcatches
    exact ((ihbody.append ihcatches).cons_cons bid).cons_cons id
  case nil => exact List.Sublist.refl _
  case cons =>
    intro s rest ihs ihrest
    rw [stmtsWithout]
    split
    · exact ihrest.trans (List.sublist_append_right _ _)
    · exact ihs.append ihrest
  case noCatch => exact List.Sublist.refl _
  case catch_ =>
    intro id param bid body rest ihbody ihrest
    exact ((ihbody.append ihrest).cons_cons bid).cons_cons id

theorem id_without (s : Stmt) : (s.without doomed).id = s.id := by
  unfold Stmt.without
  split <;> rfl

theorem isJump_without (s : Stmt) : (s.without doomed).isJump = s.isJump := by
  unfold Stmt.without
  split <;> rfl

/-- A statement that stays shows the points that it showed. -/
theorem ownPoints_without (s : Stmt) : (s.without doomed).ownPoints = s.ownPoints := by
  unfold Stmt.without
  split <;> rfl

/-- The statements that are left are statements from before, each without what went inside. -/
theorem stmts_without_sublist :
    (∀ s : Stmt, (s.without doomed).inner.Sublist (s.inner.map (Stmt.without doomed))) ∧
    (∀ ss, (stmtsOf (stmtsWithout doomed ss)).Sublist
      ((stmtsOf ss).map (Stmt.without doomed))) ∧
    (∀ cs, (stmtsOfCatches (catchesWithout doomed cs)).Sublist
      ((stmtsOfCatches cs).map (Stmt.without doomed))) := by
  refine tree_induction ?simple ?jump ?block ?while_ ?for_ ?if_ ?try_ ?nil ?cons ?noCatch ?catch_
  case simple => exact fun _ _ => List.Sublist.refl _
  case jump => exact fun _ _ => List.Sublist.refl _
  case block => exact fun _ _ _ ih => ih
  case while_ =>
    intro id cond bid body orElse ihbody ihelse
    rw [without_while, inner_while, inner_while, elseOf_without, List.map_append]
    exact ihbody.append ihelse
  case for_ => exact fun _ _ _ _ _ ih => ih
  case if_ =>
    intro id cond bid body orElse ihbody ihelse
    rw [without_if, inner_if, inner_if, elseOf_without, List.map_append]
    exact ihbody.append ihelse
  case try_ =>
    intro id bid body catches ihbody ihcatches
    rw [Stmt.without, Stmt.inner, Stmt.inner, List.map_append]
    exact ihbody.append ihcatches
  case nil => exact List.Sublist.refl _
  case cons =>
    intro s rest ihs ihrest
    rw [stmtsWithout, stmtsOf, List.map_cons, List.map_append]
    split
    · exact (ihrest.trans (List.sublist_append_right _ _)).cons _
    · exact (ihs.append ihrest).cons_cons _
  case noCatch => exact List.Sublist.refl _
  case catch_ =>
    intro id param bid body rest ihbody ihrest
    rw [catchesWithout, stmtsOfCatches, stmtsOfCatches, List.map_append]
    exact ihbody.append ihrest

theorem stmt_ids_without_sublist (ss : List Stmt) :
    ((stmtsOf (stmtsWithout doomed ss)).map Stmt.id).Sublist ((stmtsOf ss).map Stmt.id) := by
  have hids : (stmtsOf ss).map Stmt.id = ((stmtsOf ss).map (Stmt.without doomed)).map Stmt.id := by
    rw [List.map_map]
    exact List.map_congr_left fun s _ => (id_without s).symm
  rw [hids]
  exact (stmts_without_sublist.2.1 ss).map Stmt.id

/-! ## Removing twice -/

theorem else_without (orElse : Option Block) (p q r : Stmt → Bool)
    (h : stmtsWithout q (stmtsWithout p (elseOf orElse)) = stmtsWithout r (elseOf orElse)) :
    (orElse.map (Block.without p)).map (Block.without q) = orElse.map (Block.without r) := by
  rcases orElse with _ | ⟨eid, orElse⟩
  · rfl
  · rw [elseOf_some] at h
    simp [Block.without, h]

/-- Where the numbers alone tell what is doomed, two removals come to one. -/
theorem without_without (p q : TreeId → Bool) :
    (∀ s : Stmt, (s.without fun t => p t.id).without (fun t => q t.id) =
      s.without fun t => p t.id || q t.id) ∧
    (∀ ss, stmtsWithout (fun t => q t.id) (stmtsWithout (fun t => p t.id) ss) =
      stmtsWithout (fun t => p t.id || q t.id) ss) ∧
    (∀ cs, catchesWithout (fun t => q t.id) (catchesWithout (fun t => p t.id) cs) =
      catchesWithout (fun t => p t.id || q t.id) cs) := by
  refine tree_induction ?simple ?jump ?block ?while_ ?for_ ?if_ ?try_ ?nil ?cons ?noCatch ?catch_
  case simple => exact fun _ _ => rfl
  case jump => exact fun _ _ => rfl
  case block =>
    intro id bid body ih
    simp only [Stmt.without, ih]
  case while_ =>
    intro id cond bid body orElse ihbody ihelse
    simp only [without_while, ihbody, else_without orElse _ _ _ ihelse]
  case for_ =>
    intro id var seq bid body ih
    simp only [Stmt.without, ih]
  case if_ =>
    intro id cond bid body orElse ihbody ihelse
    simp only [without_if, ihbody, else_without orElse _ _ _ ihelse]
  case try_ =>
    intro id bid body catches ihbody ihcatches
    simp only [Stmt.without, ihbody, ihcatches]
  case nil => rfl
  case cons =>
    intro s rest ihs ihrest
    cases hp : p s.id with
    | true => simp [stmtsWithout, hp, ihrest]
    | false => cases hq : q s.id <;> simp [stmtsWithout, hp, hq, id_without, ihs, ihrest]
  case noCatch => rfl
  case catch_ =>
    intro id param bid body rest ihbody ihrest
    simp only [catchesWithout, ihbody, ihrest]

end ControlFlow
