import ControlFlow.Proofs.Tree.Parts

/-! # Statements that are not behind a jump

A statement after a jump in its block is never run, and nothing inside it is.
-/

namespace ControlFlow

mutual

/-- The statements nested in a statement that are not behind a jump there. -/
def Stmt.liveInner : Stmt → List Stmt
  | .simple _ _ | .jump _ _ => []
  | .block _ ⟨_, body⟩ => liveStmtsOf body
  | .while _ _ ⟨_, body⟩ none => liveStmtsOf body
  | .while _ _ ⟨_, body⟩ (some ⟨_, orElse⟩) => liveStmtsOf body ++ liveStmtsOf orElse
  | .for _ _ _ ⟨_, body⟩ => liveStmtsOf body
  | .if _ _ ⟨_, body⟩ none => liveStmtsOf body
  | .if _ _ ⟨_, body⟩ (some ⟨_, orElse⟩) => liveStmtsOf body ++ liveStmtsOf orElse
  | .try _ ⟨_, body⟩ catches => liveStmtsOf body ++ liveStmtsOfCatches catches

/-- The statements of a sequence, at any depth, that are not behind a jump. -/
def liveStmtsOf : List Stmt → List Stmt
  | [] => []
  | s :: rest => s :: (s.liveInner ++ if s.isJump then [] else liveStmtsOf rest)

def liveStmtsOfCatches : List Catch → List Stmt
  | [] => []
  | ⟨_, _, ⟨_, body⟩⟩ :: rest => liveStmtsOf body ++ liveStmtsOfCatches rest

end

@[simp] theorem liveInner_while (id : TreeId) (cond : Expr) (bid : TreeId) (body : List Stmt)
    (orElse : Option Block) : (Stmt.while id cond ⟨bid, body⟩ orElse).liveInner =
      liveStmtsOf body ++ liveStmtsOf (elseOf orElse) := by
  rcases orElse with _ | ⟨_, _⟩ <;> simp [Stmt.liveInner, liveStmtsOf]

@[simp] theorem liveInner_if (id : TreeId) (cond : Expr) (bid : TreeId) (body : List Stmt)
    (orElse : Option Block) : (Stmt.if id cond ⟨bid, body⟩ orElse).liveInner =
      liveStmtsOf body ++ liveStmtsOf (elseOf orElse) := by
  rcases orElse with _ | ⟨_, _⟩ <;> simp [Stmt.liveInner, liveStmtsOf]

/-- What is not behind a jump is part of the tree. -/
theorem liveStmts_subset :
    (∀ s : Stmt, s.liveInner ⊆ s.inner) ∧ (∀ ss, liveStmtsOf ss ⊆ stmtsOf ss) ∧
    (∀ cs, liveStmtsOfCatches cs ⊆ stmtsOfCatches cs) := by
  refine tree_induction ?simple ?jump ?block ?while_ ?for_ ?if_ ?try_ ?nil ?cons ?noCatch ?catch_
  case simple => exact fun _ _ => List.Subset.refl _
  case jump => exact fun _ _ => List.Subset.refl _
  case block => exact fun _ _ _ ih => ih
  case while_ =>
    intro id cond bid body orElse ihbody ihelse
    rw [liveInner_while, inner_while]
    exact append_subset_append ihbody ihelse
  case for_ => exact fun _ _ _ _ _ ih => ih
  case if_ =>
    intro id cond bid body orElse ihbody ihelse
    rw [liveInner_if, inner_if]
    exact append_subset_append ihbody ihelse
  case try_ => exact fun _ _ _ _ ihbody ihcatches => append_subset_append ihbody ihcatches
  case nil => exact List.Subset.refl _
  case cons =>
    intro s rest ihs ihrest
    refine List.cons_subset_cons s (append_subset_append ihs ?_)
    split
    · exact List.nil_subset _
    · exact ihrest
  case noCatch => exact List.Subset.refl _
  case catch_ => exact fun _ _ _ _ _ ihbody ihrest => append_subset_append ihbody ihrest

/-! ## Points -/

/-- The points of a sequence of statements that are not behind a jump. -/
def livePointsOf (ss : List Stmt) : List Point := (liveStmtsOf ss).flatMap Stmt.ownPoints

def livePointsOfCatches (cs : List Catch) : List Point :=
  (liveStmtsOfCatches cs).flatMap Stmt.ownPoints

theorem livePointsOf_subset (ss : List Stmt) : livePointsOf ss ⊆ pointsOf ss := by
  intro p hp
  obtain ⟨s, hs, hown⟩ := List.mem_flatMap.mp hp
  exact List.mem_flatMap.mpr ⟨s, liveStmts_subset.2.1 ss hs, hown⟩

theorem livePointsOf_single (s : Stmt) :
    livePointsOf [s] = s.ownPoints ++ s.liveInner.flatMap Stmt.ownPoints := by
  simp [livePointsOf, liveStmtsOf]

/-- The statements after a jump are not run. -/
theorem livePointsOf_cons (s : Stmt) (rest : List Stmt) : livePointsOf (s :: rest) =
    livePointsOf [s] ++ if s.isJump then [] else livePointsOf rest := by
  rw [livePointsOf_single, livePointsOf, liveStmtsOf, List.flatMap_cons, List.flatMap_append,
    List.append_assoc]
  split <;> rfl

@[simp] theorem livePointsOf_jump (id : TreeId) (how : Jump) :
    livePointsOf [.jump id how] = (Stmt.jump id how).ownPoints :=
  (livePointsOf_single _).trans (List.append_nil _)

@[simp] theorem livePointsOf_block (id bid : TreeId) (body : List Stmt) :
    livePointsOf [.block id ⟨bid, body⟩] = livePointsOf body :=
  livePointsOf_single _

@[simp] theorem livePointsOf_while (id : TreeId) (cond : Expr) (bid : TreeId) (body : List Stmt)
    (orElse : Option Block) : livePointsOf [.while id cond ⟨bid, body⟩ orElse] =
      .expr cond :: (livePointsOf body ++ livePointsOf (elseOf orElse)) := by
  rw [livePointsOf_single, liveInner_while, List.flatMap_append]
  rfl

@[simp] theorem livePointsOf_for (id : TreeId) (var : LoopVar) (seq : Expr) (bid : TreeId)
    (body : List Stmt) : livePointsOf [.for id var seq ⟨bid, body⟩] =
      .expr seq :: .loopVar var :: livePointsOf body :=
  livePointsOf_single _

@[simp] theorem livePointsOf_if (id : TreeId) (cond : Expr) (bid : TreeId) (body : List Stmt)
    (orElse : Option Block) : livePointsOf [.if id cond ⟨bid, body⟩ orElse] =
      .expr cond :: (livePointsOf body ++ livePointsOf (elseOf orElse)) := by
  rw [livePointsOf_single, liveInner_if, List.flatMap_append]
  rfl

@[simp] theorem livePointsOf_try (id bid : TreeId) (body : List Stmt) (catches : List Catch) :
    livePointsOf [.try id ⟨bid, body⟩ catches] =
      livePointsOf body ++ livePointsOfCatches catches := by
  rw [livePointsOf_single, Stmt.liveInner, List.flatMap_append]
  rfl

theorem mem_liveStmtsOfCatches {c : Catch} {catches : List Catch} (hc : c ∈ catches) {s : Stmt}
    (hs : s ∈ liveStmtsOf c.body.stmts) : s ∈ liveStmtsOfCatches catches := by
  induction catches with
  | nil => cases hc
  | cons first rest ih =>
      obtain ⟨id, param, bid, body⟩ := first
      rcases List.mem_cons.mp hc with rfl | hc
      · exact List.mem_append_left _ hs
      · exact List.mem_append_right _ (ih hc)

theorem livePointsOf_subset_catches {c : Catch} {catches : List Catch} (hc : c ∈ catches) :
    livePointsOf c.body.stmts ⊆ livePointsOfCatches catches := by
  intro p hp
  obtain ⟨s, hs, hown⟩ := List.mem_flatMap.mp hp
  exact List.mem_flatMap.mpr ⟨s, mem_liveStmtsOfCatches hc hs, hown⟩

end ControlFlow
