import ControlFlow.Proofs.Tree.Live
import ControlFlow.Tree.Walk
import Mathlib.Data.List.Nodup

/-! # Statements behind a jump

A statement is behind a jump if it comes after one in its own block, or if a statement around it
does. The statements of a body are those that are not behind a jump and those that are, each of
them once.
-/

namespace ControlFlow

/-- A sequence has a jump, and after it a statement that is or encloses this one. -/
def Behind (ss : List Stmt) (s : Stmt) : Prop :=
  ∃ before jump after, ss = before ++ jump :: after ∧ jump.isJump = true ∧ s ∈ stmtsOf after

/-- Some block of a body has a jump, and after it a statement that is or encloses this one. -/
def Block.BehindJump (b : Block) (s : Stmt) : Prop := ∃ c ∈ b.blocks, Behind c.stmts s

mutual

/-- The statements nested in a statement that are behind a jump there. -/
def Stmt.deadInner : Stmt → List Stmt
  | .simple _ _ | .jump _ _ => []
  | .block _ ⟨_, body⟩ => deadStmtsOf body
  | .while _ _ ⟨_, body⟩ none => deadStmtsOf body
  | .while _ _ ⟨_, body⟩ (some ⟨_, orElse⟩) => deadStmtsOf body ++ deadStmtsOf orElse
  | .for _ _ _ ⟨_, body⟩ => deadStmtsOf body
  | .if _ _ ⟨_, body⟩ none => deadStmtsOf body
  | .if _ _ ⟨_, body⟩ (some ⟨_, orElse⟩) => deadStmtsOf body ++ deadStmtsOf orElse
  | .try _ ⟨_, body⟩ catches => deadStmtsOf body ++ deadStmtsOfCatches catches

/-- The statements of a sequence, at any depth, that are behind a jump. -/
def deadStmtsOf : List Stmt → List Stmt
  | [] => []
  | s :: rest => s.deadInner ++ if s.isJump then stmtsOf rest else deadStmtsOf rest

def deadStmtsOfCatches : List Catch → List Stmt
  | [] => []
  | ⟨_, _, ⟨_, body⟩⟩ :: rest => deadStmtsOf body ++ deadStmtsOfCatches rest

end

@[simp] theorem deadInner_while (id : TreeId) (cond : Expr) (bid : TreeId) (body : List Stmt)
    (orElse : Option Block) : (Stmt.while id cond ⟨bid, body⟩ orElse).deadInner =
      deadStmtsOf body ++ deadStmtsOf (elseOf orElse) := by
  rcases orElse with _ | ⟨_, _⟩ <;> simp [Stmt.deadInner, deadStmtsOf]

@[simp] theorem deadInner_if (id : TreeId) (cond : Expr) (bid : TreeId) (body : List Stmt)
    (orElse : Option Block) : (Stmt.if id cond ⟨bid, body⟩ orElse).deadInner =
      deadStmtsOf body ++ deadStmtsOf (elseOf orElse) := by
  rcases orElse with _ | ⟨_, _⟩ <;> simp [Stmt.deadInner, deadStmtsOf]

@[simp] theorem blocks_while (id : TreeId) (cond : Expr) (bid : TreeId) (body : List Stmt)
    (orElse : Option Block) : (Stmt.while id cond ⟨bid, body⟩ orElse).blocks =
      ⟨bid, body⟩ :: blocksOf body ++ orElse.toList.flatMap Block.blocks := by
  rcases orElse with _ | ⟨_, _⟩ <;> simp [Stmt.blocks, Block.blocks]

@[simp] theorem blocks_if (id : TreeId) (cond : Expr) (bid : TreeId) (body : List Stmt)
    (orElse : Option Block) : (Stmt.if id cond ⟨bid, body⟩ orElse).blocks =
      ⟨bid, body⟩ :: blocksOf body ++ orElse.toList.flatMap Block.blocks := by
  rcases orElse with _ | ⟨_, _⟩ <;> simp [Stmt.blocks, Block.blocks]

/-! ## Each statement is on one side -/

theorem perm_append_of_split {α : Type} {as bs cs as' bs' cs' : List α} (h : as.Perm (bs ++ cs))
    (h' : as'.Perm (bs' ++ cs')) : (as ++ as').Perm ((bs ++ bs') ++ (cs ++ cs')) := by
  refine (h.append h').trans ?_
  rw [List.append_assoc, List.append_assoc]
  exact (List.perm_append_comm_assoc cs bs' cs').append_left bs

/-- The statements of a tree are those that are not behind a jump and those that are. -/
theorem stmts_perm :
    (∀ s : Stmt, s.inner.Perm (s.liveInner ++ s.deadInner)) ∧
    (∀ ss, (stmtsOf ss).Perm (liveStmtsOf ss ++ deadStmtsOf ss)) ∧
    (∀ cs, (stmtsOfCatches cs).Perm (liveStmtsOfCatches cs ++ deadStmtsOfCatches cs)) := by
  refine tree_induction ?simple ?jump ?block ?while_ ?for_ ?if_ ?try_ ?nil ?cons ?noCatch ?catch_
  case simple => exact fun _ _ => .nil
  case jump => exact fun _ _ => .nil
  case block => exact fun _ _ _ ih => ih
  case while_ =>
    intro id cond bid body orElse ihbody ihelse
    rw [inner_while, liveInner_while, deadInner_while]
    exact perm_append_of_split ihbody ihelse
  case for_ => exact fun _ _ _ _ _ ih => ih
  case if_ =>
    intro id cond bid body orElse ihbody ihelse
    rw [inner_if, liveInner_if, deadInner_if]
    exact perm_append_of_split ihbody ihelse
  case try_ => exact fun _ _ _ _ ihbody ihcatches => perm_append_of_split ihbody ihcatches
  case nil => exact .nil
  case cons =>
    intro s rest ihs ihrest
    refine (perm_append_of_split ihs ?_).cons s
    by_cases hs : s.isJump = true
    · simp [hs]
    · simpa [hs] using ihrest
  case noCatch => exact .nil
  case catch_ => exact fun _ _ _ _ _ ihbody ihrest => perm_append_of_split ihbody ihrest

theorem deadStmtsOf_subset (ss : List Stmt) : deadStmtsOf ss ⊆ stmtsOf ss :=
  fun _ ht => (stmts_perm.2.1 ss).mem_iff.mpr (List.mem_append_right _ ht)

/-! ## Looking for the jump -/

variable {s t : Stmt} {ss : List Stmt}

theorem behind_cons : Behind (s :: ss) t ↔ (s.isJump = true ∧ t ∈ stmtsOf ss) ∨ Behind ss t := by
  constructor
  · rintro ⟨before, jump, after, heq, hjump, ht⟩
    cases before with
    | nil =>
        cases heq
        exact .inl ⟨hjump, ht⟩
    | cons first before =>
        cases heq
        exact .inr ⟨before, jump, after, rfl, hjump, ht⟩
  · rintro (⟨hjump, ht⟩ | ⟨before, jump, after, rfl, hjump, ht⟩)
    · exact ⟨[], s, ss, rfl, hjump, ht⟩
    · exact ⟨s :: before, jump, after, rfl, hjump, ht⟩

theorem not_behind_nil : ¬ Behind [] t := by
  rintro ⟨before, jump, after, heq, -⟩
  simp at heq

/-- The statements behind a jump are found by looking for the jump in each block. -/
theorem mem_deadStmts :
    (∀ s : Stmt, ∀ t, t ∈ s.deadInner ↔ ∃ c ∈ s.blocks, Behind c.stmts t) ∧
    (∀ ss, ∀ t, t ∈ deadStmtsOf ss ↔ Behind ss t ∨ ∃ c ∈ blocksOf ss, Behind c.stmts t) ∧
    (∀ cs, ∀ t, t ∈ deadStmtsOfCatches cs ↔ ∃ c ∈ blocksOfCatches cs, Behind c.stmts t) := by
  refine tree_induction ?simple ?jump ?block ?while_ ?for_ ?if_ ?try_ ?nil ?cons ?noCatch ?catch_
  case simple => simp [Stmt.deadInner, Stmt.blocks]
  case jump => simp [Stmt.deadInner, Stmt.blocks]
  case block =>
    intro id bid body ih t
    simp [Stmt.deadInner, Stmt.blocks, ih]
  case while_ =>
    intro id cond bid body orElse ihbody ihelse t
    rcases orElse with _ | ⟨eid, orElse⟩
    · simp [ihbody, deadStmtsOf]
    · simp only [elseOf_some] at ihelse
      simp [ihbody, ihelse, Block.blocks, or_and_right, exists_or, or_assoc]
  case for_ =>
    intro id var seq bid body ih t
    simp [Stmt.deadInner, Stmt.blocks, ih]
  case if_ =>
    intro id cond bid body orElse ihbody ihelse t
    rcases orElse with _ | ⟨eid, orElse⟩
    · simp [ihbody, deadStmtsOf]
    · simp only [elseOf_some] at ihelse
      simp [ihbody, ihelse, Block.blocks, or_and_right, exists_or, or_assoc]
  case try_ =>
    intro id bid body catches ihbody ihcatches t
    simp [Stmt.deadInner, Stmt.blocks, ihbody, ihcatches, or_and_right, exists_or, or_assoc]
  case nil => simp [deadStmtsOf, blocksOf, not_behind_nil]
  case cons =>
    intro s rest ihs ihrest t
    have hsub : t ∈ deadStmtsOf rest → t ∈ stmtsOf rest := fun ht => deadStmtsOf_subset rest ht
    rw [ihrest] at hsub
    simp only [deadStmtsOf, blocksOf, List.mem_append, ihs, behind_cons, or_and_right, exists_or]
    -- Whatever is behind a later jump is behind this one as well.
    split
    next hs => grind
    next hs => grind
  case noCatch => simp [deadStmtsOfCatches, blocksOfCatches]
  case catch_ =>
    intro id param bid body rest ihbody ihrest t
    simp [deadStmtsOfCatches, blocksOfCatches, ihbody, ihrest, or_and_right, exists_or, or_assoc]

theorem mem_deadStmtsOf_iff {b : Block} : t ∈ deadStmtsOf b.stmts ↔ b.BehindJump t := by
  rw [mem_deadStmts.2.1]
  simp [Block.BehindJump, Block.blocks]

theorem Block.BehindJump.mem {b : Block} (h : b.BehindJump t) : t ∈ b.allStmts :=
  deadStmtsOf_subset b.stmts (mem_deadStmtsOf_iff.mpr h)

/-- Where all statements are distinct, a statement is behind a jump or it is not. -/
theorem mem_liveStmtsOf_iff {b : Block} (hnodup : b.allStmts.Nodup) (ht : t ∈ b.allStmts) :
    t ∈ liveStmtsOf b.stmts ↔ ¬ b.BehindJump t := by
  have hperm := stmts_perm.2.1 b.stmts
  have hdisjoint := (List.nodup_append'.mp (hperm.nodup hnodup)).2.2
  rw [← mem_deadStmtsOf_iff]
  constructor
  · exact fun hlive hdead => hdisjoint hlive hdead
  · exact fun hdead => (List.mem_append.mp (hperm.mem_iff.mp ht)).resolve_right hdead

end ControlFlow
