import ControlFlow.Proofs.Tree.Without
import Mathlib.Data.List.Forall2

/-! # Thinned trees

A tree is thinned out of another one by deleting statements from its sequences. Whatever is left
keeps its number, its expressions, its place in the order and the statement around it.
-/

namespace ControlFlow

mutual

/-- The first statement is the second one without some statements nested in it. -/
inductive Stmt.Thinned : Stmt → Stmt → Prop where
  | simple (id : TreeId) (what : Simple) : Stmt.Thinned (.simple id what) (.simple id what)
  | jump (id : TreeId) (how : Jump) : Stmt.Thinned (.jump id how) (.jump id how)
  | block (id : TreeId) {b c : Block} : b.Thinned c → Stmt.Thinned (.block id b) (.block id c)
  | while (id : TreeId) (cond : Expr) {b c : Block} {orElse orElse' : Option Block} :
      b.Thinned c → Option.Rel Block.Thinned orElse orElse' →
      Stmt.Thinned (.while id cond b orElse) (.while id cond c orElse')
  | for (id : TreeId) (var : LoopVar) (seq : Expr) {b c : Block} : b.Thinned c →
      Stmt.Thinned (.for id var seq b) (.for id var seq c)
  | if (id : TreeId) (cond : Expr) {b c : Block} {orElse orElse' : Option Block} :
      b.Thinned c → Option.Rel Block.Thinned orElse orElse' →
      Stmt.Thinned (.if id cond b orElse) (.if id cond c orElse')
  | try (id : TreeId) {b c : Block} {catches catches' : List Catch} : b.Thinned c →
      List.Forall₂ Catch.Thinned catches catches' →
      Stmt.Thinned (.try id b catches) (.try id c catches')

/-- The first block is the second one without some of its statements, at any depth. -/
inductive Block.Thinned : Block → Block → Prop where
  | mk (id : TreeId) {ss ts : List Stmt} : List.SublistForall₂ Stmt.Thinned ss ts →
      Block.Thinned ⟨id, ss⟩ ⟨id, ts⟩

inductive Catch.Thinned : Catch → Catch → Prop where
  | mk (id : TreeId) (param : Option DeclId) {b c : Block} : b.Thinned c →
      Catch.Thinned ⟨id, param, b⟩ ⟨id, param, c⟩

end

variable {doomed : Stmt → Bool}

theorem thinned_else {orElse : Option Block} (h : List.SublistForall₂ Stmt.Thinned
    (stmtsWithout doomed (elseOf orElse)) (elseOf orElse)) :
    Option.Rel Block.Thinned (orElse.map (Block.without doomed)) orElse := by
  rcases orElse with _ | ⟨eid, orElse⟩
  · exact .none
  · exact .some (.mk eid h)

/-- Removal thins a tree out. -/
theorem thinned_without :
    (∀ s : Stmt, (s.without doomed).Thinned s) ∧
    (∀ ss, List.SublistForall₂ Stmt.Thinned (stmtsWithout doomed ss) ss) ∧
    ∀ cs, List.Forall₂ Catch.Thinned (catchesWithout doomed cs) cs := by
  refine tree_induction ?simple ?jump ?block ?while_ ?for_ ?if_ ?try_ ?nil ?cons ?noCatch ?catch_
  case simple => exact .simple
  case jump => exact .jump
  case block => exact fun id bid _ ih => .block id (.mk bid ih)
  case while_ =>
    intro id cond bid body orElse ihbody ihelse
    rw [without_while]
    exact .while id cond (.mk bid ihbody) (thinned_else ihelse)
  case for_ => exact fun id var seq bid _ ih => .for id var seq (.mk bid ih)
  case if_ =>
    intro id cond bid body orElse ihbody ihelse
    rw [without_if]
    exact .if id cond (.mk bid ihbody) (thinned_else ihelse)
  case try_ => exact fun id bid _ _ ihbody ihcatches => .try id (.mk bid ihbody) ihcatches
  case nil => exact .nil
  case cons =>
    intro s rest ihs ihrest
    rw [stmtsWithout]
    split
    · exact .cons_right ihrest
    · exact .cons ihs ihrest
  case noCatch => exact .nil
  case catch_ =>
    exact fun id param bid _ _ ihbody ihrest => .cons (.mk id param (.mk bid ihbody)) ihrest

theorem Block.without_thinned (b : Block) : (b.without doomed).Thinned b := by
  obtain ⟨id, stmts⟩ := b
  exact .mk id (thinned_without.2.1 stmts)

end ControlFlow
