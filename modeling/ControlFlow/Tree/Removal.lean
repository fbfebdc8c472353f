import ControlFlow.Tree.Walk

/-! # Removing statements at any depth

A statement that goes takes everything nested in it along. The statements that stay keep their
order, their numbers and their expressions, and lose the doomed statements nested in them.
-/

namespace ControlFlow

mutual

/-- A statement that stays, without the doomed statements nested in it. -/
def Stmt.without (doomed : Stmt → Bool) : Stmt → Stmt
  | .simple id what => .simple id what
  | .jump id how => .jump id how
  | .block id ⟨bid, body⟩ => .block id ⟨bid, stmtsWithout doomed body⟩
  | .while id cond ⟨bid, body⟩ none => .while id cond ⟨bid, stmtsWithout doomed body⟩ none
  | .while id cond ⟨bid, body⟩ (some ⟨eid, orElse⟩) =>
      .while id cond ⟨bid, stmtsWithout doomed body⟩ (some ⟨eid, stmtsWithout doomed orElse⟩)
  | .for id var seq ⟨bid, body⟩ => .for id var seq ⟨bid, stmtsWithout doomed body⟩
  | .if id cond ⟨bid, body⟩ none => .if id cond ⟨bid, stmtsWithout doomed body⟩ none
  | .if id cond ⟨bid, body⟩ (some ⟨eid, orElse⟩) =>
      .if id cond ⟨bid, stmtsWithout doomed body⟩ (some ⟨eid, stmtsWithout doomed orElse⟩)
  | .try id ⟨bid, body⟩ catches =>
      .try id ⟨bid, stmtsWithout doomed body⟩ (catchesWithout doomed catches)

/-- The statements of a sequence that stay. -/
def stmtsWithout (doomed : Stmt → Bool) : List Stmt → List Stmt
  | [] => []
  | s :: rest =>
      if doomed s then stmtsWithout doomed rest
      else s.without doomed :: stmtsWithout doomed rest

/-- Catches, each with the statements of its body that stay. -/
def catchesWithout (doomed : Stmt → Bool) : List Catch → List Catch
  | [] => []
  | ⟨id, param, ⟨bid, body⟩⟩ :: rest =>
      ⟨id, param, ⟨bid, stmtsWithout doomed body⟩⟩ :: catchesWithout doomed rest

end

/-- A block without the doomed statements, at any depth. -/
def Block.without (doomed : Stmt → Bool) (b : Block) : Block :=
  ⟨b.id, stmtsWithout doomed b.stmts⟩

mutual

/-- The number of outermost doomed statements nested in a statement. -/
def Stmt.doomedInside (doomed : Stmt → Bool) : Stmt → Nat
  | .simple _ _ | .jump _ _ => 0
  | .block _ ⟨_, body⟩ => doomedCount doomed body
  | .while _ _ ⟨_, body⟩ none => doomedCount doomed body
  | .while _ _ ⟨_, body⟩ (some ⟨_, orElse⟩) => doomedCount doomed body + doomedCount doomed orElse
  | .for _ _ _ ⟨_, body⟩ => doomedCount doomed body
  | .if _ _ ⟨_, body⟩ none => doomedCount doomed body
  | .if _ _ ⟨_, body⟩ (some ⟨_, orElse⟩) => doomedCount doomed body + doomedCount doomed orElse
  | .try _ ⟨_, body⟩ catches => doomedCount doomed body + doomedInCatches doomed catches

/-- The number of outermost doomed statements in a sequence. -/
def doomedCount (doomed : Stmt → Bool) : List Stmt → Nat
  | [] => 0
  | s :: rest => (if doomed s then 1 else s.doomedInside doomed) + doomedCount doomed rest

/-- The number of outermost doomed statements in the bodies of catches. -/
def doomedInCatches (doomed : Stmt → Bool) : List Catch → Nat
  | [] => 0
  | ⟨_, _, ⟨_, body⟩⟩ :: rest => doomedCount doomed body + doomedInCatches doomed rest

end

/-- How many statements `Block.without` takes out, not counting what goes along with them. -/
def Block.doomedCount (doomed : Stmt → Bool) (b : Block) : Nat :=
  ControlFlow.doomedCount doomed b.stmts

end ControlFlow
