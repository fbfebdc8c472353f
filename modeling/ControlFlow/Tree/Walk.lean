import ControlFlow.Tree.Basic

/-! # Walks over trees

Every walk is a list in a fixed order: a node comes before its parts, and the parts of a
statement come in source order (condition before bodies, body before else, a `try` body before
its catches).
-/

namespace ControlFlow

/-! ## Expressions -/

/-- The direct parts of an expression, in evaluation order. -/
def Expr.children : Expr → List Expr
  | .literal _ _ | .name _ _ _ => []
  | .assign _ target source => [target, source]
  | .call _ _ _ args => args
  | .operator _ _ operands => operands

mutual

/-- An expression and all expressions inside it, outermost first. -/
def Expr.walk : Expr → List Expr
  | .literal id value => [.literal id value]
  | .name id name decl => [.name id name decl]
  | .assign id target source => .assign id target source :: (target.walk ++ source.walk)
  | .call id callee function args => .call id callee function args :: walkEach args
  | .operator id op operands => .operator id op operands :: walkEach operands

/-- The walks of several expressions, one after the other. -/
def walkEach : List Expr → List Expr
  | [] => []
  | e :: rest => e.walk ++ walkEach rest

end

theorem walkEach_eq_flatMap (es : List Expr) : walkEach es = es.flatMap Expr.walk := by
  induction es with
  | nil => rfl
  | cons e rest ih => simp [walkEach, ih]

/-- A walk starts with its own expression and goes on with the walks of its direct parts. -/
theorem Expr.walk_eq (e : Expr) : e.walk = e :: e.children.flatMap Expr.walk := by
  cases e <;> simp [walk, children, walkEach_eq_flatMap]

/-! ## Statements -/

def Simple.exprs : Simple → List Expr
  | .expr e | .assert e => e.walk
  | .declare var => (var.init.map Expr.walk).getD []
  | .yield | .comment _ | .location _ => []

def Jump.exprs : Jump → List Expr
  | .return value | .throw value => (value.map Expr.walk).getD []
  | .break | .continue => []

mutual

/-- All expressions in a statement and in the statements nested in it. -/
def Stmt.exprs : Stmt → List Expr
  | .simple _ what => what.exprs
  | .jump _ how => how.exprs
  | .block _ ⟨_, body⟩ => exprsOf body
  | .while _ cond ⟨_, body⟩ none => cond.walk ++ exprsOf body
  | .while _ cond ⟨_, body⟩ (some ⟨_, orElse⟩) => cond.walk ++ exprsOf body ++ exprsOf orElse
  | .for _ _ seq ⟨_, body⟩ => seq.walk ++ exprsOf body
  | .if _ cond ⟨_, body⟩ none => cond.walk ++ exprsOf body
  | .if _ cond ⟨_, body⟩ (some ⟨_, orElse⟩) => cond.walk ++ exprsOf body ++ exprsOf orElse
  | .try _ ⟨_, body⟩ catches => exprsOf body ++ exprsOfCatches catches

def exprsOf : List Stmt → List Expr
  | [] => []
  | s :: rest => s.exprs ++ exprsOf rest

def exprsOfCatches : List Catch → List Expr
  | [] => []
  | ⟨_, _, ⟨_, body⟩⟩ :: rest => exprsOf body ++ exprsOfCatches rest

end

def Block.exprs (b : Block) : List Expr := exprsOf b.stmts

mutual

/-- The blocks inside a statement. -/
def Stmt.blocks : Stmt → List Block
  | .simple _ _ | .jump _ _ => []
  | .block _ ⟨id, body⟩ => ⟨id, body⟩ :: blocksOf body
  | .while _ _ ⟨id, body⟩ none => ⟨id, body⟩ :: blocksOf body
  | .while _ _ ⟨id, body⟩ (some ⟨id', orElse⟩) =>
      ⟨id, body⟩ :: blocksOf body ++ ⟨id', orElse⟩ :: blocksOf orElse
  | .for _ _ _ ⟨id, body⟩ => ⟨id, body⟩ :: blocksOf body
  | .if _ _ ⟨id, body⟩ none => ⟨id, body⟩ :: blocksOf body
  | .if _ _ ⟨id, body⟩ (some ⟨id', orElse⟩) =>
      ⟨id, body⟩ :: blocksOf body ++ ⟨id', orElse⟩ :: blocksOf orElse
  | .try _ ⟨id, body⟩ catches => ⟨id, body⟩ :: blocksOf body ++ blocksOfCatches catches

def blocksOf : List Stmt → List Block
  | [] => []
  | s :: rest => s.blocks ++ blocksOf rest

/-- The bodies of catches and the blocks inside them. -/
def blocksOfCatches : List Catch → List Block
  | [] => []
  | ⟨_, _, ⟨id, body⟩⟩ :: rest => ⟨id, body⟩ :: blocksOf body ++ blocksOfCatches rest

end

/-- A block and the blocks inside it, outermost first. -/
def Block.blocks (b : Block) : List Block := b :: blocksOf b.stmts

mutual

/-- The number of statements in a statement, itself and all nested ones. -/
def Stmt.size : Stmt → Nat
  | .simple _ _ | .jump _ _ => 1
  | .block _ ⟨_, body⟩ => 1 + sizeOfSeq body
  | .while _ _ ⟨_, body⟩ none => 1 + sizeOfSeq body
  | .while _ _ ⟨_, body⟩ (some ⟨_, orElse⟩) => 1 + sizeOfSeq body + sizeOfSeq orElse
  | .for _ _ _ ⟨_, body⟩ => 1 + sizeOfSeq body
  | .if _ _ ⟨_, body⟩ none => 1 + sizeOfSeq body
  | .if _ _ ⟨_, body⟩ (some ⟨_, orElse⟩) => 1 + sizeOfSeq body + sizeOfSeq orElse
  | .try _ ⟨_, body⟩ catches => 1 + sizeOfSeq body + sizeOfCatches catches

def sizeOfSeq : List Stmt → Nat
  | [] => 0
  | s :: rest => s.size + sizeOfSeq rest

def sizeOfCatches : List Catch → Nat
  | [] => 0
  | ⟨_, _, ⟨_, body⟩⟩ :: rest => sizeOfSeq body + sizeOfCatches rest

end

def Block.size (b : Block) : Nat := sizeOfSeq b.stmts

/-! ## Modules -/

namespace Module

/-- The module body and the function bodies, each with the blocks inside it. -/
def blocks (m : Module) : List Block :=
  m.body.blocks ++ m.functions.flatMap fun f => f.body.blocks

/-- The expressions of the module body and then those of the function bodies. -/
def exprs (m : Module) : List Expr :=
  m.body.exprs ++ m.functions.flatMap fun f => f.body.exprs

/-- The first block with a number. -/
def block? (m : Module) (id : TreeId) : Option Block :=
  m.blocks.find? fun b => b.id = id

/-- The first statement with a number, in the order of the blocks. -/
def stmt? (m : Module) (id : TreeId) : Option Stmt :=
  (m.blocks.flatMap Block.stmts).find? fun s => s.id = id

/-- The first expression with a number. -/
def expr? (m : Module) (id : TreeId) : Option Expr :=
  m.exprs.find? fun e => e.id = id

end Module

end ControlFlow
