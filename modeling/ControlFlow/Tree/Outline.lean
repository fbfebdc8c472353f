import ControlFlow.Tree.Supply

/-! # Outlines: modules before their nodes are numbered

An outline gives the shape of a module and refers to declarations by their position. Numbering
an outline takes the numbers of declarations and of tree nodes from one supply, for nodes parts
before the whole and left to right, and copies the name and type of each declaration to where it is
used. It fails where a position has no declaration.
-/

namespace ControlFlow

/-- An expression without numbers. -/
inductive ExprOutline where
  | literal (value : Literal)
  | name (decl : DeclId)
  /-- A name that resolves to no declaration. -/
  | unresolved (name : String)
  | assign (target source : ExprOutline)
  | call (function : DeclId) (args : List ExprOutline)
  /-- A call of something that is no declared function. -/
  | callUnresolved (callee : String) (args : List ExprOutline)
  | operator (op : String) (operands : List ExprOutline)

/-- A statement without numbers. -/
inductive StmtOutline where
  | expr (e : ExprOutline)
  /-- Store a value in a variable. -/
  | set (decl : DeclId) (value : ExprOutline)
  | declare (decl : DeclId) (init : Option ExprOutline)
  | return (value : Option ExprOutline)
  | throw (value : Option ExprOutline)
  | break
  | continue
  | assert (e : ExprOutline)
  | yield
  | comment (text : String)
  | location (text : String)
  | block (body : List StmtOutline)
  | if (cond : ExprOutline) (thenBody : List StmtOutline) (elseBody : Option (List StmtOutline))
  | while (cond : ExprOutline) (body : List StmtOutline) (elseBody : Option (List StmtOutline))
  | for (decl : DeclId) (seq : ExprOutline) (body : List StmtOutline)
  | try (body : List StmtOutline) (catches : List (Option DeclId × List StmtOutline))

/-- A declaration without its number. -/
inductive DeclOutline where
  | global (name : String) (ty : Ty) (external : Bool)
  | local (name : String) (ty : Ty) (external : Bool)
  | parameter (name : String) (passing : Passing) (ty : Ty) (external : Bool)
  | function (name : String) (params : List Passing) (external : Bool)

/-- A module without numbers. -/
structure ModuleOutline where
  name : String
  decls : List DeclOutline
  globals : List (DeclId × Option ExprOutline)
  functions : List (String × List DeclId × List StmtOutline)
  body : List StmtOutline

/-- The declaration with its number. A function has a type of its own. -/
def DeclOutline.number (id : DeclId) : DeclOutline → Declaration
  | .global name ty external => ⟨id, name, .globalVariable, ty, external⟩
  | .local name ty external => ⟨id, name, .localVariable, ty, external⟩
  | .parameter name passing ty external => ⟨id, name, .parameter passing, ty, external⟩
  | .function name params external => ⟨id, name, .function params, .other "function", external⟩

mutual

/-- Number an expression from a supply; the result comes with what is left of the supply. -/
def ExprOutline.number (decls : List Declaration) : ExprOutline → Supply → Option (Expr × Supply)
  | .literal value, s =>
      let (id, s) := s.takeNode
      some (.literal id value, s)
  | .name d, s => do
      let decl ← decls[d]?
      let (id, s) := s.takeNode
      return (.name id decl.name (some d), s)
  | .unresolved name, s =>
      let (id, s) := s.takeNode
      some (.name id name none, s)
  | .assign target source, s => do
      let (target, s) ← target.number decls s
      let (source, s) ← source.number decls s
      let (id, s) := s.takeNode
      return (.assign id target source, s)
  | .call d args, s => do
      let decl ← decls[d]?
      let (args, s) ← numberExprs decls args s
      let (id, s) := s.takeNode
      return (.call id decl.name (some d) args, s)
  | .callUnresolved callee args, s => do
      let (args, s) ← numberExprs decls args s
      let (id, s) := s.takeNode
      return (.call id callee none args, s)
  | .operator op operands, s => do
      let (operands, s) ← numberExprs decls operands s
      let (id, s) := s.takeNode
      return (.operator id op operands, s)

def numberExprs (decls : List Declaration) :
    List ExprOutline → Supply → Option (List Expr × Supply)
  | [], s => some ([], s)
  | e :: rest, s => do
      let (e, s) ← e.number decls s
      let (rest, s) ← numberExprs decls rest s
      return (e :: rest, s)

end

def numberExpr? (decls : List Declaration) :
    Option ExprOutline → Supply → Option (Option Expr × Supply)
  | none, s => some (none, s)
  | some e, s => do
      let (e, s) ← e.number decls s
      return (some e, s)

/-- A simple statement is numbered after what it is made of. -/
def numberSimple (s : Supply) (what : Simple) : Stmt × Supply :=
  let (id, s) := s.takeNode
  (.simple id what, s)

def numberJump (s : Supply) (how : Jump) : Stmt × Supply :=
  let (id, s) := s.takeNode
  (.jump id how, s)

mutual

/-- Number a statement: its parts first, then the statement. -/
def StmtOutline.number (decls : List Declaration) : StmtOutline → Supply → Option (Stmt × Supply)
  | .expr e, s => do
      let (e, s) ← e.number decls s
      return numberSimple s (.expr e)
  | .set d value, s => do
      let (value, s) ← value.number decls s
      let decl ← decls[d]?
      let (target, s) := s.takeNode
      let (assign, s) := s.takeNode
      return numberSimple s (.expr (.assign assign (.name target decl.name (some d)) value))
  | .declare d init, s => do
      let decl ← decls[d]?
      let (init, s) ← numberExpr? decls init s
      return numberSimple s (.declare ⟨d, decl.name, decl.ty, init⟩)
  | .return value, s => do
      let (value, s) ← numberExpr? decls value s
      return numberJump s (.return value)
  | .throw value, s => do
      let (value, s) ← numberExpr? decls value s
      return numberJump s (.throw value)
  | .break, s => some (numberJump s .break)
  | .continue, s => some (numberJump s .continue)
  | .assert e, s => do
      let (e, s) ← e.number decls s
      return numberSimple s (.assert e)
  | .yield, s => some (numberSimple s .yield)
  | .comment text, s => some (numberSimple s (.comment text))
  | .location text, s => some (numberSimple s (.location text))
  | .block body, s => do
      let (body, s) ← numberStmts decls body s
      let (bodyId, s) := s.takeNode
      let (id, s) := s.takeNode
      return (.block id ⟨bodyId, body⟩, s)
  | .if cond body none, s => do
      let (cond, s) ← cond.number decls s
      let (body, s) ← numberStmts decls body s
      let (bodyId, s) := s.takeNode
      let (id, s) := s.takeNode
      return (.if id cond ⟨bodyId, body⟩ none, s)
  | .if cond body (some orElse), s => do
      let (cond, s) ← cond.number decls s
      let (body, s) ← numberStmts decls body s
      let (bodyId, s) := s.takeNode
      let (orElse, s) ← numberStmts decls orElse s
      let (elseId, s) := s.takeNode
      let (id, s) := s.takeNode
      return (.if id cond ⟨bodyId, body⟩ (some ⟨elseId, orElse⟩), s)
  | .while cond body none, s => do
      let (cond, s) ← cond.number decls s
      let (body, s) ← numberStmts decls body s
      let (bodyId, s) := s.takeNode
      let (id, s) := s.takeNode
      return (.while id cond ⟨bodyId, body⟩ none, s)
  | .while cond body (some orElse), s => do
      let (cond, s) ← cond.number decls s
      let (body, s) ← numberStmts decls body s
      let (bodyId, s) := s.takeNode
      let (orElse, s) ← numberStmts decls orElse s
      let (elseId, s) := s.takeNode
      let (id, s) := s.takeNode
      return (.while id cond ⟨bodyId, body⟩ (some ⟨elseId, orElse⟩), s)
  | .for d seq body, s => do
      let decl ← decls[d]?
      let (seq, s) ← seq.number decls s
      let (body, s) ← numberStmts decls body s
      let (bodyId, s) := s.takeNode
      let (var, s) := s.takeNode
      let (id, s) := s.takeNode
      return (.for id ⟨var, d, decl.name, decl.ty⟩ seq ⟨bodyId, body⟩, s)
  | .try body catches, s => do
      let (body, s) ← numberStmts decls body s
      let (bodyId, s) := s.takeNode
      let (catches, s) ← numberCatches decls catches s
      let (id, s) := s.takeNode
      return (.try id ⟨bodyId, body⟩ catches, s)

def numberStmts (decls : List Declaration) :
    List StmtOutline → Supply → Option (List Stmt × Supply)
  | [], s => some ([], s)
  | first :: rest, s => do
      let (first, s) ← first.number decls s
      let (rest, s) ← numberStmts decls rest s
      return (first :: rest, s)

/-- Number catches in their order, each after its body. -/
def numberCatches (decls : List Declaration) :
    List (Option DeclId × List StmtOutline) → Supply → Option (List Catch × Supply)
  | [], s => some ([], s)
  | (param, body) :: rest, s => do
      let (body, s) ← numberStmts decls body s
      let (bodyId, s) := s.takeNode
      let (id, s) := s.takeNode
      let (rest, s) ← numberCatches decls rest s
      return (⟨id, param, ⟨bodyId, body⟩⟩ :: rest, s)

end

/-- Number a sequence of statements and the block that holds them. -/
def numberBlock (decls : List Declaration) (body : List StmtOutline) (s : Supply) :
    Option (Block × Supply) := do
  let (body, s) ← numberStmts decls body s
  let (id, s) := s.takeNode
  return (⟨id, body⟩, s)

/-- Number globals in their order, each after its initial value. -/
def numberGlobals (decls : List Declaration) :
    List (DeclId × Option ExprOutline) → Supply → Option (List Global × Supply)
  | [], s => some ([], s)
  | (d, init) :: rest, s => do
      let decl ← decls[d]?
      let (init, s) ← numberExpr? decls init s
      let (id, s) := s.takeNode
      let (rest, s) ← numberGlobals decls rest s
      return (⟨id, d, decl.name, decl.ty, init⟩ :: rest, s)

/-- Number function bodies in their order. -/
def numberFunctions (decls : List Declaration) :
    List (String × List DeclId × List StmtOutline) → Supply → Option (List Function × Supply)
  | [], s => some ([], s)
  | (name, params, body) :: rest, s => do
      let (body, s) ← numberBlock decls body s
      let (rest, s) ← numberFunctions decls rest s
      return (⟨name, params, body⟩ :: rest, s)

/-- Number declarations in their order. -/
def numberDecls : List DeclOutline → Supply → List Declaration × Supply
  | [], s => ([], s)
  | decl :: rest, s =>
      let (id, s) := s.takeDecl
      let (rest, s) := numberDecls rest s
      (decl.number id :: rest, s)

/-- The module of an outline: declarations, then globals, functions and the body, all from one
supply. -/
def ModuleOutline.number (m : ModuleOutline) : Option Module := do
  let (decls, s) := numberDecls m.decls .fresh
  let (globals, s) ← numberGlobals decls m.globals s
  let (functions, s) ← numberFunctions decls m.functions s
  let (body, _) ← numberBlock decls m.body s
  return ⟨m.name, decls, globals, body, functions⟩

end ControlFlow
