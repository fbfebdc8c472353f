/-! # Modules as trees

A module declares variables and functions, initialises globals, and has one body of top-level
statements beside the bodies of its functions. The node kinds are closed: exactly the shapes
that the construction of a flow graph tells apart, with `Expr.operator` for every expression
that has no shape of its own.

Statements, expressions, blocks, catches, loop variables and globals all carry a number from
one common supply; declarations are numbered on their own.
-/

namespace ControlFlow

/-- The number of a tree node. -/
abbrev TreeId := Nat

/-- The number of a declaration. -/
abbrev DeclId := Nat

/-! ## Declarations -/

/-- How a parameter is passed. -/
inductive Passing where
  | unknown
  | copy
  | read
  /-- The callee's stores are seen by the caller. -/
  | update
deriving DecidableEq

/-- What a declared name stands for. -/
inductive DeclKind where
  | globalVariable
  | localVariable
  | parameter (passing : Passing)
  | function (params : List Passing)
deriving DecidableEq

/-- A container whose iterators may refer to its storage. -/
inductive Container where
  | bytes
  | list
  | map
  | set
  | stream
  | vector
deriving DecidableEq

/-- The type of a variable. -/
inductive Ty where
  | bool
  | int
  | string
  | bytes
  | stream
  | streamView
  | iterator (container : Container)
  | struct (name : String) (hasFinalizer : Bool)
  | other (name : String)
deriving DecidableEq

namespace Ty

/-- Values of the type may refer to storage that another value owns. -/
def isAliasing : Ty → Bool
  | streamView | iterator _ => true
  | _ => false

/-- Destroying a value of the type runs code of the module. -/
def hasFinalizer : Ty → Bool
  | struct _ finalizer => finalizer
  | _ => false

end Ty

structure Declaration where
  id : DeclId
  name : String
  kind : DeclKind
  ty : Ty
  /-- Referenced from outside the module, so that no store to it may go. -/
  external : Bool
deriving DecidableEq

namespace Declaration

def isGlobal (d : Declaration) : Bool :=
  match d.kind with
  | .globalVariable => true
  | _ => false

/-- Whether a parameter is declared whose stores the caller sees. -/
def isUpdatedParameter (d : Declaration) : Bool :=
  match d.kind with
  | .parameter .update => true
  | _ => false

end Declaration

/-! ## Expressions -/

inductive Literal where
  | bool (value : Bool)
  | int (value : Int)
  | text (value : String)
deriving DecidableEq

inductive Expr where
  | literal (id : TreeId) (value : Literal)
  /-- A name, with its declaration where it was resolved. -/
  | name (id : TreeId) (name : String) (decl : Option DeclId)
  | assign (id : TreeId) (target source : Expr)
  | call (id : TreeId) (callee : String) (function : Option DeclId) (args : List Expr)
  /-- Any other operation: member access, arithmetic and so on. -/
  | operator (id : TreeId) (op : String) (operands : List Expr)

namespace Expr

def id : Expr → TreeId
  | literal id _ => id
  | name id _ _ => id
  | assign id _ _ => id
  | call id _ _ _ => id
  | operator id _ _ => id

/-- The resolved declaration of a plain name. -/
def named? : Expr → Option DeclId
  | name _ _ decl => decl
  | _ => none

/-- The variable that a store to this target goes to in the end: `x` for `x.a[i]`. -/
def base? : Expr → Option DeclId
  | name _ _ decl => decl
  | operator _ _ (first :: _) => first.base?
  | _ => none

end Expr

/-! ## Statements -/

/-- The variable that a `for` statement sets. -/
structure LoopVar where
  id : TreeId
  decl : DeclId
  name : String
  ty : Ty

/-- What a declaration statement declares. -/
structure LocalVar where
  decl : DeclId
  name : String
  ty : Ty
  init : Option Expr

/-- A statement without parts of its own that passes control to the next one. -/
inductive Simple where
  | expr (e : Expr)
  | declare (var : LocalVar)
  | assert (e : Expr)
  | yield
  | comment (text : String)
  | location (text : String)

/-- A statement that ends the live flow of its block. -/
inductive Jump where
  | return (value : Option Expr)
  | throw (value : Option Expr)
  | break
  | continue

mutual

inductive Stmt where
  | simple (id : TreeId) (what : Simple)
  | jump (id : TreeId) (how : Jump)
  | block (id : TreeId) (body : Block)
  | while (id : TreeId) (cond : Expr) (body : Block) (elseBody : Option Block)
  | for (id : TreeId) (var : LoopVar) (seq : Expr) (body : Block)
  | if (id : TreeId) (cond : Expr) (thenBody : Block) (elseBody : Option Block)
  | try (id : TreeId) (body : Block) (catches : List Catch)

structure Block where
  id : TreeId
  stmts : List Stmt

/-- The handler of a `try` statement, with the variable that it binds. -/
structure Catch where
  id : TreeId
  param : Option DeclId
  body : Block

end

namespace Stmt

def id : Stmt → TreeId
  | simple id _ => id
  | jump id _ => id
  | block id _ => id
  | .while id _ _ _ => id
  | .for id _ _ _ => id
  | .if id _ _ _ => id
  | .try id _ _ => id

/-- Whether the statement ends the live flow of its block. -/
def isJump : Stmt → Bool
  | jump _ _ => true
  | _ => false

end Stmt

/-! ## Modules -/

/-- A global variable with its initial value. -/
structure Global where
  id : TreeId
  decl : DeclId
  name : String
  ty : Ty
  init : Option Expr

/-- A function with its parameters. -/
structure Function where
  name : String
  params : List DeclId
  body : Block

/-- A unit of analysis. -/
structure Module where
  name : String
  decls : List Declaration
  globals : List Global
  body : Block
  functions : List Function

namespace Module

/-- The first declaration with a number. -/
def decl? (m : Module) (d : DeclId) : Option Declaration :=
  m.decls.find? fun decl => decl.id = d

/-- The first function of a name. -/
def function? (m : Module) (name : String) : Option Function :=
  m.functions.find? fun f => f.name = name

end Module

end ControlFlow
