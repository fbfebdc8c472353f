import ControlFlow.Document.Shape

/-! # The forms of stored modules

A module is stored as a document: a structure as an object with all its fields, a kind of node as
its bare name or as an object whose only member carries its parts. The schema gives the fields of
every structure and the kinds of every node in the order in which faults list them.
-/

namespace ControlFlow

/-- The forms of the documents of a module. -/
inductive TreeForm where
  | module
  | function
  | global
  | declaration
  | declKind
  | parameterKind
  | functionKind
  | passing
  | ty
  | structTy
  | container
  | literal
  | expr
  | exprKind
  | nameExpr
  | assignExpr
  | callExpr
  | operatorExpr
  | stmt
  | stmtKind
  | whileStmt
  | forStmt
  | ifStmt
  | tryStmt
  | loopVar
  | localVar
  | block
  | handler
deriving DecidableEq

namespace TreeForm

open ControlFlow.Field

/-- The number of a node or of a declaration. -/
def number : Shape TreeForm := .unsigned 32

/-- A variant that carries one document. -/
def carries (name : String) (shape : Shape TreeForm) : String × Payload TreeForm :=
  (name, .value ⟨shape, false⟩)

/-- A variant that carries a document or null. -/
def mayCarry (name : String) (shape : Shape TreeForm) : String × Payload TreeForm :=
  (name, .value ⟨shape, true⟩)

def bare (name : String) : String × Payload TreeForm := (name, .nothing)

/-- The fields and variants of every form. -/
def schema : Schema TreeForm
  | module => .record
      [given "name" .text, given "decls" (.sequence (.form declaration)),
        given "globals" (.sequence (.form global)), given "body" (.form block),
        defaulted "functions" (.sequence (.form function)) (.array [])] false
  | function => .record
      [given "name" .text, given "params" (.sequence number), given "body" (.form block)] false
  | global => .record
      [given "id" number, given "decl" number, given "name" .text, given "ty" (.form ty),
        optional "init" (.form expr)] false
  | declaration => .record
      [given "id" number, given "name" .text, given "kind" (.form declKind),
        given "ty" (.form ty), defaulted "externally_referenced" .flag (.flag false)] false
  | declKind => .choice
      [bare "global_variable", bare "local_variable",
        carries "parameter" (.form parameterKind), carries "function" (.form functionKind)]
  | parameterKind => .record [given "kind" (.form passing)] false
  | functionKind => .record [given "params" (.sequence (.form passing))] false
  | passing => .choice [bare "unknown", bare "copy", bare "in", bare "in_out"]
  | ty => .choice
      [bare "bool", bare "int", bare "string", bare "bytes", bare "stream", bare "stream_view",
        carries "iterator" (.form container), carries "struct" (.form structTy),
        carries "other" .text]
  | structTy => .record [given "name" .text, given "has_finalizer" .flag] false
  | container => .choice
      [bare "bytes", bare "list", bare "map", bare "set", bare "stream", bare "vector"]
  | literal => .choice [carries "bool" .flag, carries "int" (.signed 64), carries "string" .text]
  | expr => .record [given "id" number, given "kind" (.form exprKind)] false
  | exprKind => .choice
      [carries "literal" (.form literal), carries "name" (.form nameExpr),
        carries "assign" (.form assignExpr), carries "call" (.form callExpr),
        carries "operator" (.form operatorExpr)]
  | nameExpr => .record [given "name" .text, optional "decl" number] false
  | assignExpr => .record [given "target" (.form expr), given "source" (.form expr)] false
  | callExpr => .record
      [given "callee" .text, optional "function" number,
        given "args" (.sequence (.form expr))] false
  | operatorExpr => .record [given "op" .text, given "operands" (.sequence (.form expr))] false
  | stmt => .record [given "id" number, given "kind" (.form stmtKind)] false
  | stmtKind => .choice
      [carries "expr" (.form expr), carries "block" (.form block),
        carries "while" (.form whileStmt), carries "for" (.form forStmt),
        carries "if" (.form ifStmt), carries "try" (.form tryStmt),
        mayCarry "return" (.form expr), mayCarry "throw" (.form expr), bare "break",
        bare "continue", carries "declaration" (.form localVar), carries "assert" (.form expr),
        bare "yield", carries "comment" .text, carries "set_location" .text]
  | whileStmt => .record
      [given "cond" (.form expr), given "body" (.form block),
        optional "else_body" (.form block)] false
  | forStmt => .record
      [given "var" (.form loopVar), given "seq" (.form expr), given "body" (.form block)] false
  | ifStmt => .record
      [given "cond" (.form expr), given "then_body" (.form block),
        optional "else_body" (.form block)] false
  | tryStmt => .record
      [given "body" (.form block), given "catches" (.sequence (.form handler))] false
  | loopVar => .record
      [given "id" number, given "decl" number, given "name" .text, given "ty" (.form ty)] false
  | localVar => .record
      [given "decl" number, given "name" .text, given "ty" (.form ty),
        optional "init" (.form expr)] false
  | block => .record [given "id" number, given "stmts" (.sequence (.form stmt))] false
  | handler => .record
      [given "id" number, optional "param" number, given "body" (.form block)] false

end TreeForm

end ControlFlow
