import ControlFlow.Document.Reader
import ControlFlow.Tree.Form
import ControlFlow.Tree.Written

/-! # Modules as texts

A module is written as the text of its document, in one of two layouts. Reading accepts every
spelling that `Read` allows of a document of the right form, so that all numbers are in range,
and takes the module from that document.
-/

namespace ControlFlow

/-! ## Trees from documents -/

namespace Document

/-- A number of a node or of a declaration. -/
def id? : Document → Option Nat
  | number n => some n.toNat
  | _ => none

/-- A number that may be null. -/
def optionalId? : Document → Option (Option Nat)
  | null => some none
  | d => d.id?.map some

def passing? : Document → Option Passing
  | text "unknown" => some .unknown
  | text "copy" => some .copy
  | text "in" => some .read
  | text "in_out" => some .update
  | _ => none

def declKind? : Document → Option DeclKind
  | text "global_variable" => some .globalVariable
  | text "local_variable" => some .localVariable
  | object [("parameter", object [(_, kind)])] => kind.passing?.map .parameter
  | object [("function", object [(_, array params)])] => (params.mapM passing?).map .function
  | _ => none

def container? : Document → Option Container
  | text "bytes" => some .bytes
  | text "list" => some .list
  | text "map" => some .map
  | text "set" => some .set
  | text "stream" => some .stream
  | text "vector" => some .vector
  | _ => none

def ty? : Document → Option Ty
  | text "bool" => some .bool
  | text "int" => some .int
  | text "string" => some .string
  | text "bytes" => some .bytes
  | text "stream" => some .stream
  | text "stream_view" => some .streamView
  | object [("iterator", container)] => container.container?.map .iterator
  | object [("struct", object [(_, text name), (_, flag finalizer)])] =>
      some (.struct name finalizer)
  | object [("other", text name)] => some (.other name)
  | _ => none

def declaration? : Document → Option Declaration
  | object [(_, id), (_, text name), (_, kind), (_, ty), (_, flag external)] => do
      return ⟨← id.id?, name, ← kind.declKind?, ← ty.ty?, external⟩
  | _ => none

def literal? : Document → Option Literal
  | object [("bool", flag value)] => some (.bool value)
  | object [("int", number value)] => some (.int value)
  | object [("string", text value)] => some (.text value)
  | _ => none

mutual

/-- An expression; what has none of the other kinds is an operator. -/
def expr? : Document → Option Expr
  | object [(_, id), (_, object [(tag, payload)])] =>
      if tag = "literal" then do return .literal (← id.id?) (← payload.literal?)
      else if tag = "name" then
        match payload with
        | object [(_, text name), (_, decl)] => do
            return .name (← id.id?) name (← decl.optionalId?)
        | _ => none
      else if tag = "assign" then
        match payload with
        | object [(_, target), (_, source)] => do
            return .assign (← id.id?) (← expr? target) (← expr? source)
        | _ => none
      else if tag = "call" then
        match payload with
        | object [(_, text callee), (_, function), (_, array args)] => do
            return .call (← id.id?) callee (← function.optionalId?) (← exprs? args)
        | _ => none
      else
        match payload with
        | object [(_, text op), (_, array operands)] => do
            return .operator (← id.id?) op (← exprs? operands)
        | _ => none
  | _ => none

def exprs? : List Document → Option (List Expr)
  | [] => some []
  | d :: rest => do return (← expr? d) :: (← exprs? rest)

end

/-- An expression that may be null. -/
def optionalExpr? : Document → Option (Option Expr)
  | null => some none
  | d => d.expr?.map some

def loopVar? : Document → Option LoopVar
  | object [(_, id), (_, decl), (_, text name), (_, ty)] => do
      return ⟨← id.id?, ← decl.id?, name, ← ty.ty?⟩
  | _ => none

def localVar? : Document → Option LocalVar
  | object [(_, decl), (_, text name), (_, ty), (_, init)] => do
      return ⟨← decl.id?, name, ← ty.ty?, ← init.optionalExpr?⟩
  | _ => none

/-- A statement that is no compound one, from its kind. -/
def leaf? (id : TreeId) : Document → Option Stmt
  | text tag =>
      if tag = "yield" then some (.simple id .yield)
      else if tag = "break" then some (.jump id .break)
      else some (.jump id .continue)
  | object [(tag, payload)] =>
      if tag = "expr" then payload.expr?.map fun e => .simple id (.expr e)
      else if tag = "assert" then payload.expr?.map fun e => .simple id (.assert e)
      else if tag = "declaration" then payload.localVar?.map fun var => .simple id (.declare var)
      else if tag = "return" then payload.optionalExpr?.map fun e => .jump id (.return e)
      else if tag = "throw" then payload.optionalExpr?.map fun e => .jump id (.throw e)
      else
        match payload with
        | text words =>
            if tag = "comment" then some (.simple id (.comment words))
            else some (.simple id (.location words))
        | _ => none
  | _ => none

mutual

def stmt? : Document → Option Stmt
  | object [(_, id), (_, object [(tag, payload)])] =>
      if tag = "block" then
        match payload with
        | object [(_, bid), (_, array body)] => do
            return .block (← id.id?) ⟨← bid.id?, ← stmts? body⟩
        | _ => none
      else if tag = "while" then
        match payload with
        | object [(_, cond), (_, object [(_, bid), (_, array body)]), (_, orElse)] =>
            match orElse with
            | object [(_, eid), (_, array orElse)] => do
                return .while (← id.id?) (← cond.expr?) ⟨← bid.id?, ← stmts? body⟩
                  (some ⟨← eid.id?, ← stmts? orElse⟩)
            | _ => do
                return .while (← id.id?) (← cond.expr?) ⟨← bid.id?, ← stmts? body⟩ none
        | _ => none
      else if tag = "for" then
        match payload with
        | object [(_, var), (_, seq), (_, object [(_, bid), (_, array body)])] => do
            return .for (← id.id?) (← var.loopVar?) (← seq.expr?) ⟨← bid.id?, ← stmts? body⟩
        | _ => none
      else if tag = "if" then
        match payload with
        | object [(_, cond), (_, object [(_, bid), (_, array body)]), (_, orElse)] =>
            match orElse with
            | object [(_, eid), (_, array orElse)] => do
                return .if (← id.id?) (← cond.expr?) ⟨← bid.id?, ← stmts? body⟩
                  (some ⟨← eid.id?, ← stmts? orElse⟩)
            | _ => do
                return .if (← id.id?) (← cond.expr?) ⟨← bid.id?, ← stmts? body⟩ none
        | _ => none
      else if tag = "try" then
        match payload with
        | object [(_, object [(_, bid), (_, array body)]), (_, array catches)] => do
            return .try (← id.id?) ⟨← bid.id?, ← stmts? body⟩ (← catches? catches)
        | _ => none
      else do (object [(tag, payload)]).leaf? (← id.id?)
  | object [(_, id), (_, kind)] => do kind.leaf? (← id.id?)
  | _ => none

def stmts? : List Document → Option (List Stmt)
  | [] => some []
  | d :: rest => do return (← stmt? d) :: (← stmts? rest)

def catches? : List Document → Option (List Catch)
  | [] => some []
  | object [(_, id), (_, param), (_, object [(_, bid), (_, array body)])] :: rest => do
      return ⟨← id.id?, ← param.optionalId?, ⟨← bid.id?, ← stmts? body⟩⟩ :: (← catches? rest)
  | _ => none

end

def block? : Document → Option Block
  | object [(_, id), (_, array stmts)] => do return ⟨← id.id?, ← stmts? stmts⟩
  | _ => none

def global? : Document → Option Global
  | object [(_, id), (_, decl), (_, text name), (_, ty), (_, init)] => do
      return ⟨← id.id?, ← decl.id?, name, ← ty.ty?, ← init.optionalExpr?⟩
  | _ => none

def function? : Document → Option Function
  | object [(_, text name), (_, array params), (_, body)] => do
      return ⟨name, ← params.mapM id?, ← body.block?⟩
  | _ => none

def module? : Document → Option Module
  | object [(_, text name), (_, array decls), (_, array globals), (_, body),
      (_, array functions)] => do
      return ⟨name, ← decls.mapM declaration?, ← globals.mapM global?, ← body.block?,
        ← functions.mapM function?⟩
  | _ => none

end Document

/-! ## Texts -/

/-- A document that was read with a schema always has a value. -/
def orMalformed {α : Type} : Option α → Except ReadFault α
  | some a => .ok a
  | none => .error .malformed

def Ty.parse (text : String) : Except ReadFault Ty := do
  orMalformed (← Document.read TreeForm.schema (.form .ty) text).ty?

namespace Module

def parse (text : String) : Except ReadFault Module := do
  orMalformed (← Document.read TreeForm.schema (.form .module) text).module?

def compact (m : Module) : String := m.toDocument.render Document.compact

/-- The text of a module with each item on a line of its own. -/
def indented (m : Module) : String := m.toDocument.render Document.indented

end Module

end ControlFlow
