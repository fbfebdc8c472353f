import ControlFlow.Document.Basic
import ControlFlow.Tree.Basic

/-! # Modules as documents

Every structure becomes an object with all its fields in their order. A kind of node becomes its
bare name if it has no parts, and an object with one member otherwise. What may be missing is
written as null.
-/

namespace ControlFlow

namespace Document

/-- A number of a node or of a declaration. -/
def ofId (n : Nat) : Document := .number n

/-- A number that may be missing. -/
def ofId? : Option Nat → Document
  | none => .null
  | some n => ofId n

/-- A kind of node with its parts. -/
def tagged (tag : String) (payload : Document) : Document := .object [(tag, payload)]

/-- A node from its number and its kind. -/
def node (id : TreeId) (kind : Document) : Document := .object [("id", ofId id), ("kind", kind)]

end Document

open Document

def Passing.toDocument : Passing → Document
  | .unknown => .text "unknown"
  | .copy => .text "copy"
  | .read => .text "in"
  | .update => .text "in_out"

/-- A kind of declaration, with the parameters where it has some. -/
def DeclKind.toDocument : DeclKind → Document
  | .globalVariable => .text "global_variable"
  | .localVariable => .text "local_variable"
  | .parameter passing => tagged "parameter" (.object [("kind", passing.toDocument)])
  | .function params =>
      tagged "function" (.object [("params", .array (params.map Passing.toDocument))])

def Container.toDocument : Container → Document
  | .bytes => .text "bytes"
  | .list => .text "list"
  | .map => .text "map"
  | .set => .text "set"
  | .stream => .text "stream"
  | .vector => .text "vector"

/-- A type: plain types are names, the others carry what they are made of. -/
def Ty.toDocument : Ty → Document
  | .bool => .text "bool"
  | .int => .text "int"
  | .string => .text "string"
  | .bytes => .text "bytes"
  | .stream => .text "stream"
  | .streamView => .text "stream_view"
  | .iterator container => tagged "iterator" container.toDocument
  | .struct name finalizer =>
      tagged "struct" (.object [("name", .text name), ("has_finalizer", .flag finalizer)])
  | .other name => tagged "other" (.text name)

/-- A declaration, with all its fields. -/
def Declaration.toDocument (d : Declaration) : Document :=
  .object [("id", ofId d.id), ("name", .text d.name), ("kind", d.kind.toDocument),
    ("ty", d.ty.toDocument), ("externally_referenced", .flag d.external)]

def Literal.toDocument : Literal → Document
  | .bool value => tagged "bool" (.flag value)
  | .int value => tagged "int" (.number value)
  | .text value => tagged "string" (.text value)

mutual

/-- An expression: its number, and its parts under the name of its kind. -/
def Expr.toDocument : Expr → Document
  | .literal id value => node id (tagged "literal" value.toDocument)
  | .name id name decl =>
      node id (tagged "name" (.object [("name", .text name), ("decl", ofId? decl)]))
  | .assign id target source =>
      node id (tagged "assign"
        (.object [("target", target.toDocument), ("source", source.toDocument)]))
  | .call id callee function args =>
      node id (tagged "call" (.object
        [("callee", .text callee), ("function", ofId? function),
          ("args", .array (exprDocuments args))]))
  | .operator id op operands =>
      node id (tagged "operator"
        (.object [("op", .text op), ("operands", .array (exprDocuments operands))]))

def exprDocuments : List Expr → List Document
  | [] => []
  | e :: rest => e.toDocument :: exprDocuments rest

end

def exprDocument? : Option Expr → Document
  | none => .null
  | some e => e.toDocument

def LoopVar.toDocument (var : LoopVar) : Document :=
  .object [("id", ofId var.id), ("decl", ofId var.decl), ("name", .text var.name),
    ("ty", var.ty.toDocument)]

def LocalVar.toDocument (var : LocalVar) : Document :=
  .object [("decl", ofId var.decl), ("name", .text var.name), ("ty", var.ty.toDocument),
    ("init", exprDocument? var.init)]

/-- A statement without parts of its own, as a kind of statement. -/
def Simple.toDocument : Simple → Document
  | .expr e => tagged "expr" e.toDocument
  | .declare var => tagged "declaration" var.toDocument
  | .assert e => tagged "assert" e.toDocument
  | .yield => .text "yield"
  | .comment words => tagged "comment" (.text words)
  | .location place => tagged "set_location" (.text place)

def Jump.toDocument : Jump → Document
  | .return value => tagged "return" (exprDocument? value)
  | .throw value => tagged "throw" (exprDocument? value)
  | .break => .text "break"
  | .continue => .text "continue"

/-- The document of a block from those of its statements. -/
def blockDocument (id : TreeId) (stmts : List Document) : Document :=
  .object [("id", ofId id), ("stmts", .array stmts)]

mutual

/-- A statement: its number, and its parts under the name of its kind. -/
def Stmt.toDocument : Stmt → Document
  | .simple id what => node id what.toDocument
  | .jump id how => node id how.toDocument
  | .block id ⟨bid, body⟩ => node id (tagged "block" (blockDocument bid (stmtDocuments body)))
  | .while id cond ⟨bid, body⟩ none =>
      node id (tagged "while" (.object
        [("cond", cond.toDocument), ("body", blockDocument bid (stmtDocuments body)),
          ("else_body", .null)]))
  | .while id cond ⟨bid, body⟩ (some ⟨eid, orElse⟩) =>
      node id (tagged "while" (.object
        [("cond", cond.toDocument), ("body", blockDocument bid (stmtDocuments body)),
          ("else_body", blockDocument eid (stmtDocuments orElse))]))
  | .for id var seq ⟨bid, body⟩ =>
      node id (tagged "for" (.object
        [("var", var.toDocument), ("seq", seq.toDocument),
          ("body", blockDocument bid (stmtDocuments body))]))
  | .if id cond ⟨bid, body⟩ none =>
      node id (tagged "if" (.object
        [("cond", cond.toDocument), ("then_body", blockDocument bid (stmtDocuments body)),
          ("else_body", .null)]))
  | .if id cond ⟨bid, body⟩ (some ⟨eid, orElse⟩) =>
      node id (tagged "if" (.object
        [("cond", cond.toDocument), ("then_body", blockDocument bid (stmtDocuments body)),
          ("else_body", blockDocument eid (stmtDocuments orElse))]))
  | .try id ⟨bid, body⟩ catches =>
      node id (tagged "try" (.object
        [("body", blockDocument bid (stmtDocuments body)),
          ("catches", .array (catchDocuments catches))]))

def stmtDocuments : List Stmt → List Document
  | [] => []
  | s :: rest => s.toDocument :: stmtDocuments rest

def catchDocuments : List Catch → List Document
  | [] => []
  | ⟨id, param, ⟨bid, body⟩⟩ :: rest =>
      .object [("id", ofId id), ("param", ofId? param),
        ("body", blockDocument bid (stmtDocuments body))] :: catchDocuments rest

end

def Block.toDocument (b : Block) : Document := blockDocument b.id (stmtDocuments b.stmts)

def Global.toDocument (g : Global) : Document :=
  .object [("id", ofId g.id), ("decl", ofId g.decl), ("name", .text g.name),
    ("ty", g.ty.toDocument), ("init", exprDocument? g.init)]

def Function.toDocument (f : Function) : Document :=
  .object [("name", .text f.name), ("params", .array (f.params.map ofId)),
    ("body", f.body.toDocument)]

def Module.toDocument (m : Module) : Document :=
  .object [("name", .text m.name), ("decls", .array (m.decls.map Declaration.toDocument)),
    ("globals", .array (m.globals.map Global.toDocument)), ("body", m.body.toDocument),
    ("functions", .array (m.functions.map Function.toDocument))]

end ControlFlow
