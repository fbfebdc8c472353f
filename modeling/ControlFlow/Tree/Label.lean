import ControlFlow.Tree.Basic
import ControlFlow.Text.Decimal
import ControlFlow.Text.Quoted

/-! # Display of trees on one line

The labels of graph nodes and the reports show a tree as one line of text.
-/

namespace ControlFlow

def Container.label : Container → String
  | .bytes => "bytes"
  | .list => "list"
  | .map => "map"
  | .set => "set"
  | .stream => "stream"
  | .vector => "vector"

/-- A type as it is written in declarations. -/
def Ty.label : Ty → String
  | .bool => "bool"
  | .int => "int"
  | .string => "string"
  | .bytes => "bytes"
  | .stream => "stream"
  | .streamView => "view<stream>"
  | .iterator container => "iterator<" ++ container.label ++ ">"
  | .struct name _ => "struct " ++ name
  | .other name => name

/-- A constant as it is written in expressions. -/
def Literal.label : Literal → String
  | .bool true => "True"
  | .bool false => "False"
  | .int value => String.ofList (Text.signed value)
  | .text value => Text.quoted value

mutual

/-- An expression on one line; an operator with one or two operands is written beside them. -/
def Expr.label : Expr → String
  | .literal _ value => value.label
  | .name _ name _ => name
  | .assign _ target source => target.label ++ " = " ++ source.label
  | .call _ callee _ args => callee ++ "(" ++ ", ".intercalate (labelsOf args) ++ ")"
  | .operator _ op [operand] => op ++ operand.label
  | .operator _ op [left, right] => left.label ++ " " ++ op ++ " " ++ right.label
  | .operator _ op operands => op ++ "(" ++ ", ".intercalate (labelsOf operands) ++ ")"

def labelsOf : List Expr → List String
  | [] => []
  | e :: rest => e.label :: labelsOf rest

end

/-- A declared variable, with its initial value if it has one. -/
def declarationLabel (scope : String) (ty : Ty) (name : String) : Option Expr → String
  | some init => scope ++ " " ++ ty.label ++ " " ++ name ++ " = " ++ init.label ++ ";"
  | none => scope ++ " " ++ ty.label ++ " " ++ name ++ ";"

/-- A declaration statement. -/
def LocalVar.label (var : LocalVar) : String := declarationLabel "local" var.ty var.name var.init

def Global.label (g : Global) : String := declarationLabel "global" g.ty g.name g.init

def LoopVar.label (var : LoopVar) : String := "local " ++ var.ty.label ++ " " ++ var.name

/-- A statement without parts of its own. -/
def Simple.label : Simple → String
  | .expr e => e.label ++ ";"
  | .declare var => var.label
  | .assert e => "assert " ++ e.label ++ ";"
  | .yield => "yield;"
  | .comment text => "# " ++ text
  | .location text => "# location: " ++ text

def Jump.label : Jump → String
  | .return (some e) => "return " ++ e.label ++ ";"
  | .return none => "return;"
  | .throw (some e) => "throw " ++ e.label ++ ";"
  | .throw none => "throw;"
  | .break => "break;"
  | .continue => "continue;"

mutual

/-- A statement on one line. -/
def Stmt.label : Stmt → String
  | .simple _ what => what.label
  | .jump _ how => how.label
  | .block _ ⟨_, body⟩ => "\x7b" ++ tailLabel body
  | .while _ cond ⟨_, body⟩ none => "while ( " ++ cond.label ++ " ) \x7b" ++ tailLabel body
  | .while _ cond ⟨_, body⟩ (some ⟨_, orElse⟩) =>
      "while ( " ++ cond.label ++ " ) \x7b" ++ tailLabel body ++ " else \x7b" ++ tailLabel orElse
  | .for _ var seq ⟨_, body⟩ =>
      "for ( " ++ var.name ++ " in " ++ seq.label ++ " ) \x7b" ++ tailLabel body
  | .if _ cond ⟨_, body⟩ none => "if ( " ++ cond.label ++ " ) \x7b" ++ tailLabel body
  | .if _ cond ⟨_, body⟩ (some ⟨_, orElse⟩) =>
      "if ( " ++ cond.label ++ " ) \x7b" ++ tailLabel body ++ " else \x7b" ++ tailLabel orElse
  | .try _ ⟨_, body⟩ catches => "try \x7b" ++ tailLabel body ++ catchesLabel catches

/-- The statements of a block and its closing brace, a blank before each. -/
def tailLabel : List Stmt → String
  | [] => " \x7d"
  | s :: rest => " " ++ s.label ++ tailLabel rest

/-- The bodies of catches. -/
def catchesLabel : List Catch → String
  | [] => ""
  | ⟨_, _, ⟨_, body⟩⟩ :: rest => " catch \x7b" ++ tailLabel body ++ catchesLabel rest

end

/-- A block on one line. -/
def Block.label (b : Block) : String := "\x7b" ++ tailLabel b.stmts

end ControlFlow
