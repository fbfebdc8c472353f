import ControlFlow.Document.Basic

/-! # Shapes: which documents are asked for

A schema names the forms that documents take. A form is a record with named fields or a choice
between named variants; shapes refer to forms by name, so that forms may contain themselves.
-/

namespace ControlFlow

/-- What a document may be, where `ι` names the forms of a schema. -/
inductive Shape (ι : Type) where
  | flag
  | number (low high : Int)
  | text
  | sequence (item : Shape ι)
  | form (name : ι)

/-- A place for a document, which may also be null. -/
structure Slot (ι : Type) where
  shape : Shape ι
  nullable : Bool

/-- What stands for a field that is not given. -/
inductive Absent where
  | refused
  /-- Null does in an object; in an array the field has to be given. -/
  | null
  /-- A fixed document does. -/
  | default (value : Document)

structure Field (ι : Type) where
  name : String
  slot : Slot ι
  absent : Absent

/-- What a variant carries. -/
inductive Payload (ι : Type) where
  | nothing
  | value (slot : Slot ι)

inductive Form (ι : Type) where
  /-- A record; a closed one refuses members that are none of its fields. -/
  | record (fields : List (Field ι)) (closed : Bool)
  | choice (variants : List (String × Payload ι))

/-- The forms by their names. -/
abbrev Schema (ι : Type) := ι → Form ι

namespace Shape

def unsigned {ι : Type} (bits : Nat) : Shape ι := .number 0 (Nat.pow 2 bits - 1 : Nat)

def signed {ι : Type} (bits : Nat) : Shape ι :=
  .number (-(Nat.pow 2 (bits - 1) : Nat)) (Nat.pow 2 (bits - 1) - 1 : Nat)

end Shape

namespace Field

variable {ι : Type}

/-- A field that has to be given. -/
def given (name : String) (shape : Shape ι) : Field ι := ⟨name, ⟨shape, false⟩, .refused⟩

/-- A field that may be null or, in an object, missing. -/
def optional (name : String) (shape : Shape ι) : Field ι := ⟨name, ⟨shape, true⟩, .null⟩

/-- A field with a value of its own where it is not given. -/
def defaulted (name : String) (shape : Shape ι) (value : Document) : Field ι :=
  ⟨name, ⟨shape, false⟩, .default value⟩

end Field

/-- The greatest number of brackets around a value that a reader accepts. -/
def maxNesting : Nat := 127

end ControlFlow
