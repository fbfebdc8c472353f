/-! # What can be wrong with a text that is read as a document

A text is broken off, is no JSON, or is good JSON of another form than the one asked for. The
first fault in the text counts; only missing members are found after their whole object.
-/

namespace ControlFlow

/-- How good JSON differs from the form that was asked for. -/
inductive Mismatch where
  | kind
  | value
  /-- An array with too few items. -/
  | length
  | missingField (name : String)
  | duplicateField (name : String)
  | unknownField (name : String) (known : List String)
  | unknownVariant (name : String) (known : List String)
deriving DecidableEq

/-- Names between backquotes, as a choice. -/
def oneOf : List String → String
  | [] => "none"
  | [a] => "`" ++ a ++ "`"
  | [a, b] => "`" ++ a ++ "` or `" ++ b ++ "`"
  | names => "one of " ++ ", ".intercalate (names.map fun name => "`" ++ name ++ "`")

def Mismatch.message : Mismatch → String
  | .kind => "invalid type"
  | .value => "invalid value"
  | .length => "invalid length"
  | .missingField name => "missing field `" ++ name ++ "`"
  | .duplicateField name => "duplicate field `" ++ name ++ "`"
  | .unknownField name known => "unknown field `" ++ name ++ "`, expected " ++ oneOf known
  | .unknownVariant name known => "unknown variant `" ++ name ++ "`, expected " ++ oneOf known

/-- Why a text cannot be read. -/
inductive ReadFault where
  /-- The text ends too early. -/
  | truncated
  /-- The text is no JSON, or nests too deeply. -/
  | malformed
  | mismatch (how : Mismatch)
deriving DecidableEq

end ControlFlow
