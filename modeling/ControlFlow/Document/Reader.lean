import ControlFlow.Document.Scan
import ControlFlow.Document.Shape

/-! # Reading a document of a given form

The reader accepts several spellings of one document and always returns the same one: a record
as an object with all its fields in their order, a variant without payload as its bare name.

* A record may be given as an object with its members in any order, or as the array of its
  fields. Unknown members are passed over unless the record is closed.
* A variant without payload may be given as an object with the member null.
* Brackets nest at most `maxNesting` deep; members that are passed over do not count.

Readers of arrays and objects are given a bound for the number of items or members. Each of those
takes a character at least, so the length of the whole text serves for all of them.
-/

namespace ControlFlow

namespace Read

open Scan

/-! ## Values without parts -/

/-- The fault of a reader that was to fail, and the wrong kind if it did not. -/
def faultOrKind {α : Type} : Except ReadFault α → ReadFault
  | .error fault => fault
  | .ok _ => .mismatch .kind

/-- What is wrong with a value of another kind than the one asked for. A value without parts
has to be well formed before its kind counts. -/
def misfit : List Char → ReadFault
  | 'n' :: rest => faultOrKind (word ['u', 'l', 'l'] rest)
  | 't' :: rest => faultOrKind (word ['r', 'u', 'e'] rest)
  | 'f' :: rest => faultOrKind (word ['a', 'l', 's', 'e'] rest)
  | '"' :: rest => faultOrKind (text rest)
  | '[' :: _ | '\x7b' :: _ => .mismatch .kind
  | c :: rest => if c = '-' ∨ c.isDigit then faultOrKind (numeral (c :: rest)) else .malformed
  | [] => .truncated

def flag (input : List Char) : Except ReadFault (Document × List Char) :=
  match skipBlanks input with
  | 't' :: rest => do return (.flag true, ← word ['r', 'u', 'e'] rest)
  | 'f' :: rest => do return (.flag false, ← word ['a', 'l', 's', 'e'] rest)
  | rest => .error (misfit rest)

/-- A whole number between two bounds. -/
def number (low high : Int) (input : List Char) : Except ReadFault (Document × List Char) :=
  match skipBlanks input with
  | c :: rest =>
      if c = '-' ∨ c.isDigit then
        match numeral (c :: rest) with
        | .error fault => .error fault
        | .ok (.fraction, _) => .error (.mismatch .kind)
        | .ok (.integer n, rest) =>
            if low ≤ n ∧ n ≤ high then .ok (.number n, rest) else .error (.mismatch .value)
      else .error (misfit (c :: rest))
  | [] => .error .truncated

/-- A text, without the document around it. -/
def string (input : List Char) : Except ReadFault (String × List Char) :=
  match skipBlanks input with
  | '"' :: rest => do
      let (cs, rest) ← text rest
      return (String.ofList cs, rest)
  | rest => .error (misfit rest)

def colon (input : List Char) : Except ReadFault (List Char) :=
  match skipBlanks input with
  | [] => .error .truncated
  | ':' :: rest => .ok rest
  | _ => .error .malformed

/-! ## Arrays -/

/-- The items of an array up to its closing bracket, which is passed over. A comma comes before
every item but the first. -/
def items (item : Reader Document) :
    Nat → Bool → List Char → Except ReadFault (List Document × List Char)
  | 0, _, _ => .error .truncated
  | fuel + 1, first, input =>
      match skipBlanks input with
      | [] => .error .truncated
      | c :: rest =>
          if c = ']' then .ok ([], rest)
          else if first then do
            let (d, rest) ← item (c :: rest)
            let (ds, rest) ← items item fuel false rest
            return (d :: ds, rest)
          else if c = ',' then
            match skipBlanks rest with
            | [] => .error .truncated
            | ']' :: _ => .error .malformed
            | rest => do
                let (d, rest) ← item rest
                let (ds, rest) ← items item fuel false rest
                return (d :: ds, rest)
          else .error .malformed

/-- The closing bracket of an array all of whose items were read. -/
def arrayEnd (input : List Char) : Except ReadFault (List Char) :=
  match skipBlanks input with
  | [] => .error .truncated
  | ']' :: rest => .ok rest
  | _ => .error .malformed

variable {ι : Type}

/-- The fields that an array leaves out; only fixed documents stand for those. -/
def absentItems : List (Field ι) → Except ReadFault (List (String × Document))
  | [] => .ok []
  | ⟨name, _, .default value⟩ :: rest => do return (name, value) :: (← absentItems rest)
  | _ :: _ => .error (.mismatch .length)

/-- The fields of a record that is given as an array, each read from its item. -/
def fieldItems (item : Slot ι → Reader Document) :
    List (Field ι) → Bool → List Char → Except ReadFault (List (String × Document) × List Char)
  | [], _, input => do return ([], ← arrayEnd input)
  | field :: rest, first, input =>
      match skipBlanks input with
      | [] => .error .truncated
      | c :: left =>
          if c = ']' then do return (← absentItems (field :: rest), left)
          else if first then do
            let (d, left) ← item field.slot (c :: left)
            let (ds, left) ← fieldItems item rest false left
            return ((field.name, d) :: ds, left)
          else if c = ',' then
            match skipBlanks left with
            | [] => .error .truncated
            | ']' :: _ => .error .malformed
            | left => do
                let (d, left) ← item field.slot left
                let (ds, left) ← fieldItems item rest false left
                return ((field.name, d) :: ds, left)
          else .error .malformed

/-! ## Objects -/

/-- Read on to the name of the next member, or to the closing brace; the name comes without its
opening quote. -/
def nextMember (first : Bool) (input : List Char) : Except ReadFault (Bool × List Char) :=
  match skipBlanks input with
  | [] => .error .truncated
  | '\x7d' :: rest => .ok (false, rest)
  | '"' :: rest => if first then .ok (true, rest) else .error .malformed
  | ',' :: rest =>
      if first then .error .malformed
      else
        match skipBlanks rest with
        | [] => .error .truncated
        | '"' :: rest => .ok (true, rest)
        | _ => .error .malformed
  | _ => .error .malformed

/-- The members of an object that are fields of a record, in the order in which they come. -/
def members (fields : List (Field ι)) (closed : Bool) (item : Slot ι → Reader Document) :
    Nat → List (String × Document) → Bool → List Char →
      Except ReadFault (List (String × Document) × List Char)
  | 0, _, _, _ => .error .truncated
  | fuel + 1, found, first, input => do
      let (more, rest) ← nextMember first input
      if more then
        let (cs, rest) ← text rest
        let name := String.ofList cs
        match fields.find? fun field => field.name = name with
        | some field =>
            if found.any fun member => member.1 = name then
              .error (.mismatch (.duplicateField name))
            else
              let (d, rest) ← item field.slot (← colon rest)
              members fields closed item fuel ((name, d) :: found) false rest
        | none =>
            if closed then .error (.mismatch (.unknownField name (fields.map Field.name)))
            else members fields closed item fuel found false (← skipValue fuel (← colon rest))
      else return (found, rest)

/-- A field from the members that were found, or what stands for it. -/
def fieldValue (found : List (String × Document)) (field : Field ι) :
    Except ReadFault (String × Document) :=
  match found.find? fun member => member.1 = field.name, field.absent with
  | some member, _ => .ok (field.name, member.2)
  | none, .refused => .error (.mismatch (.missingField field.name))
  | none, .null => .ok (field.name, .null)
  | none, .default value => .ok (field.name, value)

def fieldValues (found : List (String × Document)) :
    List (Field ι) → Except ReadFault (List (String × Document))
  | [] => .ok []
  | field :: rest => do return (← fieldValue found field) :: (← fieldValues found rest)

/-! ## Forms

Inside a bracket documents are read by a given reader, which is missing where no further
bracket may open. -/

/-- A document for a slot. -/
def slot (inside : Shape ι → Reader Document) (s : Slot ι) (input : List Char) :
    Except ReadFault (Document × List Char) :=
  if s.nullable then
    match skipBlanks input with
    | 'n' :: rest => do return (.null, ← word ['u', 'l', 'l'] rest)
    | rest => inside s.shape rest
  else inside s.shape input

/-- A record, from an object or an array. -/
def record (bound : Nat) (inside : Option (Shape ι → Reader Document)) (fields : List (Field ι))
    (closed : Bool) (input : List Char) : Except ReadFault (Document × List Char) :=
  match skipBlanks input, inside with
  | '[' :: _, none | '\x7b' :: _, none => .error .malformed
  | '[' :: rest, some inside => do
      let (values, rest) ← fieldItems (slot inside) fields true rest
      return (.object values, rest)
  | '\x7b' :: rest, some inside => do
      let (found, rest) ← members fields closed (slot inside) bound [] true rest
      return (.object (← fieldValues found fields), rest)
  | rest, _ => .error (misfit rest)

/-- The name of the only member of an object, which is what says how to read the member. A member
without a name is malformed here, as it is in every other object. -/
def onlyName (input : List Char) : Except ReadFault (String × List Char) :=
  match skipBlanks input with
  | [] => .error .truncated
  | '"' :: rest => do
      let (cs, rest) ← text rest
      return (String.ofList cs, rest)
  | _ => .error .malformed

/-- What a variant with a name carries. -/
def variant (variants : List (String × Payload ι)) (name : String) :
    Except ReadFault (Payload ι) :=
  match variants.find? fun v => v.1 = name with
  | some v => .ok v.2
  | none => .error (.mismatch (.unknownVariant name (variants.map Prod.fst)))

/-- Null, where nothing is carried. -/
def nothing (input : List Char) : Except ReadFault (List Char) :=
  match skipBlanks input with
  | 'n' :: rest => word ['u', 'l', 'l'] rest
  | rest => .error (misfit rest)

/-- The closing brace of an object with one member. -/
def variantEnd (input : List Char) : Except ReadFault (List Char) :=
  match skipBlanks input with
  | [] => .error .truncated
  | '\x7d' :: rest => .ok rest
  | _ => .error .malformed

/-- A choice, from a bare name or an object with one member. -/
def choice (inside : Option (Shape ι → Reader Document)) (variants : List (String × Payload ι))
    (input : List Char) : Except ReadFault (Document × List Char) :=
  match skipBlanks input, inside with
  | [], _ => .error .truncated
  | '"' :: rest, _ => do
      let (cs, rest) ← text rest
      let name := String.ofList cs
      match ← variant variants name with
      | .nothing => return (.text name, rest)
      | _ => .error (.mismatch .kind)
  | '\x7b' :: _, none => .error .malformed
  | '\x7b' :: rest, some inside => do
      let (name, rest) ← onlyName rest
      let payload ← variant variants name
      let rest ← colon rest
      match payload with
      | .nothing => return (.text name, ← variantEnd (← nothing rest))
      | .value s => do
          let (d, rest) ← slot inside s rest
          return (.object [(name, d)], ← variantEnd rest)
  | _, _ => .error .malformed

def sequence (bound : Nat) (inside : Option (Shape ι → Reader Document)) (item : Shape ι)
    (input : List Char) : Except ReadFault (Document × List Char) :=
  match skipBlanks input, inside with
  | '[' :: _, none => .error .malformed
  | '[' :: rest, some inside => do
      let (ds, rest) ← items (inside item) bound true rest
      return (.array ds, rest)
  | rest, _ => .error (misfit rest)

/-- A document of a shape whose inside is read by a given reader. -/
def shape (schema : Schema ι) (bound : Nat) (inside : Option (Shape ι → Reader Document)) :
    Shape ι → Reader Document
  | .flag => flag
  | .number low high => number low high
  | .text => fun input => do
      let (s, rest) ← string input
      return (.text s, rest)
  | .sequence item => sequence bound inside item
  | .form name =>
      match schema name with
      | .record fields closed => record bound inside fields closed
      | .choice variants => choice inside variants

/-- A document of a shape with at most the given number of brackets inside each other. -/
def within (schema : Schema ι) (bound : Nat) : Nat → Shape ι → Reader Document
  | 0 => shape schema bound none
  | depth + 1 => shape schema bound (some (within schema bound depth))

end Read

/-- Read a whole text as one document of a shape; blanks may stand around it. -/
def Document.read {ι : Type} (schema : Schema ι) (s : Shape ι) (text : String) :
    Except ReadFault Document := do
  let input := text.toList
  let (d, rest) ← Read.within schema (input.length + 1) maxNesting s input
  match Scan.skipBlanks rest with
  | [] => return d
  | _ => .error .malformed

end ControlFlow
