import ControlFlow.Proofs.Graph.Escaped

/-! # Texts that two quotes enclose

A text between two quotes is one string of a drawing if every quote in it is the second character of
an escape and it does not end inside one: then the quote behind it is the one that ends the string.
Escaping makes such a text of any other, without control characters, from which that text can be
read again.
-/

namespace ControlFlow.Escaped

open Text

/-! ## Strings of a drawing -/

/-- Whether the next character is the second one of an escape, after a character that is one itself
or not. -/
def begins (inside : Bool) (c : Char) : Bool := !inside && c = '\\'

/-- Up to the first quote that does not belong to an escape, and what comes after that quote. -/
def cut (inside : Bool) : List Char → Option (List Char × List Char)
  | [] => none
  | c :: rest =>
      if c = '"' ∧ inside = false then some ([], rest) else push c (cut (begins inside c) rest)

/-- Every quote in a text is the second character of an escape, and the text does not end inside
one; the text itself may begin inside one. -/
structure Enclosed (inside : Bool) (cs : List Char) : Prop where
  quoted : ∀ before after, cs = before ++ '"' :: after → before.foldl begins inside = true
  complete : cs.foldl begins inside = false

section

variable {inside : Bool} {c : Char} {cs ds rest : List Char}

theorem enclosed_nil : Enclosed inside [] ↔ inside = false := by
  refine ⟨fun h => h.complete, fun h => ⟨fun before after heq => ?_, h⟩⟩
  exact absurd heq.symm (List.append_ne_nil_of_right_ne_nil _ (List.cons_ne_nil _ _))

theorem enclosed_cons : Enclosed inside (c :: cs) ↔
    (c = '"' → inside = true) ∧ Enclosed (begins inside c) cs := by
  constructor
  · intro h
    refine ⟨fun hc => h.quoted [] cs (by rw [hc, List.nil_append]), fun before after heq => ?_,
      h.complete⟩
    exact h.quoted (c :: before) after (by rw [heq, List.cons_append])
  · rintro ⟨hfirst, h⟩
    refine ⟨fun before after heq => ?_, h.complete⟩
    cases before with
    | nil => exact hfirst (List.cons.inj heq).1
    | cons d before =>
        obtain ⟨rfl, hrest⟩ := List.cons.inj heq
        exact h.quoted before after hrest

theorem Enclosed.append (h : Enclosed inside cs) (h' : Enclosed false ds) :
    Enclosed inside (cs ++ ds) := by
  induction cs generalizing inside with
  | nil => exact enclosed_nil.mp h ▸ h'
  | cons c cs ih =>
      obtain ⟨hfirst, hrest⟩ := enclosed_cons.mp h
      exact enclosed_cons.mpr ⟨hfirst, ih hrest⟩

theorem push_eq_some_iff {r : Option (List Char × List Char)} :
    push c r = some (c :: cs, rest) ↔ r = some (cs, rest) := by
  cases r with
  | none => simp [push]
  | some r => simp [push, Prod.ext_iff]

/-- The string that a quote behind a text ends is the whole text if and only if the two quotes
enclose the text. -/
theorem cut_eq_some_iff :
    cut inside (cs ++ '"' :: rest) = some (cs, rest) ↔ Enclosed inside cs := by
  induction cs generalizing inside with
  | nil =>
      rw [enclosed_nil, List.nil_append, cut]
      cases inside with
      | false => simp
      | true => cases hcut : cut (begins true '"') rest <;> simp [push]
  | cons c cs ih =>
      rw [enclosed_cons, List.cons_append, cut]
      by_cases hquote : c = '"' ∧ inside = false
      · rw [if_pos hquote]
        simp [hquote.1, hquote.2]
      · rw [if_neg hquote, push_eq_some_iff, ih]
        have hfirst (hc : c = '"') : inside = true := by
          cases inside with
          | false => exact absurd ⟨hc, rfl⟩ hquote
          | true => rfl
        exact (and_iff_right hfirst).symm

end

/-! ## Escaped texts -/

theorem enclosed_char (c : Char) : Enclosed false (char c) := by
  have hpair (d : Char) : Enclosed false ['\\', d] := by
    simp [enclosed_cons, enclosed_nil, begins]
  have hplain {d : Char} (hquote : d ≠ '"') (hslash : d ≠ '\\') : Enclosed false [d] := by
    simp [enclosed_cons, enclosed_nil, begins, hquote, hslash]
  unfold char
  split_ifs with hquote hslash hline htab hreturn hcontrol
  · exact hpair _
  · exact hpair _
  · exact hpair _
  · exact hpair _
  · exact hpair _
  · obtain ⟨-, hquote, hslash⟩ := hexDigit_plain (Nat.mod_lt (c.toNat / 16) (by decide : 0 < 16))
    obtain ⟨-, hquote', hslash'⟩ := hexDigit_plain (Nat.mod_lt c.toNat (by decide : 0 < 16))
    exact (hpair 'x').append ((hplain hquote hslash).append (hplain hquote' hslash'))
  · exact hplain hquote hslash

theorem enclosed_chars (cs : List Char) : Enclosed false (chars cs) := by
  induction cs with
  | nil => exact enclosed_nil.mpr rfl
  | cons c cs ih =>
      rw [chars, List.flatMap_cons]
      exact (enclosed_char c).append ih

/-- The text that an escaped text stands for, if it is all of one string. -/
def decode (t : String) : Option String :=
  match read (t.toList ++ ['"']) with
  | some (cs, []) => some (String.ofList cs)
  | _ => none

theorem decode_text (s : String) : decode (text s) = some s := by
  rw [decode, text, String.toList_ofList, read_chars]
  exact congrArg some s.ofList_toList

/-- Escaping is safe and can be undone. There is no control character in an escaped text. Every
quote in it is the second character of an escape and it does not end inside one, so that between
two quotes it is one string, whatever comes behind. The text is decoded from it, so that no other
text is escaped to the same. -/
theorem text_enclosed (s : String) :
    (∀ c ∈ (text s).toList, ¬ (c.toNat < 0x20 ∨ 0x7F ≤ c.toNat ∧ c.toNat < 0xA0)) ∧
      Enclosed false (text s).toList ∧
      (∀ rest, cut false ((text s).toList ++ '"' :: rest) = some ((text s).toList, rest)) ∧
      decode (text s) = some s ∧ ∀ t, text t = text s → t = s := by
  have henclosed : Enclosed false (text s).toList := by
    rw [text, String.toList_ofList]
    exact enclosed_chars _
  refine ⟨fun c hc => of_decide_eq_false (isControl_of_mem_text hc), henclosed,
    fun rest => cut_eq_some_iff.mpr henclosed, decode_text s, fun t ht => ?_⟩
  have hdecoded := decode_text t
  rw [ht, decode_text] at hdecoded
  exact (Option.some.inj hdecoded).symm

/-- A text with quotes, backslashes, control characters and what looks like escapes of them. -/
def mixed : String := "\\x01\x01 \"\\n\" \n\x7f\u0085\\"

/-- Even there, what is cut off before the rest of a line is all of the text. What looks like the
escape of a control character is not escaped to the same. -/
theorem text_enclosed_mixed :
    text mixed = "\\\\x01\\x01 \\\"\\\\n\\\" \\n\\x7f\\x85\\\\" ∧
      '"' ∈ (text mixed).toList ∧
      ¬ ('"'.toNat < 0x20 ∨ 0x7F ≤ '"'.toNat ∧ '"'.toNat < 0xA0) ∧
      Enclosed false (text mixed).toList ∧
      cut false ((text mixed).toList ++ "\"];".toList) = some ((text mixed).toList, "];".toList) ∧
      decode (text mixed) = some mixed ∧ text "\\x01" ≠ text "\x01" := by
  have hquote : '"' ∈ (text mixed).toList := by decide
  obtain ⟨hshown, henclosed, hcut, hdecode, -⟩ := text_enclosed mixed
  obtain ⟨-, -, -, -, hother⟩ := text_enclosed "\x01"
  exact ⟨by decide, hquote, hshown _ hquote, henclosed, hcut _, hdecode,
    fun h => absurd (hother _ h) (by decide)⟩

end ControlFlow.Escaped
