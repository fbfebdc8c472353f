import ControlFlow.Graph.Escaped
import Mathlib.Tactic.SplitIfs

/-! # Reading texts between the quotes of a drawing

A text between double quotes is read back as it was, whatever comes after the closing quote, and no
control character is left in it, so that it never breaks its line.
-/

namespace ControlFlow

namespace Text

/-- The byte that two hexadecimal digits stand for. -/
def byte? (high low : Char) : Option Nat := do
  return 16 * (← hexValue? high) + (← hexValue? low)

theorem byte?_hexPair {n : Nat} (h : n < 256) :
    byte? (hexDigit (n / 16 % 16)) (hexDigit (n % 16)) = some n := by
  have hhigh := hexValue?_hexDigit (Nat.mod_lt (n / 16) (by decide : 0 < 16))
  have hlow := hexValue?_hexDigit (Nat.mod_lt n (by decide : 0 < 16))
  simp only [byte?, hhigh, hlow, Option.bind_eq_bind, Option.bind_some, Option.pure_def,
    Option.some.injEq]
  omega

end Text

namespace Escaped

open Text

/-- The character that a short escape stands for. -/
def short? : Char → Option Char
  | '"' => some '"'
  | '\\' => some '\\'
  | 'n' => some '\n'
  | 't' => some '\t'
  | 'r' => some '\r'
  | _ => none

/-- A character before a text that was read. -/
def push (c : Char) : Option (List Char × List Char) → Option (List Char × List Char) :=
  Option.map fun r => (c :: r.1, r.2)

/-- The text up to its closing quote, with what comes after it. -/
def read : List Char → Option (List Char × List Char)
  | [] => none
  | '"' :: rest => some ([], rest)
  | '\\' :: 'x' :: high :: low :: rest =>
      (byte? high low).bind fun n => push (Char.ofNat n) (read rest)
  | '\\' :: c :: rest => (short? c).bind fun d => push d (read rest)
  | c :: rest => push c (read rest)

section

variable {c d : Char} {rest : List Char}

theorem read_plain (hquote : c ≠ '"') (hslash : c ≠ '\\') :
    read (c :: rest) = push c (read rest) := by
  rw [read]
  · exact hquote
  · exact fun _ _ _ heq => absurd heq hslash
  · exact fun _ _ heq => absurd heq hslash

theorem read_short (h : short? d = some c) :
    read ('\\' :: d :: rest) = push c (read rest) := by
  have hunit : d ≠ 'x' := by
    rintro rfl
    cases h
  rw [read]
  · rw [h, Option.bind_some]
  · exact fun _ _ _ heq => absurd heq hunit

/-- Every control character has a code below 256, so that two digits are enough. -/
theorem read_control (hc : isControl c) :
    read ('\\' :: 'x' :: hexPair c.toNat ++ rest) = push c (read rest) := by
  have hlt : c.toNat < 256 := by
    simp only [isControl, decide_eq_true_eq] at hc
    omega
  change read ('\\' :: 'x' :: hexDigit (c.toNat / 16 % 16) :: hexDigit (c.toNat % 16) :: rest) = _
  rw [read, byte?_hexPair hlt, Option.bind_some, Char.ofNat_toNat]

theorem read_char (c : Char) (rest : List Char) : read (char c ++ rest) = push c (read rest) := by
  unfold char
  split_ifs with hquote hslash hline htab hreturn hcontrol
  · rw [hquote]
    exact read_short rfl
  · rw [hslash]
    exact read_short rfl
  · rw [hline]
    exact read_short rfl
  · rw [htab]
    exact read_short rfl
  · rw [hreturn]
    exact read_short rfl
  · exact read_control hcontrol
  · exact read_plain hquote hslash

end

/-- A text is read back up to the quote after it. -/
theorem read_chars (cs rest : List Char) : read (chars cs ++ '"' :: rest) = some (cs, rest) := by
  induction cs with
  | nil => rfl
  | cons c cs ih =>
      rw [chars, List.flatMap_cons, List.append_assoc, read_char]
      change push c (read (chars cs ++ '"' :: rest)) = _
      rw [ih]
      rfl

/-! ## Control characters -/

/-- A hexadecimal digit is no control character, and it has no meaning of its own between quotes. -/
theorem hexDigit_plain {n : Nat} (h : n < 16) :
    isControl (hexDigit n) = false ∧ hexDigit n ≠ '"' ∧ hexDigit n ≠ '\\' := by
  have hdigits : ∀ m : Fin 16, isControl (hexDigit m.val) = false ∧ hexDigit m.val ≠ '"' ∧
      hexDigit m.val ≠ '\\' := by decide
  exact hdigits ⟨n, h⟩

theorem isControl_of_mem_char {c d : Char} (h : d ∈ char c) : isControl d = false := by
  have hpair {e e' : Char} (he : isControl e = false) (he' : isControl e' = false)
      (h : d ∈ [e, e']) : isControl d = false := by
    rcases List.mem_cons.mp h with rfl | h
    · exact he
    · exact List.mem_singleton.mp h ▸ he'
  unfold char at h
  split_ifs at h with hquote hslash hline htab hreturn hcontrol
  · exact hpair (by decide) (by decide) h
  · exact hpair (by decide) (by decide) h
  · exact hpair (by decide) (by decide) h
  · exact hpair (by decide) (by decide) h
  · exact hpair (by decide) (by decide) h
  · rcases List.mem_append.mp (show d ∈ ['\\', 'x'] ++ hexPair c.toNat from h) with hmark | hdigits
    · exact hpair (by decide) (by decide) hmark
    · exact hpair (hexDigit_plain (Nat.mod_lt _ (by decide))).1
        (hexDigit_plain (Nat.mod_lt _ (by decide))).1 hdigits
  · rw [List.mem_singleton.mp h]
    exact Bool.eq_false_iff.mpr hcontrol

theorem isControl_of_mem_text {s : String} {c : Char} (h : c ∈ (text s).toList) :
    isControl c = false := by
  rw [text, String.toList_ofList, chars, List.mem_flatMap] at h
  obtain ⟨d, -, hc⟩ := h
  exact isControl_of_mem_char hc

theorem newline_not_mem_text (s : String) : '\n' ∉ (text s).toList := fun h =>
  absurd (isControl_of_mem_text h) (by decide)

end Escaped

end ControlFlow
