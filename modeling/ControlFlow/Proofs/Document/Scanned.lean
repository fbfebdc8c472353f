import ControlFlow.Document.Basic
import ControlFlow.Document.Reader
import Mathlib.Data.Nat.Digits.Defs

/-! # Scanning printed words

Every number and every text that is printed is scanned back, whatever comes after it; after a number
that must be nothing that a number goes on with.
-/

namespace ControlFlow

/-! ## Digits -/

namespace Text

theorem isDigit_of_mem_digits {n : Nat} {c : Char} (h : c ∈ digits n) : c.isDigit = true :=
  Nat.isDigit_of_mem_toDigits (by decide) (by decide) h

theorem digitsValue_digits (n : Nat) : digitsValue 0 (digits n) = n := by
  have hvalue := Nat.ofDigitChars_ten_toDigits (n := n)
  rwa [Nat.ofDigitChars_eq_foldl] at hvalue

/-- A number other than zero has no leading zero. -/
theorem exists_digits_eq {n : Nat} (hn : 0 < n) : ∃ c cs, digits n = c :: cs ∧ c ≠ '0' := by
  induction n using Nat.strongRecOn with
  | ind n ih =>
      by_cases hlt : n < 10
      · have hdigit : ∀ k, k < 10 → 0 < k → Nat.digitChar k ≠ '0' := by decide
        exact ⟨n.digitChar, [], Nat.toDigits_of_lt_base hlt, hdigit n hlt hn⟩
      · have hsplit := Nat.toDigits_of_base_le (b := 10) (n := n) (by decide) (Nat.le_of_not_lt hlt)
        obtain ⟨c, cs, hcs, hc⟩ := ih (n / 10) (by omega) (by omega)
        exact ⟨c, cs ++ [(n % 10).digitChar], by rw [digits, hsplit, ← digits, hcs]; rfl, hc⟩

theorem le_digitsValue (cs : List Char) (start : Nat) : start ≤ digitsValue start cs := by
  induction cs generalizing start with
  | nil => exact Nat.le_refl _
  | cons c rest ih => exact Nat.le_trans (by omega) (ih (10 * start + digitValue c))

end Text

open Text

namespace Scan

/-! ## Numbers -/

/-- What comes after a number: nothing that the number could go on with. -/
def Ends (rest : List Char) : Prop :=
  ∀ c ∈ rest.head?, c.isDigit = false ∧ c ≠ '.' ∧ c ≠ 'e' ∧ c ≠ 'E'

theorem ends_nil : Ends [] := nofun

/-- Digits are taken as long as the number fits. -/
theorem extendSignificand_eq (cs : List Char) (start : Nat)
    (h : digitsValue start cs ≤ maxSignificand) :
    extendSignificand start cs = (digitsValue start cs, 0) := by
  induction cs generalizing start with
  | nil => rfl
  | cons c rest ih =>
      have hfirst : 10 * start + digitValue c ≤ maxSignificand :=
        (le_digitsValue rest _).trans h
      rw [extendSignificand, if_pos hfirst]
      exact ih _ h

theorem afterWhole_digits (negative : Bool) {n : Nat} (hn : n ≤ maxSignificand) {rest : List Char}
    (hrest : Ends rest) :
    afterWhole negative (digits n) rest = wholeNumber negative n 0 rest := by
  have hvalue := digitsValue_digits n
  have hextend := extendSignificand_eq (digits n) 0 (hvalue.symm ▸ hn)
  rw [hvalue] at hextend
  unfold afterWhole
  simp only [hextend]
  -- What comes after the digits is neither a decimal point nor the mark of an exponent.
  split
  · exact absurd rfl (hrest _ rfl).2.1
  · exact absurd rfl (hrest _ rfl).2.2.1
  · exact absurd rfl (hrest _ rfl).2.2.2
  · rfl

theorem takeWhile_digits {cs rest : List Char} (hcs : ∀ c ∈ cs, c.isDigit = true)
    (hrest : Ends rest) : (cs ++ rest).takeWhile Char.isDigit = cs ∧
      (cs ++ rest).dropWhile Char.isDigit = rest := by
  have hstop : rest.takeWhile Char.isDigit = [] ∧ rest.dropWhile Char.isDigit = rest := by
    cases rest with
    | nil => exact ⟨rfl, rfl⟩
    | cons c tail => simp [(hrest c rfl).1]
  rw [List.takeWhile_append_of_pos hcs, List.dropWhile_append_of_pos hcs, hstop.1, hstop.2,
    List.append_nil]
  exact ⟨rfl, rfl⟩

theorem magnitude_digits (negative : Bool) {n : Nat} (hn : n ≤ maxSignificand) {rest : List Char}
    (hrest : Ends rest) :
    magnitude negative (digits n ++ rest) = wholeNumber negative n 0 rest := by
  rw [← afterWhole_digits negative hn hrest]
  rcases Nat.eq_zero_or_pos n with rfl | hpos
  · change magnitude negative ('0' :: rest) = afterWhole negative ['0'] rest
    unfold magnitude
    cases rest with
    | nil => rfl
    | cons c tail => simp [(hrest c rfl).1]
  · obtain ⟨c, cs, hcs, hc⟩ := exists_digits_eq hpos
    have hdigits : ∀ d ∈ c :: cs, d.isDigit = true := fun d hd => isDigit_of_mem_digits (hcs ▸ hd)
    obtain ⟨htake, hdrop⟩ :=
      takeWhile_digits (fun d hd => hdigits d (List.mem_cons_of_mem c hd)) hrest
    rw [hcs, List.cons_append, magnitude, if_pos (hdigits c List.mem_cons_self), htake, hdrop]
    exact fun heq => hc heq

/-- A whole number that fits 64 bits, signed if it is negative. -/
def IsWhole (n : Int) : Prop := -(Nat.pow 2 63 : Nat) ≤ n ∧ n ≤ maxSignificand

/-- Every whole number that is printed is scanned back. -/
theorem numeral_signed {n : Int} (h : IsWhole n) {rest : List Char} (hrest : Ends rest) :
    numeral (signed n ++ rest) = .ok (.integer n, rest) := by
  obtain ⟨hlow, hhigh⟩ := h
  cases n with
  | ofNat n =>
      have hn : n ≤ maxSignificand := Int.ofNat_le.mp hhigh
      have hmagnitude := magnitude_digits false hn hrest
      have hwhole : wholeNumber false n 0 rest = .ok (.integer n, rest) := by simp [wholeNumber]
      rw [hwhole] at hmagnitude
      cases hcs : digits n with
      | nil => exact absurd hcs Nat.toDigits_ne_nil
      | cons c cs =>
          have hdigit : c.isDigit = true := isDigit_of_mem_digits (hcs ▸ List.mem_cons_self)
          rw [hcs] at hmagnitude
          rw [signed, hcs, List.cons_append, numeral]
          · exact hmagnitude
          · rintro _ heq
            cases (List.cons.inj heq).1
            cases hdigit
  | negSucc n =>
      have hn : n + 1 ≤ Nat.pow 2 63 := by omega
      have hle : n + 1 ≤ maxSignificand := hn.trans (by decide)
      rw [signed, List.cons_append, numeral, magnitude_digits true hle hrest]
      unfold wholeNumber
      rw [if_neg (by simp), if_pos ⟨rfl, Nat.succ_pos n, hn⟩]
      rfl

theorem extendSignificand_le (cs : List Char) {start : Nat} (h : start ≤ maxSignificand) :
    (extendSignificand start cs).1 ≤ maxSignificand := by
  induction cs generalizing start with
  | nil => exact h
  | cons c rest ih =>
      unfold extendSignificand
      split
      next hfits => exact ih hfits
      next => exact h

theorem fractionOr_ok {significand : Nat} {exponent : Int} {input rest : List Char} {n : Int}
    (h : fractionOr significand exponent input = .ok (.integer n, rest)) : False := by
  unfold fractionOr at h
  split at h <;> cases h

theorem afterExponentMark_ok {significand : Nat} {exponent : Int} {input rest : List Char} {n : Int}
    (h : afterExponentMark significand exponent input = .ok (.integer n, rest)) : False := by
  unfold afterExponentMark at h
  dsimp only at h
  split at h
  · cases h
  · split at h
    · exact fractionOr_ok h
    · cases h

theorem afterPoint_ok {significand : Nat} {exponent : Int} {input rest : List Char} {n : Int}
    (h : afterPoint significand exponent input = .ok (.integer n, rest)) : False := by
  unfold afterPoint at h
  dsimp only at h
  split at h
  · cases h
  · cases h
  · exact afterExponentMark_ok h
  · exact afterExponentMark_ok h
  · exact fractionOr_ok h

theorem isWhole_of_wholeNumber {negative : Bool} {significand left : Nat} {input rest : List Char}
    {n : Int} (hle : significand ≤ maxSignificand)
    (h : wholeNumber negative significand left input = .ok (.integer n, rest)) : IsWhole n := by
  unfold wholeNumber at h
  split_ifs at h with hplain hnegative
  · cases h
    exact ⟨by omega, Int.ofNat_le.mpr hle⟩
  · cases h
    obtain ⟨-, -, hbound⟩ := hnegative
    exact ⟨by omega, by omega⟩
  · exact (fractionOr_ok h).elim

theorem isWhole_of_afterWhole {negative : Bool} {whole input rest : List Char} {n : Int}
    (h : afterWhole negative whole input = .ok (.integer n, rest)) : IsWhole n := by
  have hle := extendSignificand_le whole (Nat.zero_le maxSignificand)
  unfold afterWhole at h
  dsimp only at h
  split at h
  · exact (afterPoint_ok h).elim
  · exact (afterExponentMark_ok h).elim
  · exact (afterExponentMark_ok h).elim
  · exact isWhole_of_wholeNumber hle h

theorem isWhole_of_magnitude {negative : Bool} {input rest : List Char} {n : Int}
    (h : magnitude negative input = .ok (.integer n, rest)) : IsWhole n := by
  unfold magnitude at h
  split at h
  · cases h
  · split at h
    · split at h
      · cases h
      · exact isWhole_of_afterWhole h
    · exact isWhole_of_afterWhole h
  · split at h
    · exact isWhole_of_afterWhole h
    · cases h

/-- What is scanned as a whole number fits 64 bits. -/
theorem isWhole_of_numeral {input rest : List Char} {n : Int}
    (h : numeral input = .ok (.integer n, rest)) : IsWhole n := by
  unfold numeral at h
  split at h <;> exact isWhole_of_magnitude h

/-! ## Texts -/

section

variable {c : Char} {tail : List Char}

theorem text_plain (hquote : c ≠ '"') (hslash : c ≠ '\\') (hc : ¬ c.toNat < 32) :
    text (c :: tail) = consChar c (text tail) := by
  rw [text, if_neg hc]
  · exact hquote
  · exact fun heq => absurd heq hslash
  · exact fun _ _ _ _ _ heq => absurd heq hslash
  · exact fun _ heq => absurd heq hslash
  · exact fun _ _ heq => absurd heq hslash

theorem text_short {d : Char} (h : shortEscape? d = some c) :
    text ('\\' :: d :: tail) = consChar c (text tail) := by
  have hunit : d ≠ 'u' := by
    rintro rfl
    cases h
  rw [text]
  · simp only [h]
  · exact fun _ _ _ _ _ heq => absurd heq hunit
  · exact fun heq => absurd heq hunit

/-- A control character is written by its code point, in two digits after two zeros. -/
theorem text_control (hc : c.toNat < 32) :
    text ('\\' :: 'u' :: '0' :: '0' :: hexPair c.toNat ++ tail) = consChar c (text tail) := by
  have hunit : unit? '0' '0' (hexDigit (c.toNat / 16 % 16)) (hexDigit (c.toNat % 16)) =
      some c.toNat := by
    have hhigh := hexValue?_hexDigit (Nat.mod_lt (c.toNat / 16) (by decide : 0 < 16))
    have hlow := hexValue?_hexDigit (Nat.mod_lt c.toNat (by decide : 0 < 16))
    have hzero : hexValue? '0' = some 0 := by decide
    simp only [unit?, hhigh, hlow, hzero, Option.bind_eq_bind, Option.bind_some, Option.pure_def,
      Option.some.injEq]
    omega
  change text ('\\' :: 'u' :: '0' :: '0' :: hexDigit (c.toNat / 16 % 16) ::
    hexDigit (c.toNat % 16) :: tail) = _
  rw [text.eq_def]
  simp only [hunit]
  rw [if_neg (by omega), if_neg (by omega), Char.ofNat_toNat]

theorem text_escapedChar (c : Char) (tail : List Char) :
    text (Document.escapedChar c ++ tail) = consChar c (text tail) := by
  unfold Document.escapedChar
  split_ifs with hquote hslash hback hfeed hline hreturn htab hcontrol
  · rw [hquote]
    exact text_short rfl
  · rw [hslash]
    exact text_short rfl
  · rw [hback]
    exact text_short rfl
  · rw [hfeed]
    exact text_short rfl
  · rw [hline]
    exact text_short rfl
  · rw [hreturn]
    exact text_short rfl
  · rw [htab]
    exact text_short rfl
  · exact text_control hcontrol
  · exact text_plain hquote hslash hcontrol

end

/-- A text that is printed is scanned back after its opening quote. -/
theorem text_printed (cs rest : List Char) :
    text (cs.flatMap Document.escapedChar ++ '"' :: rest) = .ok (cs, rest) := by
  induction cs with
  | nil => rfl
  | cons c cs ih =>
      rw [List.flatMap_cons, List.append_assoc, text_escapedChar, ih]
      rfl

theorem word_append (letters rest : List Char) : word letters (letters ++ rest) = .ok rest := by
  induction letters with
  | nil => rfl
  | cons c letters ih =>
      rw [List.cons_append, word, if_pos rfl]
      exact ih

/-! ## Blanks -/

theorem skipBlanks_append {blanks : List Char} (h : ∀ c ∈ blanks, isBlank c = true)
    (rest : List Char) : skipBlanks (blanks ++ rest) = skipBlanks rest :=
  List.dropWhile_append_of_pos h

theorem skipBlanks_cons {c : Char} (h : isBlank c = false) (rest : List Char) :
    skipBlanks (c :: rest) = c :: rest := by
  simp [skipBlanks, h]

end Scan

end ControlFlow
