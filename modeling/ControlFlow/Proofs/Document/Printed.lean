import ControlFlow.Proofs.Document.Conforming

/-! # Reading back printed documents

A document that conforms to a shape is read back from its text in every layout whose gaps are
blanks, whatever comes after it, as long as that does not go on with a number.
-/

namespace ControlFlow

open Scan

/-! ## Layouts -/

/-- The gaps of a layout are blanks. -/
structure Document.Layout.Blank (l : Document.Layout) : Prop where
  gap : ∀ depth, ∀ c ∈ l.gap depth, isBlank c = true
  afterColon : ∀ c ∈ l.afterColon, isBlank c = true

theorem Document.blank_compact : Document.compact.Blank :=
  ⟨fun _ _ hc => absurd hc List.not_mem_nil, fun _ hc => absurd hc List.not_mem_nil⟩

theorem Document.blank_indented : Document.indented.Blank := by
  refine ⟨fun depth c hc => ?_, fun c hc => ?_⟩
  · rcases List.mem_cons.mp hc with rfl | hspace
    · rfl
    · rw [(List.mem_replicate.mp hspace).2]
      rfl
  · rw [List.mem_singleton.mp hc]
    rfl

/-! ## What comes after a document -/

namespace Scan

theorem ends_cons {c : Char} (hdigit : c.isDigit = false) (hpoint : c ≠ '.') (hsmall : c ≠ 'e')
    (hlarge : c ≠ 'E') (rest : List Char) : Ends (c :: rest) := by
  intro d hd
  cases hd
  exact ⟨hdigit, hpoint, hsmall, hlarge⟩

/-- A blank, or what comes after some blanks, does not go on with a number. -/
theorem ends_append {blanks rest : List Char} (hblanks : ∀ c ∈ blanks, isBlank c = true)
    (hrest : Ends rest) : Ends (blanks ++ rest) := by
  cases blanks with
  | nil => exact hrest
  | cons c cs =>
      have hblank : c = ' ' ∨ c = '\n' ∨ c = '\t' ∨ c = '\r' := by
        simpa [isBlank] using hblanks c List.mem_cons_self
      rcases hblank with rfl | rfl | rfl | rfl <;>
        exact ends_cons (by decide) (by decide) (by decide) (by decide) _

end Scan

namespace Document

variable {l : Layout} {depth : Nat}

theorem exists_signed_eq (n : Int) :
    ∃ c cs, Text.signed n = c :: cs ∧ (c = '-' ∨ c.isDigit = true) := by
  cases n with
  | ofNat n =>
      cases hcs : Text.digits n with
      | nil => exact absurd hcs Nat.toDigits_ne_nil
      | cons c cs =>
          exact ⟨c, cs, hcs, .inr (Text.isDigit_of_mem_digits (hcs ▸ List.mem_cons_self))⟩
  | negSucc n => exact ⟨'-', _, rfl, .inl rfl⟩

/-- How a printed document begins: with no blank, no closing bracket and, unless it is null, not
with the letter of null. -/
theorem exists_print_eq (l : Layout) (depth : Nat) (d : Document) :
    ∃ c cs, d.print l depth = c :: cs ∧ isBlank c = false ∧ c ≠ ']' ∧ (d ≠ .null → c ≠ 'n') := by
  cases d with
  | null => exact ⟨_, _, rfl, by decide, by decide, fun h => absurd rfl h⟩
  | flag value => cases value <;> exact ⟨_, _, rfl, by decide, by decide, fun _ => by decide⟩
  | number n =>
      obtain ⟨c, cs, hcs, rfl | hdigit⟩ := exists_signed_eq n
      · exact ⟨_, cs, hcs, by decide, by decide, fun _ => by decide⟩
      · refine ⟨c, cs, hcs, ?_, ?_, fun _ => ?_⟩
        · refine Bool.eq_false_iff.mpr fun hblank => ?_
          have hblank : c = ' ' ∨ c = '\n' ∨ c = '\t' ∨ c = '\r' := by simpa [isBlank] using hblank
          rcases hblank with rfl | rfl | rfl | rfl <;> cases hdigit
        · rintro rfl
          cases hdigit
        · rintro rfl
          cases hdigit
  | text s => exact ⟨_, _, rfl, by decide, by decide, fun _ => by decide⟩
  | array ds => cases ds <;> exact ⟨_, _, rfl, by decide, by decide, fun _ => by decide⟩
  | object ms =>
      rcases ms with _ | ⟨⟨name, value⟩, rest⟩ <;>
        exact ⟨_, _, rfl, by decide, by decide, fun _ => by decide⟩

theorem printText_append (s : String) (rest : List Char) :
    printText s ++ rest = '"' :: (s.toList.flatMap escapedChar ++ '"' :: rest) := by
  simp [printText]

/-- Blanks before a printed document are passed over. -/
theorem skipBlanks_print {blanks : List Char} (hblanks : ∀ c ∈ blanks, isBlank c = true)
    (d : Document) (rest : List Char) :
    skipBlanks (blanks ++ (d.print l depth ++ rest)) = d.print l depth ++ rest := by
  obtain ⟨c, cs, hcs, hblank, -⟩ := exists_print_eq l depth d
  rw [skipBlanks_append hblanks, hcs, List.cons_append, skipBlanks_cons hblank]

end Document

namespace Read

open Document

variable {ι : Type} {l : Layout} {bound : Nat}

/-- A reader reads a document back wherever it is printed, if the text fits the bound. -/
def Restores (l : Layout) (bound : Nat) (reader : Reader Document) (d : Document) : Prop :=
  ∀ depth blanks rest, (∀ c ∈ blanks, isBlank c = true) → Ends rest →
    (d.print l depth).length ≤ bound →
    reader (blanks ++ (d.print l depth ++ rest)) = .ok (d, rest)

theorem ends_of_close {c : Char} (hc : c = ',' ∨ c = ']' ∨ c = '\x7d') (rest : List Char) :
    Ends (c :: rest) := by
  rcases hc with rfl | rfl | rfl <;>
    exact ends_cons (by decide) (by decide) (by decide) (by decide) rest

/-! ## Values without parts -/

theorem restores_flag (value : Bool) : Restores l bound flag (.flag value) := by
  intro depth blanks rest hblanks _ _
  unfold flag
  rw [skipBlanks_print hblanks]
  cases value with
  | true =>
      change (do return (Document.flag true, ← word ['r', 'u', 'e'] (['r', 'u', 'e'] ++ rest))) = _
      rw [word_append]
      rfl
  | false =>
      change (do
        return (Document.flag false, ← word ['a', 'l', 's', 'e'] (['a', 'l', 's', 'e'] ++ rest))) = _
      rw [word_append]
      rfl

theorem restores_number {low high n : Int} (hn : IsWhole n) (hlow : low ≤ n) (hhigh : n ≤ high) :
    Restores l bound (number low high) (.number n) := by
  intro depth blanks rest hblanks hrest _
  have hnumeral := numeral_signed hn hrest
  obtain ⟨c, cs, hcs, hc⟩ := exists_signed_eq n
  have hprint : (Document.number n).print l depth = c :: cs := by rw [← hcs, print]
  rw [hcs, List.cons_append] at hnumeral
  unfold number
  rw [skipBlanks_print hblanks, hprint, List.cons_append]
  simp only [if_pos hc, hnumeral, if_pos (And.intro hlow hhigh)]

theorem string_printed {blanks : List Char} (hblanks : ∀ c ∈ blanks, isBlank c = true) (s : String)
    (rest : List Char) : string (blanks ++ (printText s ++ rest)) = .ok (s, rest) := by
  rw [printText_append]
  unfold string
  rw [skipBlanks_append hblanks, skipBlanks_cons (by decide)]
  simp only [text_printed]
  simp [bind, Except.bind, pure, Except.pure]

theorem colon_printed (rest : List Char) : colon (':' :: rest) = .ok rest := rfl

/-! ## Arrays -/

theorem ends_items (hl : l.Blank) (ds : List Document) (depth outer : Nat) (rest : List Char) :
    Ends (printItems l depth ds ++ (l.gap outer ++ ']' :: rest)) := by
  cases ds with
  | nil =>
      rw [printItems, List.nil_append]
      exact ends_append (hl.gap outer) (ends_of_close (.inr (.inl rfl)) rest)
  | cons d ds => exact ends_of_close (.inl rfl) _

theorem items_printed (hl : l.Blank) {item : Reader Document} {ds : List Document}
    (hitem : ∀ d ∈ ds, Restores l bound item d) {depth : Nat}
    (hbound : ∀ d ∈ ds, (d.print l depth).length ≤ bound) (outer : Nat) (rest : List Char)
    {fuel : Nat} (hfuel : ds.length < fuel) :
    items item fuel false (printItems l depth ds ++ (l.gap outer ++ ']' :: rest)) =
      .ok (ds, rest) := by
  induction ds generalizing fuel with
  | nil =>
      obtain ⟨fuel, rfl⟩ := Nat.exists_eq_succ_of_ne_zero (Nat.ne_zero_of_lt hfuel)
      rw [printItems, List.nil_append, items, skipBlanks_append (hl.gap outer),
        skipBlanks_cons (by decide)]
      rfl
  | cons d ds ih =>
      obtain ⟨fuel, rfl⟩ := Nat.exists_eq_succ_of_ne_zero (Nat.ne_zero_of_lt hfuel)
      have hread := hitem d List.mem_cons_self depth [] _ nofun (ends_items hl ds depth outer rest)
        (hbound d List.mem_cons_self)
      have hrest := ih (fun d hd => hitem d (List.mem_cons_of_mem _ hd))
        (fun d hd => hbound d (List.mem_cons_of_mem _ hd)) (Nat.lt_of_succ_lt_succ hfuel)
      have hskip : skipBlanks (l.gap depth ++ (d.print l depth ++
          (printItems l depth ds ++ (l.gap outer ++ ']' :: rest)))) = d.print l depth ++
            (printItems l depth ds ++ (l.gap outer ++ ']' :: rest)) :=
        skipBlanks_print (hl.gap depth) d _
      have hsplit : printItems l depth (d :: ds) ++ (l.gap outer ++ ']' :: rest) =
          ',' :: (l.gap depth ++ (d.print l depth ++
            (printItems l depth ds ++ (l.gap outer ++ ']' :: rest)))) := by
        simp [printItems]
      rw [hsplit, items, skipBlanks_cons (by decide)]
      simp only [hskip]
      obtain ⟨c, cs, hcs, -, hclose, -⟩ := exists_print_eq l depth d
      rw [hcs, List.cons_append] at hread ⊢
      rw [List.nil_append] at hread
      -- The item begins with no closing bracket.
      simp only [show ¬ (',' = ']') by decide, if_false, if_true, Bool.false_eq_true]
      split
      · contradiction
      next heq => exact absurd (List.cons.inj heq).1 hclose
      next heq =>
        rw [hread]
        simp only [bind, Except.bind, hrest, pure, Except.pure]

theorem length_printItems (ds : List Document) (depth : Nat) :
    ds.length ≤ (printItems l depth ds).length ∧
      ∀ d ∈ ds, (d.print l depth).length ≤ (printItems l depth ds).length := by
  induction ds with
  | nil => exact ⟨Nat.le_refl _, nofun⟩
  | cons d ds ih =>
      simp only [printItems, List.length_cons, List.length_append]
      refine ⟨by omega, fun e he => ?_⟩
      rcases List.mem_cons.mp he with rfl | he
      · omega
      · have := ih.2 e he
        omega

theorem restores_sequence (hl : l.Blank) {inside : Shape ι → Reader Document} {item : Shape ι}
    {ds : List Document} (hitem : ∀ d ∈ ds, Restores l bound (inside item) d) :
    Restores l bound (sequence bound (some inside) item) (.array ds) := by
  intro depth blanks rest hblanks hrest hbound
  unfold sequence
  rw [skipBlanks_print hblanks]
  cases ds with
  | nil =>
      obtain ⟨fuel, rfl⟩ := Nat.exists_eq_succ_of_ne_zero (Nat.ne_zero_of_lt hbound)
      change (do
        let read ← items (inside item) (fuel + 1) true (']' :: rest)
        return (Document.array read.1, read.2)) = _
      rw [items, skipBlanks_cons (by decide)]
      rfl
  | cons d ds =>
      obtain ⟨hcount, hlengths⟩ := length_printItems (l := l) ds (depth + 1)
      have hlength : ((Document.array (d :: ds)).print l depth).length =
          (l.gap (depth + 1)).length + (d.print l (depth + 1)).length +
            (printItems l (depth + 1) ds).length + (l.gap depth).length + 2 := by
        simp only [print, List.length_cons, List.length_append, List.length_nil]
        omega
      rw [hlength] at hbound
      obtain ⟨fuel, rfl⟩ := Nat.exists_eq_succ_of_ne_zero (Nat.ne_zero_of_lt hbound)
      have hread := hitem d List.mem_cons_self (depth + 1) [] _ nofun
        (ends_items hl ds (depth + 1) depth rest) (by omega)
      have hitems : items (inside item) fuel false
          (printItems l (depth + 1) ds ++ (l.gap depth ++ ']' :: rest)) = .ok (ds, rest) :=
        items_printed hl (fun d hd => hitem d (List.mem_cons_of_mem _ hd))
          (fun d hd => (hlengths d hd).trans (by omega)) depth rest (by omega)
      have hsplit : (Document.array (d :: ds)).print l depth ++ rest =
          '[' :: (l.gap (depth + 1) ++ (d.print l (depth + 1) ++
            (printItems l (depth + 1) ds ++ (l.gap depth ++ ']' :: rest)))) := by
        simp [print]
      rw [hsplit]
      simp only
      rw [items, skipBlanks_print (hl.gap (depth + 1))]
      obtain ⟨c, cs, hcs, -, hclose, -⟩ := exists_print_eq l (depth + 1) d
      rw [hcs, List.nil_append, List.cons_append] at hread
      rw [hcs, List.cons_append]
      simp only [if_neg hclose, if_true, hread, bind, Except.bind, hitems, pure, Except.pure]

/-! ## Objects -/

theorem restores_slot {inside : Shape ι → Reader Document} {s : Slot ι} {d : Document}
    (hd : (s.nullable = true ∧ d = .null) ∨ (d ≠ .null ∧ Restores l bound (inside s.shape) d)) :
    Restores l bound (slot inside s) d := by
  intro depth blanks rest hblanks hrest hbound
  unfold slot
  rcases hd with ⟨hnullable, rfl⟩ | ⟨hnull, hd⟩
  · rw [if_pos hnullable, skipBlanks_print hblanks]
    change (do return (Document.null, ← word ['u', 'l', 'l'] (['u', 'l', 'l'] ++ rest))) = _
    rw [word_append]
    rfl
  · split
    · rw [skipBlanks_print hblanks]
      obtain ⟨c, cs, hcs, -, -, hletter⟩ := exists_print_eq l depth d
      have hread := hd depth [] rest nofun hrest hbound
      rw [hcs, List.nil_append, List.cons_append] at hread
      rw [hcs, List.cons_append]
      split
      next heq => exact absurd (List.cons.inj heq).1 (hletter hnull)
      next => exact hread
    · exact hd depth blanks rest hblanks hrest hbound

theorem ends_members (hl : l.Blank) (ms : List (String × Document)) (depth outer : Nat)
    (rest : List Char) : Ends (printMembers l depth ms ++ (l.gap outer ++ '\x7d' :: rest)) := by
  rcases ms with _ | ⟨⟨name, value⟩, ms⟩
  · rw [printMembers, List.nil_append]
    exact ends_append (hl.gap outer) (ends_of_close (.inr (.inr rfl)) rest)
  · exact ends_of_close (.inl rfl) _

theorem nextMember_first {blanks : List Char} (hblanks : ∀ c ∈ blanks, isBlank c = true)
    (rest : List Char) : nextMember true (blanks ++ '"' :: rest) = .ok (true, rest) := by
  rw [nextMember, skipBlanks_append hblanks, skipBlanks_cons (by decide)]
  rfl

theorem nextMember_next {blanks : List Char} (hblanks : ∀ c ∈ blanks, isBlank c = true)
    (rest : List Char) : nextMember false (',' :: (blanks ++ '"' :: rest)) = .ok (true, rest) := by
  simp [nextMember, skipBlanks_cons (c := ',') (by decide), skipBlanks_append hblanks,
    skipBlanks_cons (c := '"') (by decide)]

/-- Where a member with a name is printed after what leads to it. -/
theorem member_printed (hl : l.Blank) {fields : List (Field ι)} {closed : Bool}
    {item : Slot ι → Reader Document} {field : Field ι} {member : String × Document}
    (hfield : fields.find? (fun field => field.name = member.1) = some field)
    (hitem : Restores l bound (item field.slot) member.2) {depth : Nat}
    (hbound : (member.2.print l depth).length ≤ bound) {found : List (String × Document)}
    (hfound : member.1 ∉ found.map Prod.fst) {first : Bool} {input rest : List Char}
    (hrest : Ends rest)
    (hnext : nextMember first input = .ok (true, member.1.toList.flatMap escapedChar ++
      '"' :: ':' :: (l.afterColon ++ (member.2.print l depth ++ rest)))) (fuel : Nat) :
    members fields closed item (fuel + 1) found first input =
      members fields closed item fuel (member :: found) false rest := by
  have hnew : (found.any fun m => m.1 = member.1) = false := by
    refine List.any_eq_false.mpr fun m hm heq => hfound ?_
    exact List.mem_map.mpr ⟨m, hm, of_decide_eq_true heq⟩
  have hread := hitem depth l.afterColon rest hl.afterColon hrest hbound
  rw [members, hnext]
  simp only [bind, Except.bind, if_true, text_printed, String.ofList_toList, hfield, hnew,
    Bool.false_eq_true, if_false, colon_printed, hread]

theorem members_printed (hl : l.Blank) {fields : List (Field ι)} {closed : Bool}
    {item : Slot ι → Reader Document} {ms : List (String × Document)}
    (hms : ∀ m ∈ ms, ∃ field, fields.find? (fun field => field.name = m.1) = some field ∧
      Restores l bound (item field.slot) m.2) {depth : Nat}
    (hbound : ∀ m ∈ ms, (m.2.print l depth).length ≤ bound) {found : List (String × Document)}
    (hnodup : (ms.map Prod.fst).Nodup) (hfound : ∀ m ∈ ms, m.1 ∉ found.map Prod.fst)
    (outer : Nat) (rest : List Char) {fuel : Nat} (hfuel : ms.length < fuel) :
    members fields closed item fuel found false
        (printMembers l depth ms ++ (l.gap outer ++ '\x7d' :: rest)) =
      .ok (ms.reverse ++ found, rest) := by
  induction ms generalizing found fuel with
  | nil =>
      obtain ⟨fuel, rfl⟩ := Nat.exists_eq_succ_of_ne_zero (Nat.ne_zero_of_lt hfuel)
      rw [printMembers, List.nil_append, members, nextMember, skipBlanks_append (hl.gap outer),
        skipBlanks_cons (by decide)]
      rfl
  | cons m ms ih =>
      obtain ⟨fuel, rfl⟩ := Nat.exists_eq_succ_of_ne_zero (Nat.ne_zero_of_lt hfuel)
      obtain ⟨field, hfield, hitem⟩ := hms m List.mem_cons_self
      rw [List.map_cons, List.nodup_cons] at hnodup
      have hsplit : printMembers l depth (m :: ms) ++ (l.gap outer ++ '\x7d' :: rest) =
          ',' :: (l.gap depth ++ '"' :: (m.1.toList.flatMap escapedChar ++ '"' :: ':' ::
            (l.afterColon ++ (m.2.print l depth ++
              (printMembers l depth ms ++ (l.gap outer ++ '\x7d' :: rest)))))) := by
        simp [printMembers, printText]
      rw [hsplit, member_printed hl hfield hitem (hbound m List.mem_cons_self)
        (hfound m List.mem_cons_self) (ends_members hl ms depth outer rest)
        (nextMember_next (hl.gap depth) _)]
      rw [ih (fun m' hm' => hms m' (List.mem_cons_of_mem m hm'))
        (fun m' hm' => hbound m' (List.mem_cons_of_mem m hm')) hnodup.2 (fun m' hm' => ?_)
        (Nat.lt_of_succ_lt_succ hfuel), List.reverse_cons, List.append_assoc]
      · rfl
      · rw [List.map_cons, List.mem_cons, not_or]
        refine ⟨fun heq => hnodup.1 ?_, hfound m' (List.mem_cons_of_mem m hm')⟩
        exact heq ▸ List.mem_map_of_mem hm'

theorem length_printMembers (ms : List (String × Document)) (depth : Nat) :
    ms.length ≤ (printMembers l depth ms).length ∧
      ∀ m ∈ ms, (m.2.print l depth).length ≤ (printMembers l depth ms).length := by
  induction ms with
  | nil => exact ⟨Nat.le_refl _, nofun⟩
  | cons m ms ih =>
      simp only [printMembers, List.length_cons, List.length_append]
      refine ⟨by omega, fun n hn => ?_⟩
      rcases List.mem_cons.mp hn with rfl | hn
      · omega
      · have := ih.2 n hn
        omega

/-- The member with a name is found in a list of members with names of their own. -/
theorem find?_member {ms : List (String × Document)} (hnodup : (ms.map Prod.fst).Nodup)
    {m : String × Document} (hm : m ∈ ms) :
    ms.find? (fun member => member.1 = m.1) = some m := by
  cases hfind : ms.find? fun member => member.1 = m.1 with
  | none => simpa using List.find?_eq_none.mp hfind m hm
  | some n =>
      have hname : n.1 = m.1 := by simpa using List.find?_some hfind
      rw [List.inj_on_of_nodup_map hnodup (List.mem_of_find?_eq_some hfind) hm hname]

theorem find?_field {fields : List (Field ι)} (hnames : (fields.map Field.name).Nodup)
    {f : Field ι} (hf : f ∈ fields) : fields.find? (fun field => field.name = f.name) = some f := by
  cases hfind : fields.find? fun field => field.name = f.name with
  | none => simpa using List.find?_eq_none.mp hfind f hf
  | some g =>
      have hname : g.name = f.name := by simpa using List.find?_some hfind
      rw [eq_of_name_eq hnames (List.mem_of_find?_eq_some hfind) hf hname]

theorem map_fst_of_holds {fields : List (Field ι)} {ms : List (String × Document)}
    {holds : Shape ι → Document → Prop}
    (h : List.Forall₂ (fun field member => field.Holds holds member) fields ms) :
    ms.map Prod.fst = fields.map Field.name := by
  induction h with
  | nil => rfl
  | cons hfirst _ ih => rw [List.map_cons, List.map_cons, ih, hfirst.name]

/-- Each field takes its value from the member that was found for it. -/
theorem fieldValues_of_find? {fields : List (Field ι)} {ms found : List (String × Document)}
    {holds : Shape ι → Document → Prop}
    (h : List.Forall₂ (fun field member => field.Holds holds member) fields ms)
    (hfound : ∀ m ∈ ms, found.find? (fun member => member.1 = m.1) = some m) :
    fieldValues found fields = .ok ms := by
  induction h with
  | nil => rfl
  | @cons field m fields ms hfirst _ ih =>
      have hvalue : fieldValue found field = .ok m := by
        have hm := hfound m List.mem_cons_self
        rw [hfirst.name] at hm
        unfold fieldValue
        rw [hm]
        simp only [← hfirst.name]
      rw [fieldValues, hvalue, ih fun m hm => hfound m (List.mem_cons_of_mem _ hm)]
      rfl

theorem restores_record (hl : l.Blank) {inside : Shape ι → Reader Document}
    {holds : Shape ι → Document → Prop} {fields : List (Field ι)} {closed : Bool}
    (hnames : (fields.map Field.name).Nodup) {ms : List (String × Document)}
    (hms : List.Forall₂ (fun field member => field.Holds holds member) fields ms)
    (hinside : ∀ s : Slot ι, ∀ d, s.Holds holds d → Restores l bound (slot inside s) d) :
    Restores l bound (record bound (some inside) fields closed) (.object ms) := by
  intro depth blanks rest hblanks hrest hbound
  have hfst := map_fst_of_holds hms
  have hnodup : (ms.map Prod.fst).Nodup := hfst ▸ hnames
  have hmember : ∀ m ∈ ms, ∃ field, fields.find? (fun field => field.name = m.1) = some field ∧
      Restores l bound (slot inside field.slot) m.2 := by
    intro m hm
    obtain ⟨field, hfield, hholds⟩ := exists_of_forall₂_right hms hm
    refine ⟨field, ?_, hinside field.slot m.2 hholds.slot⟩
    rw [hholds.name]
    exact find?_field hnames hfield
  have hvalues : fieldValues ms.reverse fields = .ok ms := by
    refine fieldValues_of_find? hms fun m hm => ?_
    have hreverse : (ms.reverse.map Prod.fst).Nodup := by
      rw [List.map_reverse]
      exact List.nodup_reverse.mpr hnodup
    exact find?_member hreverse (List.mem_reverse.mpr hm)
  unfold record
  rw [skipBlanks_print hblanks]
  rcases ms with _ | ⟨⟨name, value⟩, ms⟩
  · obtain ⟨fuel, rfl⟩ := Nat.exists_eq_succ_of_ne_zero (Nat.ne_zero_of_lt hbound)
    change (do
      let read ← members fields closed (slot inside) (fuel + 1) [] true ('\x7d' :: rest)
      return (Document.object (← fieldValues read.1 fields), read.2)) = _
    rw [members, nextMember, skipBlanks_cons (by decide)]
    rw [List.reverse_nil] at hvalues
    simp only [bind, Except.bind, Bool.false_eq_true, if_false, pure, Except.pure, hvalues]
  · obtain ⟨hcount, hlengths⟩ := length_printMembers (l := l) ms (depth + 1)
    have hlength : ((Document.object ((name, value) :: ms)).print l depth).length =
        (l.gap (depth + 1)).length + (printText name).length + l.afterColon.length +
          (value.print l (depth + 1)).length + (printMembers l (depth + 1) ms).length +
            (l.gap depth).length + 3 := by
      simp only [print, List.length_cons, List.length_append, List.length_nil]
      omega
    rw [hlength] at hbound
    obtain ⟨fuel, rfl⟩ := Nat.exists_eq_succ_of_ne_zero (Nat.ne_zero_of_lt hbound)
    obtain ⟨field, hfield, hitem⟩ := hmember _ List.mem_cons_self
    have hsplit : (Document.object ((name, value) :: ms)).print l depth ++ rest =
        '\x7b' :: (l.gap (depth + 1) ++ '"' :: (name.toList.flatMap escapedChar ++ '"' :: ':' ::
          (l.afterColon ++ (value.print l (depth + 1) ++
            (printMembers l (depth + 1) ms ++ (l.gap depth ++ '\x7d' :: rest)))))) := by
      simp [print, printText]
    rw [List.map_cons, List.nodup_cons] at hnodup
    have hfound : ∀ m ∈ ms, m.1 ∉ [(name, value)].map Prod.fst := fun m hm heq =>
      hnodup.1 (List.mem_singleton.mp heq ▸ List.mem_map_of_mem hm)
    have hmembers : members fields closed (slot inside) fuel [(name, value)] false
        (printMembers l (depth + 1) ms ++ (l.gap depth ++ '\x7d' :: rest)) =
          .ok (ms.reverse ++ [(name, value)], rest) :=
      members_printed hl (fun m hm => hmember m (List.mem_cons_of_mem _ hm))
        (fun m hm => (hlengths m hm).trans (by omega)) hnodup.2 hfound depth rest (by omega)
    have hvalue : (value.print l (depth + 1)).length ≤ fuel + 1 := by omega
    rw [hsplit]
    simp only
    rw [member_printed hl hfield hitem hvalue List.not_mem_nil
      (ends_members hl ms (depth + 1) depth rest) (nextMember_first (hl.gap (depth + 1)) _),
      hmembers]
    rw [List.reverse_cons] at hvalues
    simp only [bind, Except.bind, hvalues, pure, Except.pure]

theorem onlyName_printed {blanks : List Char} (hblanks : ∀ c ∈ blanks, isBlank c = true) (s : String)
    (rest : List Char) : onlyName (blanks ++ (printText s ++ rest)) = .ok (s, rest) := by
  rw [printText_append]
  unfold onlyName
  rw [skipBlanks_append hblanks, skipBlanks_cons (by decide)]
  simp only [bind, Except.bind, text_printed, pure, Except.pure, String.ofList_toList]

/-! ## Choices -/

theorem restores_bare {inside : Option (Shape ι → Reader Document)}
    {variants : List (String × Payload ι)} {tag : String}
    (htag : variant variants tag = .ok .nothing) :
    Restores l bound (choice inside variants) (.text tag) := by
  intro depth blanks rest hblanks hrest hbound
  have hprint : (Document.text tag).print l depth ++ rest =
      '"' :: (tag.toList.flatMap escapedChar ++ '"' :: rest) := printText_append tag rest
  unfold choice
  rw [skipBlanks_print hblanks, hprint]
  simp only [bind, Except.bind, text_printed, String.ofList_toList, htag, pure, Except.pure]

theorem restores_tagged (hl : l.Blank) {inside : Shape ι → Reader Document}
    {variants : List (String × Payload ι)} {tag : String} {s : Slot ι} {d : Document}
    (htag : variant variants tag = .ok (.value s)) (hd : Restores l bound (slot inside s) d) :
    Restores l bound (choice (some inside) variants) (.object [(tag, d)]) := by
  intro depth blanks rest hblanks hrest hbound
  have hprint : (Document.object [(tag, d)]).print l depth ++ rest =
      '\x7b' :: (l.gap (depth + 1) ++ (printText tag ++ ':' :: (l.afterColon ++
        (d.print l (depth + 1) ++ (l.gap depth ++ '\x7d' :: rest))))) := by
    simp [print, printMembers]
  have hlength : (d.print l (depth + 1)).length ≤ bound := by
    refine Nat.le_trans ?_ hbound
    simp only [print, List.length_cons, List.length_append]
    omega
  have hend : variantEnd (l.gap depth ++ '\x7d' :: rest) = .ok rest := by
    rw [variantEnd, skipBlanks_append (hl.gap depth), skipBlanks_cons (by decide)]
    rfl
  have hread := hd (depth + 1) l.afterColon _ hl.afterColon
    (ends_append (hl.gap depth) (ends_of_close (.inr (.inr rfl)) rest)) hlength
  unfold choice
  rw [skipBlanks_print hblanks, hprint]
  simp only [bind, Except.bind, onlyName_printed (hl.gap (depth + 1)), htag, colon_printed, hread,
    hend, pure, Except.pure]

/-! ## All shapes -/

theorem fits_ne_null {schema : Schema ι} {holds : Option (Shape ι → Document → Prop)} {s : Shape ι}
    {d : Document} (h : Document.Fits schema holds s d) : d ≠ .null := by
  rintro rfl
  cases h

theorem conforms_ne_null {schema : Schema ι} {depth : Nat} {s : Shape ι} {d : Document}
    (h : Document.Conforms schema depth s d) : d ≠ .null := by
  cases depth <;> exact fits_ne_null h

theorem restores_shape (hl : l.Blank) {schema : Schema ι} (hschema : schema.Sound)
    {inside : Option (Shape ι → Reader Document)} {holds : Option (Shape ι → Document → Prop)}
    (hinside : ∀ P, holds = some P → ∃ reader, inside = some reader ∧
      ∀ s d, P s d → Restores l bound (reader s) d ∧ d ≠ .null)
    {s : Shape ι} {d : Document} (h : Document.Fits schema holds s d) :
    Restores l bound (shape schema bound inside s) d := by
  have hslot {P : Shape ι → Document → Prop} {reader : Shape ι → Reader Document}
      (hreads : ∀ s d, P s d → Restores l bound (reader s) d ∧ d ≠ .null) (s : Slot ι)
      (d : Document) (hd : s.Holds P d) : Restores l bound (slot reader s) d :=
    restores_slot (hd.imp id fun hd => (hreads s.shape d hd).symm)
  cases h with
  | flag value => exact restores_flag value
  | number hwhole hlow hhigh => exact restores_number hwhole hlow hhigh
  | text s =>
      intro depth blanks rest hblanks hrest hbound
      change (do
        let read ← string (blanks ++ (printText s ++ rest))
        return (Document.text read.1, read.2)) = _
      rw [string_printed hblanks]
      rfl
  | sequence hsome hds =>
      obtain ⟨reader, rfl, hreads⟩ := hinside _ hsome
      exact restores_sequence hl fun d hd => (hreads _ d (hds d hd)).1
  | record hname hsome hms =>
      obtain ⟨reader, rfl, hreads⟩ := hinside _ hsome
      simp only [shape, hname]
      exact restores_record hl (hschema.names hname) hms (hslot hreads)
  | bare hname htag =>
      simp only [shape, hname]
      exact restores_bare htag
  | tagged hname htag hsome hd =>
      obtain ⟨reader, rfl, hreads⟩ := hinside _ hsome
      simp only [shape, hname]
      exact restores_tagged hl htag (hslot hreads _ _ hd)

/-- A document that conforms to a shape is read back where it is printed. -/
theorem restores_within (hl : l.Blank) {schema : Schema ι} (hschema : schema.Sound) {depth : Nat}
    {s : Shape ι} {d : Document} (h : Document.Conforms schema depth s d) :
    Restores l bound (within schema bound depth s) d := by
  induction depth generalizing s d with
  | zero =>
      refine restores_shape hl hschema (fun P hP => ?_) h
      cases hP
  | succ depth ih =>
      refine restores_shape hl hschema (fun P hP => ?_) h
      cases hP
      exact ⟨_, rfl, fun s d hd => ⟨ih hd, conforms_ne_null hd⟩⟩

end Read

namespace Document

variable {ι : Type} {schema : Schema ι} {s : Shape ι} {d : Document}

/-- What is read of a whole text conforms to the shape that is asked for. -/
theorem read_ok (hschema : schema.Sound) {text : String} (h : read schema s text = .ok d) :
    Conforms schema maxNesting s d := by
  obtain ⟨⟨e, rest⟩, hwithin, h⟩ := exists_of_bind_ok h
  dsimp only at h
  split at h
  · cases of_pure_ok h
    exact Read.within_ok hschema hwithin
  · cases h

/-- The text of a document that conforms to a shape is read back, with blanks after it or not. -/
theorem read_render {l : Layout} (hl : l.Blank) (hschema : schema.Sound)
    (h : Conforms schema maxNesting s d) {blanks : List Char}
    (hblanks : ∀ c ∈ blanks, isBlank c = true) :
    read schema s (d.render l ++ String.ofList blanks) = .ok d := by
  have hinput : (d.render l ++ String.ofList blanks).toList = d.print l 0 ++ blanks := by
    simp [render]
  have hends : Ends blanks := by
    have := ends_append hblanks ends_nil
    rwa [List.append_nil] at this
  have hlength : (d.print l 0).length ≤ (d.print l 0 ++ blanks).length + 1 := by
    rw [List.length_append]
    omega
  have hread := Read.restores_within hl hschema h 0 [] blanks nofun hends hlength
  have hskip : skipBlanks blanks = [] := by
    have := skipBlanks_append hblanks []
    rwa [List.append_nil] at this
  unfold read
  rw [hinput]
  rw [List.nil_append] at hread
  simp only [bind, Except.bind, hread, hskip, pure, Except.pure]

end Document

end ControlFlow
