import ControlFlow.Proofs.Document.Scanned
import Mathlib.Data.List.Forall2
import Mathlib.Data.List.Nodup

/-! # Documents of a form

A document conforms to a shape if it is written in the one way that a reader returns: a record as an
object with all its fields in their order, a variant without payload as its bare name. Everything
that is read conforms to the shape it was read with.
-/

namespace ControlFlow

variable {ι : Type}

theorem exists_of_bind_ok {ε α β : Type} {x : Except ε α} {f : α → Except ε β} {b : β}
    (h : (x >>= f) = .ok b) : ∃ a, x = .ok a ∧ f a = .ok b := by
  cases x with
  | error e => cases h
  | ok a => exact ⟨a, rfl, h⟩

theorem of_pure_ok {ε α : Type} {a b : α} (h : (pure a : Except ε α) = .ok b) : a = b :=
  Except.ok.inj h

theorem exists_of_forall₂_left {α β : Type} {R : α → β → Prop} {xs : List α} {ys : List β}
    (h : List.Forall₂ R xs ys) {x : α} (hx : x ∈ xs) : ∃ y ∈ ys, R x y := by
  induction h with
  | nil => cases hx
  | cons hfirst _ ih =>
      rcases List.mem_cons.mp hx with rfl | hrest
      · exact ⟨_, List.mem_cons_self, hfirst⟩
      · obtain ⟨y, hy, hR⟩ := ih hrest
        exact ⟨y, List.mem_cons_of_mem _ hy, hR⟩

theorem exists_of_forall₂_right {α β : Type} {R : α → β → Prop} {xs : List α} {ys : List β}
    (h : List.Forall₂ R xs ys) {y : β} (hy : y ∈ ys) : ∃ x ∈ xs, R x y :=
  exists_of_forall₂_left (R := fun y x => R x y) h.flip hy

/-! ## Forms of documents -/

/-- A document that fills a slot, where `inside` tells which documents have a shape. -/
def Slot.Holds (s : Slot ι) (inside : Shape ι → Document → Prop) (d : Document) : Prop :=
  (s.nullable = true ∧ d = .null) ∨ inside s.shape d

/-- A member that fills a field of a record. -/
structure Field.Holds (field : Field ι) (inside : Shape ι → Document → Prop)
    (member : String × Document) : Prop where
  name : member.1 = field.name
  slot : field.slot.Holds inside member.2

/-- A document has a shape, where `inside` tells which documents have one inside a bracket, if there
may be a bracket. -/
inductive Document.Fits (schema : Schema ι) (inside : Option (Shape ι → Document → Prop)) :
    Shape ι → Document → Prop where
  | flag (value : Bool) : Fits schema inside .flag (.flag value)
  | number {low high n : Int} : Scan.IsWhole n → low ≤ n → n ≤ high →
      Fits schema inside (.number low high) (.number n)
  | text (s : String) : Fits schema inside .text (.text s)
  | sequence {item : Shape ι} {holds : Shape ι → Document → Prop} {ds : List Document} :
      inside = some holds → (∀ d ∈ ds, holds item d) →
      Fits schema inside (.sequence item) (.array ds)
  | record {name : ι} {fields : List (Field ι)} {closed : Bool}
      {holds : Shape ι → Document → Prop} {members : List (String × Document)} :
      schema name = .record fields closed → inside = some holds →
      List.Forall₂ (fun field member => field.Holds holds member) fields members →
      Fits schema inside (.form name) (.object members)
  /-- A variant without payload. -/
  | bare {name : ι} {variants : List (String × Payload ι)} {tag : String} :
      schema name = .choice variants → Read.variant variants tag = .ok .nothing →
      Fits schema inside (.form name) (.text tag)
  | tagged {name : ι} {variants : List (String × Payload ι)} {tag : String} {s : Slot ι}
      {holds : Shape ι → Document → Prop} {d : Document} :
      schema name = .choice variants → Read.variant variants tag = .ok (.value s) →
      inside = some holds → s.Holds holds d →
      Fits schema inside (.form name) (.object [(tag, d)])

/-- A document conforms to a shape with at most the given number of brackets inside each other. -/
def Document.Conforms (schema : Schema ι) : Nat → Shape ι → Document → Prop
  | 0 => Fits schema none
  | depth + 1 => Fits schema (some (Conforms schema depth))

/-- Whatever stands for a field that is not given fills the field, where the fields that have to be
given can be filled; and the fields of a record have names of their own. -/
structure Schema.Sound (schema : Schema ι) : Prop where
  names : ∀ {name fields closed}, schema name = .record fields closed →
    (fields.map Field.name).Nodup
  null : ∀ {name fields closed}, schema name = .record fields closed → ∀ field ∈ fields,
    field.absent = .null → field.slot.nullable = true
  default : ∀ {name fields closed}, schema name = .record fields closed → ∀ field ∈ fields,
    ∀ value depth, field.absent = .default value →
      (∀ g ∈ fields, g.absent = .refused → ∃ d, g.slot.Holds (Document.Conforms schema depth) d) →
      field.slot.Holds (Document.Conforms schema depth) value

/-! ## Documents by their forms -/

theorem Slot.holds_mandatory {shape : Shape ι} {holds : Shape ι → Document → Prop} {d : Document} :
    Slot.Holds ⟨shape, false⟩ holds d ↔ holds shape d := by
  simp [Slot.Holds]

/-- What fills a slot, told by whether the slot takes null. -/
def Slot.Takes (s : Slot ι) (holds : Shape ι → Document → Prop) (d : Document) : Prop :=
  match s.nullable with
  | true => d = .null ∨ holds s.shape d
  | false => holds s.shape d

theorem Slot.Holds.takes {s : Slot ι} {holds : Shape ι → Document → Prop} {d : Document}
    (h : s.Holds holds d) : s.Takes holds d := by
  obtain ⟨shape, nullable⟩ := s
  cases nullable with
  | true => exact h.imp_left And.right
  | false => exact h.resolve_left fun hnull => Bool.false_ne_true hnull.1

/-- There are documents that fill some fields in turn, and these are the members. -/
def Field.Members (holds : Shape ι → Document → Prop) :
    List (Field ι) → (List (String × Document) → Prop) → Prop
  | [], these => these []
  | field :: fields, these => ∃ d, field.slot.Takes holds d ∧
      Members holds fields fun ms => these ((field.name, d) :: ms)

theorem Field.members_of_forall₂ {holds : Shape ι → Document → Prop} {fields : List (Field ι)}
    {ms : List (String × Document)} {these : List (String × Document) → Prop}
    (h : List.Forall₂ (fun field member => field.Holds holds member) fields ms)
    (hms : these ms) : Field.Members holds fields these := by
  induction h generalizing these with
  | nil => exact hms
  | @cons field member fields ms hfirst _ ih =>
      obtain ⟨name, d⟩ := member
      obtain rfl : name = field.name := hfirst.name
      exact ⟨d, hfirst.slot.takes, ih hms⟩

/-- One of some variants satisfies a property. -/
def Payload.OneOf (P : String × Payload ι → Prop) : List (String × Payload ι) → Prop
  | [] => False
  | v :: variants => P v ∨ OneOf P variants

theorem Payload.oneOf_of_mem {P : String × Payload ι → Prop} {v : String × Payload ι}
    {variants : List (String × Payload ι)} (hv : v ∈ variants) (h : P v) :
    Payload.OneOf P variants := by
  induction variants with
  | nil => cases hv
  | cons first rest ih =>
      rcases List.mem_cons.mp hv with rfl | hrest
      · exact .inl h
      · exact .inr (ih hrest)

namespace Document.Conforms

variable {schema : Schema ι} {depth : Nat} {name : ι} {d : Document}

theorem record {fields : List (Field ι)} {closed : Bool}
    (h : Conforms schema depth (.form name) d) (hname : schema name = .record fields closed) :
    ∃ inner members, depth = inner + 1 ∧ d = .object members ∧
      List.Forall₂ (fun field member => field.Holds (Conforms schema inner) member) fields
        members := by
  cases depth with
  | zero =>
      cases h with
      | record _ hnone _ => cases hnone
      | bare hchoice _ => cases hname.symm.trans hchoice
      | tagged hchoice _ _ _ => cases hname.symm.trans hchoice
  | succ inner =>
      cases h with
      | record hrecord hsome hms =>
          cases hname.symm.trans hrecord
          cases hsome
          exact ⟨inner, _, rfl, rfl, hms⟩
      | bare hchoice _ => cases hname.symm.trans hchoice
      | tagged hchoice _ _ _ => cases hname.symm.trans hchoice

theorem mem_of_variant {variants : List (String × Payload ι)} {tag : String} {payload : Payload ι}
    (h : Read.variant variants tag = .ok payload) : (tag, payload) ∈ variants := by
  unfold Read.variant at h
  split at h
  next v hv =>
    cases h
    have htag : v.1 = tag := by simpa using List.find?_some hv
    exact htag ▸ List.mem_of_find?_eq_some hv
  next => cases h

theorem members {fields : List (Field ι)} {closed : Bool} (h : Conforms schema depth (.form name) d)
    (hname : schema name = .record fields closed) :
    ∃ inner, depth = inner + 1 ∧
      Field.Members (Conforms schema inner) fields fun ms => d = .object ms := by
  obtain ⟨inner, ms, hdepth, hd, hms⟩ := h.record hname
  exact ⟨inner, hdepth, Field.members_of_forall₂ hms hd⟩

/-- The document of a variant: its bare name, or an object that carries what fills its slot. -/
def IsVariant (schema : Schema ι) (depth : Nat) (d : Document) (v : String × Payload ι) : Prop :=
  match v.2 with
  | .nothing => d = .text v.1
  | .value s => ∃ inner value, depth = inner + 1 ∧ s.Takes (Conforms schema inner) value ∧
      d = .object [(v.1, value)]

theorem choice {variants : List (String × Payload ι)} (h : Conforms schema depth (.form name) d)
    (hname : schema name = .choice variants) :
    Payload.OneOf (IsVariant schema depth d) variants := by
  cases depth with
  | zero =>
      cases h with
      | record hrecord _ _ => cases hname.symm.trans hrecord
      | bare hchoice htag =>
          cases hname.symm.trans hchoice
          exact Payload.oneOf_of_mem (mem_of_variant htag) rfl
      | tagged _ _ hnone _ => cases hnone
  | succ inner =>
      cases h with
      | record hrecord _ _ => cases hname.symm.trans hrecord
      | bare hchoice htag =>
          cases hname.symm.trans hchoice
          exact Payload.oneOf_of_mem (mem_of_variant htag) rfl
      | tagged hchoice htag hsome hd =>
          cases hname.symm.trans hchoice
          cases hsome
          exact Payload.oneOf_of_mem (mem_of_variant htag) ⟨inner, _, rfl, hd.takes, rfl⟩

theorem sequence {item : Shape ι} (h : Conforms schema depth (.sequence item) d) :
    ∃ inner ds, depth = inner + 1 ∧ d = .array ds ∧ ∀ e ∈ ds, Conforms schema inner item e := by
  cases depth with
  | zero =>
      cases h with
      | sequence hnone _ => cases hnone
  | succ inner =>
      cases h with
      | sequence hsome hds =>
          cases hsome
          exact ⟨inner, _, rfl, rfl, hds⟩

theorem flag (h : Conforms schema depth .flag d) : ∃ value, d = .flag value := by
  cases depth <;> cases h <;> exact ⟨_, rfl⟩

theorem text (h : Conforms schema depth .text d) : ∃ s, d = .text s := by
  cases depth <;> cases h <;> exact ⟨_, rfl⟩

theorem number {low high : Int} (h : Conforms schema depth (.number low high) d) :
    ∃ n, d = .number n ∧ low ≤ n := by
  cases depth <;> cases h <;> exact ⟨_, rfl, ‹_›⟩

end Document.Conforms

/-! ## What is read conforms -/

namespace Read

open Scan

variable {schema : Schema ι} {inside : Shape ι → Reader Document}
  {holds : Shape ι → Document → Prop} {input rest : List Char} {d : Document}

theorem flag_ok (h : flag input = .ok (d, rest)) : ∃ value, d = .flag value := by
  unfold flag at h
  split at h
  · obtain ⟨left, -, h⟩ := exists_of_bind_ok h
    cases of_pure_ok h
    exact ⟨_, rfl⟩
  · obtain ⟨left, -, h⟩ := exists_of_bind_ok h
    cases of_pure_ok h
    exact ⟨_, rfl⟩
  · cases h

theorem number_ok {low high : Int} (h : number low high input = .ok (d, rest)) :
    ∃ n, d = .number n ∧ IsWhole n ∧ low ≤ n ∧ n ≤ high := by
  unfold number at h
  split at h
  · split at h
    · split at h
      · cases h
      · cases h
      next hnumeral =>
        split at h
        next hrange =>
          cases h
          exact ⟨_, rfl, isWhole_of_numeral hnumeral, hrange⟩
        · cases h
    · cases h
  · cases h

/-- What a reader of a slot returns fills the slot. -/
theorem slot_ok (hinside : ∀ s input d rest, inside s input = .ok (d, rest) → holds s d)
    {s : Slot ι} (h : slot inside s input = .ok (d, rest)) : s.Holds holds d := by
  unfold slot at h
  split at h
  next hnull =>
    split at h
    · obtain ⟨left, -, h⟩ := exists_of_bind_ok h
      cases of_pure_ok h
      exact .inl ⟨hnull, rfl⟩
    · exact .inr (hinside _ _ _ _ h)
  next => exact .inr (hinside _ _ _ _ h)

theorem items_ok {item : Reader Document} {P : Document → Prop}
    (hitem : ∀ input d rest, item input = .ok (d, rest) → P d) {fuel : Nat} {first : Bool}
    {ds : List Document} (h : items item fuel first input = .ok (ds, rest)) : ∀ d ∈ ds, P d := by
  induction fuel generalizing first input ds rest with
  | zero => cases h
  | succ fuel ih =>
      have hnext {first : Bool} {start : List Char} (h : (do
          let read ← item start
          let more ← items item fuel first read.2
          return (read.1 :: more.1, more.2)) = Except.ok (ds, rest)) : ∀ d ∈ ds, P d := by
        obtain ⟨⟨d, left⟩, hd, h⟩ := exists_of_bind_ok h
        obtain ⟨⟨tail, left'⟩, htail, h⟩ := exists_of_bind_ok h
        cases of_pure_ok h
        exact List.forall_mem_cons.mpr ⟨hitem _ _ _ hd, ih htail⟩
      unfold items at h
      split at h
      · cases h
      · split at h
        · cases h
          exact List.forall_mem_nil _
        · split at h
          · exact hnext h
          · split at h
            · split at h
              · cases h
              · cases h
              · exact hnext h
            · cases h

/-- A field is filled by what was read for it, or left to what stands for it. -/
def Filled (holds : Shape ι → Document → Prop) (field : Field ι) (member : String × Document) :
    Prop :=
  member.1 = field.name ∧ (field.slot.Holds holds member.2 ∨
    (field.absent = .null ∧ member.2 = .null) ∨ field.absent = .default member.2)

theorem absentItems_ok {fields : List (Field ι)} {values : List (String × Document)}
    (h : absentItems fields = .ok values) : List.Forall₂ (Filled holds) fields values := by
  induction fields generalizing values with
  | nil =>
      cases h
      exact .nil
  | cons field fields ih =>
      unfold absentItems at h
      split at h
      · contradiction
      next heq =>
        cases heq
        obtain ⟨tail, htail, h⟩ := exists_of_bind_ok h
        cases of_pure_ok h
        exact .cons ⟨rfl, .inr (.inr rfl)⟩ (ih htail)
      · cases h

theorem fieldItems_ok {item : Slot ι → Reader Document}
    (hitem : ∀ s input d rest, item s input = .ok (d, rest) → s.Holds holds d)
    {fields : List (Field ι)} {first : Bool} {values : List (String × Document)}
    (h : fieldItems item fields first input = .ok (values, rest)) :
    List.Forall₂ (Filled holds) fields values := by
  induction fields generalizing first input values rest with
  | nil =>
      obtain ⟨left, -, h⟩ := exists_of_bind_ok h
      cases of_pure_ok h
      exact .nil
  | cons field fields ih =>
      have hnext {first : Bool} {start : List Char} (h : (do
          let read ← item field.slot start
          let more ← fieldItems item fields first read.2
          return ((field.name, read.1) :: more.1, more.2)) = Except.ok (values, rest)) :
          List.Forall₂ (Filled holds) (field :: fields) values := by
        obtain ⟨⟨d, left⟩, hd, h⟩ := exists_of_bind_ok h
        obtain ⟨⟨tail, left'⟩, htail, h⟩ := exists_of_bind_ok h
        cases of_pure_ok h
        exact .cons ⟨rfl, .inl (hitem _ _ _ _ hd)⟩ (ih htail)
      unfold fieldItems at h
      split at h
      · cases h
      · split at h
        · obtain ⟨values, hvalues, h⟩ := exists_of_bind_ok h
          cases of_pure_ok h
          exact absentItems_ok hvalues
        · split at h
          · exact hnext h
          · split at h
            · split at h
              · cases h
              · cases h
              · exact hnext h
            · cases h

/-- Members that were found for fields of a record. -/
def Found (fields : List (Field ι)) (holds : Shape ι → Document → Prop)
    (found : List (String × Document)) : Prop :=
  ∀ member ∈ found, ∃ field ∈ fields, field.Holds holds member

theorem members_ok {fields : List (Field ι)} {closed : Bool} {item : Slot ι → Reader Document}
    (hitem : ∀ s input d rest, item s input = .ok (d, rest) → s.Holds holds d) {fuel : Nat}
    {found found' : List (String × Document)} {first : Bool} (hfound : Found fields holds found)
    (h : members fields closed item fuel found first input = .ok (found', rest)) :
    Found fields holds found' := by
  induction fuel generalizing found first input with
  | zero => cases h
  | succ fuel ih =>
      unfold members at h
      obtain ⟨⟨more, left⟩, -, h⟩ := exists_of_bind_ok h
      dsimp only at h
      split at h
      · obtain ⟨⟨cs, left⟩, -, h⟩ := exists_of_bind_ok h
        dsimp only at h
        split at h
        next field hfield =>
          split at h
          · cases h
          · obtain ⟨left, -, h⟩ := exists_of_bind_ok h
            obtain ⟨⟨d, left⟩, hd, h⟩ := exists_of_bind_ok h
            have hname : field.name = String.ofList cs := by simpa using List.find?_some hfield
            refine ih (List.forall_mem_cons.mpr ⟨⟨field, List.mem_of_find?_eq_some hfield, ?_⟩,
              hfound⟩) h
            exact ⟨hname.symm, hitem _ _ _ _ hd⟩
        next =>
          split at h
          · cases h
          · obtain ⟨left, -, h⟩ := exists_of_bind_ok h
            obtain ⟨left, -, h⟩ := exists_of_bind_ok h
            exact ih hfound h
      · cases h
        exact hfound

/-- Two fields of one name are the same. -/
theorem eq_of_name_eq {fields : List (Field ι)} (hnames : (fields.map Field.name).Nodup)
    {f g : Field ι} (hf : f ∈ fields) (hg : g ∈ fields) (h : f.name = g.name) : f = g :=
  List.inj_on_of_nodup_map hnames hf hg h

theorem fieldValue_ok {fields : List (Field ι)} (hnames : (fields.map Field.name).Nodup)
    {found : List (String × Document)} (hfound : Found fields holds found) {field : Field ι}
    (hfield : field ∈ fields) {member : String × Document}
    (h : fieldValue found field = .ok member) : Filled holds field member := by
  unfold fieldValue at h
  split at h
  next m hm =>
    cases h
    obtain ⟨g, hg, hholds⟩ := hfound m (List.mem_of_find?_eq_some hm)
    have hname : m.1 = field.name := by simpa using List.find?_some hm
    cases eq_of_name_eq hnames hg hfield (hholds.name.symm.trans hname)
    exact ⟨rfl, .inl hholds.slot⟩
  next => cases h
  next hnull =>
    cases h
    exact ⟨rfl, .inr (.inl ⟨hnull, rfl⟩)⟩
  next hdefault =>
    cases h
    exact ⟨rfl, .inr (.inr hdefault)⟩

theorem fieldValues_ok {fields fs : List (Field ι)} (hnames : (fields.map Field.name).Nodup)
    {found : List (String × Document)} (hfound : Found fields holds found) (hfs : fs ⊆ fields)
    {values : List (String × Document)} (h : fieldValues found fs = .ok values) :
    List.Forall₂ (Filled holds) fs values := by
  induction fs generalizing values with
  | nil =>
      cases h
      exact .nil
  | cons field fs ih =>
      obtain ⟨member, hmember, h⟩ := exists_of_bind_ok h
      obtain ⟨tail, htail, h⟩ := exists_of_bind_ok h
      cases of_pure_ok h
      exact .cons (fieldValue_ok hnames hfound (hfs List.mem_cons_self) hmember)
        (ih (fun f hf => hfs (List.mem_cons_of_mem field hf)) htail)

/-- Where everything that has to be given was read, what was left to what stands for it holds. -/
theorem holds_of_filled (hschema : schema.Sound) {depth : Nat} {name : ι}
    {fields : List (Field ι)} {closed : Bool} (hname : schema name = .record fields closed)
    {values : List (String × Document)}
    (h : List.Forall₂ (Filled (Document.Conforms schema depth)) fields values) :
    List.Forall₂ (fun field member => field.Holds (Document.Conforms schema depth) member) fields
      values := by
  have hgiven : ∀ g ∈ fields, g.absent = .refused →
      ∃ d, g.slot.Holds (Document.Conforms schema depth) d := by
    intro g hg hrefused
    obtain ⟨member, -, -, hfilled⟩ := exists_of_forall₂_left h hg
    rcases hfilled with hholds | ⟨hnull, -⟩ | hdefault
    · exact ⟨_, hholds⟩
    · cases hrefused.symm.trans hnull
    · cases hrefused.symm.trans hdefault
  refine List.forall₂_iff_zip.mpr ⟨h.length_eq, fun {field member} hmem => ?_⟩
  have hfield := (List.of_mem_zip hmem).1
  obtain ⟨hmember, hfilled⟩ := List.forall₂_zip h hmem
  refine ⟨hmember, ?_⟩
  rcases hfilled with hholds | ⟨hnull, hvalue⟩ | hdefault
  · exact hholds
  · exact .inl ⟨hschema.null hname field hfield hnull, hvalue⟩
  · exact hschema.default hname field hfield _ depth hdefault hgiven

/-- The reader for what is inside a bracket, and what it returns there. -/
inductive Inside (schema : Schema ι) :
    Option (Shape ι → Reader Document) → Option (Shape ι → Document → Prop) → Prop where
  | none : Inside schema .none .none
  | some {inside : Shape ι → Reader Document} {depth : Nat} :
      (∀ s input d rest, inside s input = .ok (d, rest) → Document.Conforms schema depth s d) →
      Inside schema (.some inside) (.some (Document.Conforms schema depth))

theorem record_ok (hschema : schema.Sound) {bound : Nat}
    {reader : Option (Shape ι → Reader Document)} {within : Option (Shape ι → Document → Prop)}
    (hinside : Inside schema reader within) {name : ι} {fields : List (Field ι)}
    {closed : Bool} (hname : schema name = .record fields closed)
    (h : record bound reader fields closed input = .ok (d, rest)) :
    Document.Fits schema within (.form name) d := by
  unfold record at h
  cases hinside with
  | none => split at h <;> first | cases h | contradiction
  | @some inside depth hinside =>
      have hitem : ∀ (s : Slot ι) input d rest, slot inside s input = .ok (d, rest) →
          s.Holds (Document.Conforms schema depth) d := fun _ _ _ _ => slot_ok hinside
      split at h
      · cases h
      · cases h
      next heq =>
        cases heq
        obtain ⟨⟨values, left⟩, hvalues, h⟩ := exists_of_bind_ok h
        cases of_pure_ok h
        exact .record hname rfl
          (holds_of_filled hschema hname (fieldItems_ok hitem hvalues))
      next heq =>
        cases heq
        obtain ⟨⟨found, left⟩, hfound, h⟩ := exists_of_bind_ok h
        obtain ⟨values, hvalues, h⟩ := exists_of_bind_ok h
        cases of_pure_ok h
        have hnone : Found fields (Document.Conforms schema depth) [] := nofun
        have hfound := members_ok hitem hnone hfound
        exact .record hname rfl (holds_of_filled hschema hname
          (fieldValues_ok (hschema.names hname) hfound (List.Subset.refl _) hvalues))
      · cases h

theorem choice_ok {reader : Option (Shape ι → Reader Document)}
    {within : Option (Shape ι → Document → Prop)} (hinside : Inside schema reader within)
    {name : ι} {variants : List (String × Payload ι)} (hname : schema name = .choice variants)
    (h : choice reader variants input = .ok (d, rest)) :
    Document.Fits schema within (.form name) d := by
  unfold choice at h
  split at h
  · cases h
  · obtain ⟨⟨cs, left⟩, -, h⟩ := exists_of_bind_ok h
    obtain ⟨payload, hpayload, h⟩ := exists_of_bind_ok h
    split at h
    · cases of_pure_ok h
      exact .bare hname hpayload
    · cases h
  · cases h
  next inside =>
    obtain ⟨⟨tag, left⟩, -, h⟩ := exists_of_bind_ok h
    obtain ⟨payload, hpayload, h⟩ := exists_of_bind_ok h
    obtain ⟨left, -, h⟩ := exists_of_bind_ok h
    cases hinside with
    | some hinside =>
        cases payload with
        | nothing =>
            obtain ⟨left, -, h⟩ := exists_of_bind_ok h
            obtain ⟨left, -, h⟩ := exists_of_bind_ok h
            cases of_pure_ok h
            exact .bare hname hpayload
        | value s =>
            obtain ⟨⟨d, left⟩, hd, h⟩ := exists_of_bind_ok h
            obtain ⟨left, -, h⟩ := exists_of_bind_ok h
            cases of_pure_ok h
            exact .tagged hname hpayload rfl (slot_ok hinside hd)
  · cases h

theorem sequence_ok {bound : Nat} {reader : Option (Shape ι → Reader Document)}
    {within : Option (Shape ι → Document → Prop)} (hinside : Inside schema reader within)
    {item : Shape ι} (h : sequence bound reader item input = .ok (d, rest)) :
    Document.Fits schema within (.sequence item) d := by
  unfold sequence at h
  cases hinside with
  | none => split at h <;> first | cases h | contradiction
  | some hinside =>
      split at h
      · cases h
      next heq =>
        cases heq
        obtain ⟨⟨ds, left⟩, hds, h⟩ := exists_of_bind_ok h
        cases of_pure_ok h
        exact .sequence rfl (items_ok (hinside item) hds)
      · cases h

theorem shape_ok (hschema : schema.Sound) {bound : Nat}
    {reader : Option (Shape ι → Reader Document)} {within : Option (Shape ι → Document → Prop)}
    (hinside : Inside schema reader within) {s : Shape ι}
    (h : shape schema bound reader s input = .ok (d, rest)) : Document.Fits schema within s d := by
  cases s with
  | flag =>
      obtain ⟨value, rfl⟩ := flag_ok h
      exact .flag value
  | number low high =>
      obtain ⟨n, rfl, hwhole, hlow, hhigh⟩ := number_ok h
      exact .number hwhole hlow hhigh
  | text =>
      obtain ⟨⟨s, left⟩, -, h⟩ := exists_of_bind_ok h
      cases of_pure_ok h
      exact .text s
  | sequence item => exact sequence_ok hinside h
  | form name =>
      cases hname : schema name with
      | record fields closed =>
          simp only [shape, hname] at h
          exact record_ok hschema hinside hname h
      | choice variants =>
          simp only [shape, hname] at h
          exact choice_ok hinside hname h

/-- Whatever is read of a shape conforms to it. -/
theorem within_ok (hschema : schema.Sound) {bound depth : Nat} {s : Shape ι}
    (h : within schema bound depth s input = .ok (d, rest)) :
    Document.Conforms schema depth s d := by
  induction depth generalizing s input d rest with
  | zero => exact shape_ok hschema .none h
  | succ depth ih => exact shape_ok hschema (.some fun _ _ _ _ => ih) h

end Read

end ControlFlow
