import Outline.Json.Record
import Outline.Proofs.Json.Numeral

/-!
# Reading back what was written

The compact text of a value reads back as the value, if the value could have come from a text: its
integers are in range, its fractions are finite, the keys of its objects ascend, and it is not
nested too deeply. And whatever has been read from a text is such a value.

The reader is followed through the text with some more text behind the value. A number must not be
followed by something that would belong to it; what follows in a written text is a comma or a
bracket, or nothing. Arrays and objects are followed for texts of any items, since records and
lists of trees are written in the same way.

Main results:

* `Json.readString?_escaped` — a written string reads back as its characters;
* `Json.yields_list`, `Json.yields_record` — the forms of arrays and objects of written texts;
* `Json.Fits.readValue?_write` — a written value reads back, whatever follows it;
* `Json.Fits.ofText?_text` — the text of a value is one of the value;
* `Json.fits_of_ofText?` — a value that has been read can be written and read again.
-/

namespace Outline.Json

/-- A value without fractions that can be read from a text with at most `depth` levels of arrays and
objects. Integers are those of 64 bits, with or without a sign, and the members of an object stand
in the order of their keys, as a map keeps them. -/
inductive Plain : Nat → Json → Prop
  | null {depth : Nat} : Plain depth .null
  | bool {depth : Nat} {b : Bool} : Plain depth (.bool b)
  | int {depth : Nat} {n : Int} : -2 ^ 63 ≤ n → n < 2 ^ 64 → Plain depth (.int n)
  | str {depth : Nat} {s : String} : Plain depth (.str s)
  | arr {depth : Nat} {items : List Json} : (∀ v ∈ items, Plain depth v) →
      Plain (depth + 1) (.arr items)
  | obj {depth : Nat} {members : List (String × Json)} : KeysAscend members →
      (∀ m ∈ members, Plain depth m.2) → Plain (depth + 1) (.obj members)

/-- A value that a text with at most `depth` levels of arrays and objects can hold: fractions are
among them, infinities are not. That a fraction is read back rests on a reader that rounds to the
nearest number; values that are `Plain` do not depend on that. -/
inductive Fits : Nat → Json → Prop
  | null {depth : Nat} : Fits depth .null
  | bool {depth : Nat} {b : Bool} : Fits depth (.bool b)
  | int {depth : Nat} {n : Int} : -2 ^ 63 ≤ n → n < 2 ^ 64 → Fits depth (.int n)
  | float {depth : Nat} {bits : UInt64} : bits.toNat % 2 ^ 63 < 2047 * 2 ^ 52 →
      Fits depth (.float bits)
  | str {depth : Nat} {s : String} : Fits depth (.str s)
  | arr {depth : Nat} {items : List Json} : (∀ v ∈ items, Fits depth v) →
      Fits (depth + 1) (.arr items)
  | obj {depth : Nat} {members : List (String × Json)} : KeysAscend members →
      (∀ m ∈ members, Fits depth m.2) → Fits (depth + 1) (.obj members)

theorem Plain.fits {depth : Nat} {v : Json} (h : Plain depth v) : Fits depth v := by
  induction h with
  | null => exact .null
  | bool => exact .bool
  | int hmin hmax => exact .int hmin hmax
  | str => exact .str
  | arr _ ih => exact .arr ih
  | obj hasc _ ih => exact .obj hasc ih

/-! ## Strings -/

/-- An escape below the surrogates stands for its character, whatever comes next. -/
theorem decode?_unit {u : Nat} (hu : u < 0xD800) (pieces : List Piece) :
    decode? (.unit u :: pieces) = (decode? pieces).map (Char.ofNat u :: ·) := by
  have h1 : ¬(0xD800 ≤ u ∧ u < 0xDC00) := by omega
  have h2 : ¬(0xDC00 ≤ u ∧ u < 0xE000) := by omega
  have h3 : ¬(0xD800 ≤ u ∧ u < 0xE000) := by omega
  cases pieces with
  | nil => simp only [decode?, if_neg h3]
  | cons p rest =>
    cases p with
    | char c => simp only [decode?, if_neg h3]
    | unit v => rw [decode?, if_neg h1, if_neg h2]

/-- A character is escaped with a letter, or with its number, or not at all. -/
theorem escape_cases (c : Char) :
    (∃ letter, letter ≠ 'u' ∧ unescape? letter = some c ∧ escape c = ['\\', letter]) ∨
    (c.toNat < 32 ∧ escape c = '\\' :: 'u' :: Hex.digits 4 c.toNat) ∨
    (c ≠ '"' ∧ c ≠ '\\' ∧ ¬c.toNat < 32 ∧ escape c = [c]) := by
  have hletter : ∀ {letter : Char}, letter ≠ 'u' → unescape? letter = some c →
      ∃ letter', letter' ≠ 'u' ∧ unescape? letter' = some c ∧
        ['\\', letter] = ['\\', letter'] :=
    fun hu hc => ⟨_, hu, hc, rfl⟩
  unfold escape
  split
  · next hc => exact .inl (hletter (by decide) (by rw [hc]; decide))
  split
  · next hc => exact .inl (hletter (by decide) (by rw [hc]; decide))
  split
  · next hc => exact .inl (hletter (by decide) (by rw [hc]; decide))
  split
  · next hc => exact .inl (hletter (by decide) (by rw [hc]; decide))
  split
  · next hc => exact .inl (hletter (by decide) (by rw [hc]; decide))
  split
  · next hc => exact .inl (hletter (by decide) (by rw [hc]; decide))
  split
  · next hc => exact .inl (hletter (by decide) (by rw [hc]; decide))
  split
  · next hc => exact .inr (.inl ⟨hc, rfl⟩)
  · next hquote hback _ _ _ _ _ hc => exact .inr (.inr ⟨hquote, hback, hc, rfl⟩)

/-- A written character reads back as a piece that stands for it. -/
theorem readString?_escape (c : Char) {tail rest : List Char} {pieces : List Piece}
    (h : readString? tail = some (pieces, rest)) :
    ∃ piece, readString? (escape c ++ tail) = some (piece :: pieces, rest) ∧
      decode? (piece :: pieces) = (decode? pieces).map (c :: ·) := by
  rcases escape_cases c with ⟨letter, hu, hc, heq⟩ | ⟨hc, heq⟩ | ⟨hquote, hback, hc, heq⟩
  -- a letter
  · refine ⟨.char c, ?_, rfl⟩
    rw [heq, List.cons_append, List.singleton_append, readString?, hc, h]
    · rfl
    · exact fun _ _ _ _ _ hletter _ => hu hletter
  -- a number, for which four digits are enough
  · have hread : Hex.read? (Hex.digits 4 c.toNat) = some c.toNat :=
      Hex.read?_digits (Nat.lt_of_lt_of_le hc (by decide))
    obtain ⟨x, y, z, w, hdigits⟩ : ∃ x y z w, Hex.digits 4 c.toNat = [x, y, z, w] :=
      ⟨_, _, _, _, rfl⟩
    rw [hdigits] at hread heq
    refine ⟨.unit c.toNat, ?_, by rw [decode?_unit (by omega), Char.ofNat_toNat]⟩
    simp only [heq, List.cons_append, List.nil_append]
    rw [readString?, hread, h]
    rfl
  -- the character itself, which neither closes the string nor begins an escape
  · refine ⟨.char c, ?_, rfl⟩
    rw [heq, List.singleton_append, readString?.eq_def]
    split <;> simp_all

theorem readString?_escaped (cs : List Char) (rest : List Char) :
    ∃ pieces, readString? (cs.flatMap escape ++ '"' :: rest) = some (pieces, rest) ∧
      decode? pieces = some cs := by
  induction cs with
  | nil => exact ⟨[], by simp [readString?], rfl⟩
  | cons c cs ih =>
    obtain ⟨pieces, hread, hdecode⟩ := ih
    obtain ⟨piece, hpiece, hchar⟩ := readString?_escape c hread
    refine ⟨piece :: pieces, ?_, by rw [hchar, hdecode, Option.map_some]⟩
    rw [List.flatMap_cons, List.append_assoc, hpiece]

/-- A written string reads back behind its opening quote. -/
theorem writeString_eq (s : String) (rest : List Char) :
    ∃ pieces tail, writeString s ++ rest = '"' :: tail ∧
      readString? tail = some (pieces, rest) ∧ decodeText? pieces = some s := by
  obtain ⟨pieces, hread, hdecode⟩ := readString?_escaped s.toList rest
  refine ⟨pieces, _, ?_, hread, by simp [decodeText?, hdecode]⟩
  simp [writeString]

/-! ## Values -/

theorem skipSpace_cons {c : Char} {cs : List Char} (h : isSpace c = false) :
    skipSpace (c :: cs) = c :: cs := by
  simp [skipSpace, h]

/-- A sign or a digit is no other character. -/
theorem ne_of_numeral {c d : Char} (h : c = '-' ∨ c.isDigit = true) (hd : d ≠ '-')
    (hdigit : d.isDigit = false) : c ≠ d := by
  rintro rfl
  rcases h with h | h
  · exact hd h
  · rw [hdigit] at h
    cases h

theorem isSpace_of_numeral {c : Char} (h : c = '-' ∨ c.isDigit = true) : isSpace c = false := by
  have h1 : c ≠ ' ' := ne_of_numeral h (by decide) (by decide)
  have h2 : c ≠ '\n' := ne_of_numeral h (by decide) (by decide)
  have h3 : c ≠ '\t' := ne_of_numeral h (by decide) (by decide)
  have h4 : c ≠ '\r' := ne_of_numeral h (by decide) (by decide)
  simp [isSpace, h1, h2, h3, h4]

/-- A numeral is read where a value begins with a sign or a digit. -/
theorem readValue?_numeral {c : Char} {cs : List Char} (fuel : Nat)
    (h : c = '-' ∨ c.isDigit = true) :
    readValue? (fuel + 1) (c :: cs) =
      (Numeral.read? (c :: cs)).map fun (n, rest) => (.numeral n, rest) := by
  have hnot : ∀ {d : Char}, d ≠ '-' → d.isDigit = false → c ≠ d := ne_of_numeral h
  rw [readValue?, skipSpace_cons (isSpace_of_numeral h)]
  split
  · next heq => exact absurd (List.cons.inj heq).1 (hnot (by decide) (by decide))
  · next heq => exact absurd (List.cons.inj heq).1 (hnot (by decide) (by decide))
  · next heq => exact absurd (List.cons.inj heq).1 (hnot (by decide) (by decide))
  · next heq => exact absurd (List.cons.inj heq).1 (hnot (by decide) (by decide))
  · next heq => exact absurd (List.cons.inj heq).1 (hnot (by decide) (by decide))
  · next heq => exact absurd (List.cons.inj heq).1 (hnot (by decide) (by decide))
  · rfl

/-- The value is a number, written as a numeral that has it as its value. -/
def IsNumeral (v : Json) : Prop :=
  ∃ n : Numeral, n.WellFormed ∧ v.write = n.text ∧ n.value? = some v

theorem isNumeral_int {n : Int} (hmin : -2 ^ 63 ≤ n) (hmax : n < 2 ^ 64) : IsNumeral (.int n) :=
  ⟨.ofInt n, Numeral.wellFormed_ofInt n, by rw [write, Numeral.text_ofInt],
    Numeral.value?_ofInt hmin hmax⟩

theorem isNumeral_float {bits : UInt64} (hfinite : bits.toNat % 2 ^ 63 < 2047 * 2 ^ 52) :
    IsNumeral (.float bits) := by
  obtain ⟨n, hn, htext, hvalue⟩ := Numeral.exists_text_eq_write hfinite
  exact ⟨n, hn, by rw [write, htext], hvalue⟩

theorem IsNumeral.exists_head {v : Json} (h : IsNumeral v) :
    ∃ c cs, v.write = c :: cs ∧ isSpace c = false ∧ c ≠ ']' := by
  obtain ⟨n, hn, htext, -⟩ := h
  obtain ⟨c, cs, hcs, hc⟩ := hn.exists_head
  exact ⟨c, cs, htext.trans hcs, isSpace_of_numeral hc, ne_of_numeral hc (by decide) (by decide)⟩

/-- A written value begins with something else than white space and the end of an array. -/
theorem Fits.exists_head {depth : Nat} {v : Json} (h : Fits depth v) :
    ∃ c cs, v.write = c :: cs ∧ isSpace c = false ∧ c ≠ ']' := by
  cases h with
  | null => exact ⟨'n', _, rfl, rfl, by decide⟩
  | @bool _ b =>
    cases b with
    | true => exact ⟨'t', _, rfl, rfl, by decide⟩
    | false => exact ⟨'f', _, rfl, rfl, by decide⟩
  | int hmin hmax => exact (isNumeral_int hmin hmax).exists_head
  | float hfinite => exact (isNumeral_float hfinite).exists_head
  | str => exact ⟨'"', _, by rw [write, writeString], rfl, by decide⟩
  | arr => exact ⟨'[', _, by rw [write], rfl, by decide⟩
  | obj => exact ⟨'\x7b', _, by rw [write], rfl, by decide⟩

/-- A text is not empty, so there is fuel for its first character. -/
theorem Fits.exists_fuel {depth : Nat} {v : Json} (h : Fits depth v) {fuel : Nat}
    (hfuel : v.write.length ≤ fuel) : ∃ n, fuel = n + 1 := by
  obtain ⟨c, cs, hcs, -⟩ := h.exists_head
  rw [hcs, List.length_cons] at hfuel
  exact ⟨fuel - 1, by omega⟩

/-! ## Arrays and objects of texts -/

/-- The text is that of a form with the property `P`, whatever follows the text. -/
def Yields (text : List Char) (P : Form → Prop) : Prop :=
  ∀ (fuel : Nat) (rest : List Char), text.length ≤ fuel → Ends rest →
    ∃ form, readValue? fuel (text ++ rest) = some (form, rest) ∧ P form

theorem Yields.imp {text : List Char} {P Q : Form → Prop} (h : Yields text P)
    (hPQ : ∀ {form}, P form → Q form) : Yields text Q := by
  intro fuel rest hfuel hrest
  obtain ⟨form, hread, hform⟩ := h fuel rest hfuel hrest
  exact ⟨form, hread, hPQ hform⟩

/-- The text begins with something else than white space and the end of an array. -/
def Begins (text : List Char) : Prop :=
  ∃ c cs, text = c :: cs ∧ isSpace c = false ∧ c ≠ ']'

/-- The texts of the items after the first, and the bracket that closes the array. -/
def closeItems : List (List Char) → List Char
  | [] => [']']
  | text :: rest => ',' :: (text ++ closeItems rest)

/-- The texts of the items, and the bracket that closes the array. -/
def openItems : List (List Char) → List Char
  | [] => [']']
  | text :: rest => text ++ closeItems rest

theorem ends_closeItems (texts : List (List Char)) (rest : List Char) :
    Ends (closeItems texts ++ rest) := by
  cases texts with
  | nil => exact ends_cons (.inr (.inl rfl))
  | cons text texts => exact ends_cons (.inl rfl)

theorem ends_writeFields (fields : List Written) (rest : List Char) :
    Ends (writeFields fields ++ rest) := by
  cases fields with
  | nil => exact ends_cons (.inr (.inr rfl))
  | cons field fields => exact ends_cons (.inl rfl)

section Items

variable {ι : Type} {text : ι → List Char} {R : ι → Form → Prop}

/-- The items of an array are read if each of them is. -/
theorem readItems?_texts {i : ι} {items : List ι} (h : ∀ j ∈ i :: items, Yields (text j) (R j))
    {fuel : Nat} (rest : List Char)
    (hfuel : (text i ++ closeItems (items.map text)).length ≤ fuel) :
    ∃ forms, readItems? fuel (text i ++ closeItems (items.map text) ++ rest) =
        some (forms, rest) ∧ List.Forall₂ R (i :: items) forms := by
  induction items generalizing i fuel with
  | nil =>
    obtain ⟨fuel, rfl⟩ : ∃ n, fuel = n + 1 := ⟨fuel - 1, by simp [closeItems] at hfuel; omega⟩
    obtain ⟨form, hread, hform⟩ := h i (by simp) fuel (closeItems [] ++ rest)
      (by simp [closeItems] at hfuel; omega) (ends_closeItems [] rest)
    refine ⟨[form], ?_, .cons hform .nil⟩
    rw [List.append_assoc, readItems?, List.map_nil, hread]
    rfl
  -- the fuel is counted in characters, so the comma pays for the step
  | cons j items ih =>
    have hlength : (text i).length + (1 + (text j ++ closeItems (items.map text)).length) ≤
        fuel := by
      rw [List.map_cons, closeItems] at hfuel
      simp only [List.length_append, List.length_cons] at hfuel ⊢
      omega
    obtain ⟨fuel, rfl⟩ : ∃ n, fuel = n + 1 := ⟨fuel - 1, by omega⟩
    obtain ⟨form, hread, hform⟩ := h i (by simp) fuel
      (closeItems ((j :: items).map text) ++ rest) (by omega) (ends_closeItems _ rest)
    obtain ⟨forms, hforms, hrest⟩ := ih (fun x hx => h x (List.mem_cons_of_mem _ hx))
      (show (text j ++ closeItems (items.map text)).length ≤ fuel by omega)
    refine ⟨form :: forms, ?_, .cons hform hrest⟩
    rw [List.append_assoc, readItems?, hread]
    simp only [Option.bind_eq_bind, Option.bind_some, List.map_cons, closeItems, List.cons_append]
    rw [skipSpace_cons (by decide)]
    simp only [hforms]
    rfl

/-- The form of an array. -/
theorem yields_list {items : List ι} (hbegins : ∀ i ∈ items, Begins (text i))
    (h : ∀ i ∈ items, Yields (text i) (R i)) :
    Yields ('[' :: openItems (items.map text)) fun form =>
      ∃ forms, form = .arr forms ∧ List.Forall₂ R items forms := by
  intro fuel rest hfuel _
  obtain ⟨fuel, rfl⟩ : ∃ n, fuel = n + 1 :=
    ⟨fuel - 1, by rw [List.length_cons] at hfuel; omega⟩
  cases items with
  | nil =>
    refine ⟨.arr [], ?_, [], rfl, .nil⟩
    rw [List.map_nil, openItems, List.cons_append, readValue?, skipSpace_cons (by decide)]
    simp only [List.cons_append, List.nil_append]
    rw [skipSpace_cons (by decide)]
    rfl
  | cons i items =>
    rw [List.map_cons, openItems, List.length_cons] at hfuel
    obtain ⟨forms, hread, hforms⟩ := readItems?_texts h rest (Nat.le_of_succ_le_succ hfuel)
    -- the first item does not begin with the closing bracket
    obtain ⟨c, cs, hcs, hspace, hc⟩ := hbegins i (by simp)
    rw [hcs, List.cons_append, List.cons_append] at hread
    refine ⟨.arr forms, ?_, forms, rfl, hforms⟩
    rw [List.map_cons, openItems, hcs, List.cons_append, readValue?, skipSpace_cons (by decide)]
    simp only [List.cons_append]
    rw [skipSpace_cons hspace]
    split
    · next heq => exact absurd (List.cons.inj heq).1 hc
    · rw [hread]
      rfl

variable (name : ι → String)

/-- A member has the key and the value that were written. -/
def IsMember (name : ι → String) (R : ι → Form → Prop) (i : ι) (m : List Piece × Form) : Prop :=
  decodeText? m.1 = some (name i) ∧ R i m.2

/-- The text of a member, and of those that follow it. -/
def writeMember (field : Written) (fields : List Written) : List Char :=
  writeString field.1 ++ ':' :: (field.2 ++ writeFields fields)

/-- One member is read, and then a brace that closes or a comma and more members. -/
theorem readMembers?_member {i : ι} (h : Yields (text i) (R i)) {fuel : Nat}
    (hfuel : (text i).length ≤ fuel) (fields : List Written) (rest : List Char) :
    ∃ m, IsMember name R i m ∧
      (∀ more, skipSpace (writeFields fields ++ rest) = '\x7d' :: more →
        readMembers? (fuel + 1) (writeMember (name i, text i) fields ++ rest) =
          some ([m], more)) ∧
      ∀ more, skipSpace (writeFields fields ++ rest) = ',' :: more →
        readMembers? (fuel + 1) (writeMember (name i, text i) fields ++ rest) =
          (readMembers? fuel more).map fun (members, rest) => (m :: members, rest) := by
  obtain ⟨form, hread, hform⟩ :=
    h fuel (writeFields fields ++ rest) hfuel (ends_writeFields fields rest)
  obtain ⟨pieces, tail, htext, hstring, hkey⟩ :=
    writeString_eq (name i) (':' :: (text i ++ (writeFields fields ++ rest)))
  have hwhole : writeMember (name i, text i) fields ++ rest = '"' :: tail := by
    rw [← htext]
    simp [writeMember]
  refine ⟨(pieces, form), ⟨hkey, hform⟩, ?_⟩
  rw [hwhole, readMembers?, skipSpace_cons (by decide)]
  -- the key, the colon and the value, one after the other
  simp only [hstring, Option.bind_eq_bind, Option.bind_some]
  rw [skipSpace_cons (by decide)]
  simp only [hread, Option.bind_some]
  refine ⟨fun more hmore => ?_, fun more hmore => ?_⟩
  · simp only [hmore]
    rfl
  · simp only [hmore]
    cases readMembers? fuel more <;> rfl

/-- The members of an object are read if the value of each of them is. -/
theorem readMembers?_texts {i : ι} {items : List ι}
    (h : ∀ j ∈ i :: items, Yields (text j) (R j)) {fuel : Nat} (rest : List Char)
    (hfuel : (writeMember (name i, text i) (items.map fun j => (name j, text j))).length ≤ fuel) :
    ∃ members, readMembers? fuel
        (writeMember (name i, text i) (items.map fun j => (name j, text j)) ++ rest) =
        some (members, rest) ∧ List.Forall₂ (IsMember name R) (i :: items) members := by
  induction items generalizing i fuel with
  | nil =>
    have hlength : (text i).length + 1 ≤ fuel := by
      simp only [writeMember, List.length_append, List.length_cons] at hfuel
      omega
    obtain ⟨fuel, rfl⟩ : ∃ n, fuel = n + 1 := ⟨fuel - 1, by omega⟩
    obtain ⟨m, hm, hlast, -⟩ := readMembers?_member name (h i (by simp))
      (Nat.le_of_succ_le_succ hlength) [] rest
    exact ⟨[m], hlast rest rfl, .cons hm .nil⟩
  | cons j items ih =>
    obtain ⟨fields, hfields⟩ : ∃ fields, fields = items.map fun j => (name j, text j) := ⟨_, rfl⟩
    rw [List.map_cons, ← hfields] at hfuel ⊢
    rw [← hfields] at ih
    have hlength : (text i).length + (1 + (writeMember (name j, text j) fields).length) ≤
        fuel := by
      simp only [writeMember, writeFields, List.length_append, List.length_cons] at hfuel ⊢
      omega
    obtain ⟨fuel, rfl⟩ : ∃ n, fuel = n + 1 := ⟨fuel - 1, by omega⟩
    obtain ⟨m, hm, -, hmore⟩ := readMembers?_member name (h i (by simp))
      (show (text i).length ≤ fuel by omega) ((name j, text j) :: fields) rest
    obtain ⟨members, hmembers, hrest⟩ := ih (fun x hx => h x (List.mem_cons_of_mem _ hx))
      (show (writeMember (name j, text j) fields).length ≤ fuel by omega)
    refine ⟨m :: members, ?_, .cons hm hrest⟩
    -- behind the first member a comma goes before the others
    have hcomma : writeFields ((name j, text j) :: fields) ++ rest =
        ',' :: (writeMember (name j, text j) fields ++ rest) := by
      simp [writeMember, writeFields]
    rw [hmore (writeMember (name j, text j) fields ++ rest)
      (by rw [hcomma, skipSpace_cons (by decide)]), hmembers]
    rfl

/-- The form of an object. -/
theorem yields_record {items : List ι} (h : ∀ i ∈ items, Yields (text i) (R i)) :
    Yields (writeRecord (items.map fun i => (name i, text i))) fun form =>
      ∃ members, form = .obj members ∧ List.Forall₂ (IsMember name R) items members := by
  intro fuel rest hfuel _
  cases items with
  | nil =>
    obtain ⟨fuel, rfl⟩ : ∃ n, fuel = n + 1 :=
      ⟨fuel - 1, by rw [List.map_nil, writeRecord, List.length_cons] at hfuel; omega⟩
    refine ⟨.obj [], ?_, [], rfl, .nil⟩
    rw [List.map_nil, writeRecord, List.cons_append, readValue?, skipSpace_cons (by decide)]
    simp only [List.cons_append, List.nil_append]
    rw [skipSpace_cons (by decide)]
    rfl
  | cons i items =>
    have htext : writeRecord ((i :: items).map fun i => (name i, text i)) =
        '\x7b' :: writeMember (name i, text i) (items.map fun i => (name i, text i)) := rfl
    rw [htext, List.length_cons] at hfuel
    obtain ⟨fuel, rfl⟩ : ∃ n, fuel = n + 1 := ⟨fuel - 1, by omega⟩
    obtain ⟨members, hread, hmembers⟩ :=
      readMembers?_texts name h rest (Nat.le_of_succ_le_succ hfuel)
    refine ⟨.obj members, ?_, members, rfl, hmembers⟩
    -- the first member begins with a quote
    obtain ⟨cs, hcs⟩ : ∃ cs, writeMember (name i, text i)
        (items.map fun i => (name i, text i)) = '"' :: cs := ⟨_, rfl⟩
    rw [hcs, List.cons_append] at hread
    rw [htext, hcs, List.cons_append, readValue?, skipSpace_cons (by decide)]
    simp only [List.cons_append]
    rw [skipSpace_cons (by decide)]
    split
    · next heq => cases heq
    · rw [hread]
      rfl

end Items

/-! ## Values that read back -/

/-- What is asked of a value: it reads back, whatever follows it. -/
def ReadsBack (depth : Nat) (v : Json) : Prop :=
  Yields v.write fun form => form.value? depth = some v

theorem writeMoreItems_eq (items : List Json) :
    writeMoreItems items = closeItems (items.map write) := by
  induction items with
  | nil => rfl
  | cons v items ih => rw [writeMoreItems, ih, List.map_cons, closeItems]

theorem write_arr (items : List Json) :
    (Json.arr items).write = '[' :: openItems (items.map write) := by
  cases items with
  | nil => rfl
  | cons v items => rw [write, writeItems, writeMoreItems_eq, List.map_cons, openItems]

theorem writeMoreMembers_eq (members : List (String × Json)) :
    writeMoreMembers members = writeFields (members.map fun m => (m.1, m.2.write)) := by
  induction members with
  | nil => rfl
  | cons m members ih => rw [writeMoreMembers, ih, List.map_cons, writeFields]

theorem write_obj (members : List (String × Json)) :
    (Json.obj members).write = writeRecord (members.map fun m => (m.1, m.2.write)) := by
  cases members with
  | nil => rfl
  | cons m members =>
    rw [write, writeMembers, writeMoreMembers_eq, List.map_cons, writeRecord]

theorem itemValues?_of_forall₂ {depth : Nat} {items : List Json} {forms : List Form}
    (h : List.Forall₂ (fun v form => form.value? depth = some v) items forms) :
    itemValues? depth forms = some items := by
  induction h with
  | nil => rfl
  | cons hv _ ih => simp [itemValues?, hv, ih]

theorem memberValues?_of_forall₂ {depth : Nat} {members : List (String × Json)}
    {forms : List (List Piece × Form)}
    (h : List.Forall₂ (IsMember Prod.fst fun m form => form.value? depth = some m.2) members
      forms) : memberValues? depth forms = some members := by
  induction h with
  | nil => rfl
  | @cons m form _ _ hm _ ih =>
    obtain ⟨pieces, form⟩ := form
    simp [memberValues?, show decodeText? pieces = some m.1 from hm.1,
      show form.value? depth = some m.2 from hm.2, ih]

/-- Members that come in the order of their keys are entered one behind the other. -/
theorem mkObject_of_ascend {members : List (String × Json)} (h : KeysAscend members) :
    mkObject members = .obj members := by
  -- a key above all others is entered at the end
  have hlast : ∀ (done : List (String × Json)) (m : String × Json),
      (∀ d ∈ done, compare d.1 m.1 = .lt) → insertMember m.1 m.2 done = done ++ [m] := by
    intro done m hdone
    induction done with
    | nil => rfl
    | cons d done ih =>
      have hgt : compare m.1 d.1 = .gt := Std.OrientedCmp.gt_of_lt (hdone d (by simp))
      rw [insertMember, hgt]
      dsimp only
      rw [ih fun e he => hdone e (List.mem_cons_of_mem _ he), List.cons_append]
  -- so the members that are left go behind those that are done
  have hfold : ∀ (rest done : List (String × Json)), KeysAscend (done ++ rest) →
      rest.foldl (fun acc m => insertMember m.1 m.2 acc) done = done ++ rest := by
    intro rest
    induction rest with
    | nil => simp
    | cons m rest ih =>
      intro done hasc
      have hm : ∀ d ∈ done, compare d.1 m.1 = .lt := fun d hd =>
        (List.pairwise_append.1 hasc).2.2 d hd m (by simp)
      rw [List.foldl_cons, hlast done m hm, ih (done ++ [m]) (by simpa using hasc)]
      simp
  rw [mkObject, hfold members [] (by simpa using h), List.nil_append]

theorem IsNumeral.readsBack {v : Json} (h : IsNumeral v) (depth : Nat) : ReadsBack depth v := by
  intro fuel rest hfuel hrest
  obtain ⟨n, hn, htext, hvalue⟩ := h
  obtain ⟨c, cs, hcs, hc⟩ := hn.exists_head
  rw [htext] at hfuel ⊢
  obtain ⟨fuel, rfl⟩ : ∃ m, fuel = m + 1 :=
    ⟨fuel - 1, by rw [hcs, List.length_cons] at hfuel; omega⟩
  have hread := hn.read?_text hrest
  refine ⟨.numeral n, ?_, hvalue⟩
  rw [hcs, List.cons_append] at hread ⊢
  rw [readValue?_numeral fuel hc, hread]
  rfl

theorem readsBack_str {depth : Nat} (s : String) : ReadsBack depth (.str s) := by
  intro fuel rest hfuel _
  obtain ⟨fuel, rfl⟩ := (.str : Fits depth (.str s)).exists_fuel hfuel
  obtain ⟨pieces, tail, htext, hstring, hvalue⟩ := writeString_eq s rest
  refine ⟨.str pieces, ?_, ?_⟩
  · rw [write, htext, readValue?, skipSpace_cons (by decide)]
    simp only [hstring]
    rfl
  · show Form.value? depth (.str pieces) = _
    rw [Form.value?, hvalue]
    rfl

theorem readsBack_arr {depth : Nat} {items : List Json} (hitems : ∀ v ∈ items, Fits depth v)
    (h : ∀ v ∈ items, ReadsBack depth v) : ReadsBack (depth + 1) (.arr items) := by
  rw [ReadsBack, write_arr]
  refine (yields_list (fun v hv => (hitems v hv).exists_head) h).imp ?_
  rintro _ ⟨forms, rfl, hforms⟩
  rw [Form.value?, itemValues?_of_forall₂ hforms, Option.map_some]

theorem readsBack_obj {depth : Nat} {members : List (String × Json)} (hasc : KeysAscend members)
    (h : ∀ m ∈ members, ReadsBack depth m.2) : ReadsBack (depth + 1) (.obj members) := by
  rw [ReadsBack, write_obj]
  refine (yields_record Prod.fst h).imp ?_
  rintro _ ⟨forms, rfl, hforms⟩
  -- entered in their order, the members are those that were written
  rw [Form.value?, memberValues?_of_forall₂ hforms, Option.map_some, mkObject_of_ascend hasc]

/-- A written value reads back, whatever follows it. -/
theorem Fits.readValue?_write {depth : Nat} {v : Json} (h : Fits depth v) :
    ReadsBack depth v := by
  induction h with
  | null =>
    intro fuel rest hfuel _
    obtain ⟨fuel, rfl⟩ := (.null : Fits 0 .null).exists_fuel hfuel
    exact ⟨.null, rfl, rfl⟩
  | @bool _ b =>
    intro fuel rest hfuel _
    obtain ⟨fuel, rfl⟩ := (.bool : Fits 0 (.bool b)).exists_fuel hfuel
    cases b with
    | true => exact ⟨.bool true, rfl, rfl⟩
    | false => exact ⟨.bool false, rfl, rfl⟩
  | int hmin hmax => exact (isNumeral_int hmin hmax).readsBack _
  | float hfinite => exact (isNumeral_float hfinite).readsBack _
  | str => exact readsBack_str _
  | arr hitems ih => exact readsBack_arr hitems ih
  | obj hasc _ ih => exact readsBack_obj hasc ih

theorem Fits.ofText?_text {v : Json} (h : Fits maxDepth v) : ofText? v.text = some v := by
  obtain ⟨form, hread, hvalue⟩ := h.readValue?_write (v.write.length + 1) []
    (Nat.le_succ _) ends_nil
  rw [List.append_nil] at hread
  have htext : v.text.toList = v.write := String.toList_ofList
  have hform : read? v.write = some form := by
    rw [read?, hread]
    rfl
  rw [ofText?, readText?, htext, hform]
  exact hvalue

theorem ofText?_text {v : Json} (h : Plain maxDepth v) : ofText? v.text = some v :=
  h.fits.ofText?_text

/-! ## What has been read -/

theorem mem_insertMember {key : String} {v : Json} {members : List (String × Json)}
    {m : String × Json} (h : m ∈ insertMember key v members) : m = (key, v) ∨ m ∈ members := by
  induction members with
  | nil => simpa [insertMember] using h
  | cons a rest ih =>
    unfold insertMember at h
    split at h <;> simp only [List.mem_cons] at h ⊢ <;> tauto

/-- An object is made of the given members, and their keys ascend. -/
theorem mkObject_spec (members : List (String × Json)) :
    ∃ entered, mkObject members = .obj entered ∧ KeysAscend entered ∧
      ∀ m ∈ entered, m ∈ members := by
  have hfold : ∀ (rest done : List (String × Json)), KeysAscend done →
      KeysAscend (rest.foldl (fun acc m => insertMember m.1 m.2 acc) done) ∧
        ∀ m ∈ rest.foldl (fun acc m => insertMember m.1 m.2 acc) done, m ∈ done ∨ m ∈ rest := by
    intro rest
    induction rest with
    | nil => exact fun done h => ⟨h, fun m hm => .inl hm⟩
    | cons a rest ih =>
      intro done h
      obtain ⟨hasc, hmem⟩ := ih (insertMember a.1 a.2 done) (insertMember_sorted a.1 a.2 h)
      refine ⟨hasc, fun m hm => ?_⟩
      rcases hmem m hm with hm | hm
      · rcases mem_insertMember hm with rfl | hm
        · exact .inr List.mem_cons_self
        · exact .inl hm
      · exact .inr (List.mem_cons_of_mem _ hm)
  obtain ⟨hasc, hmem⟩ := hfold members [] List.Pairwise.nil
  exact ⟨_, rfl, hasc, fun m hm => (hmem m hm).resolve_left (by simp)⟩

mutual

/-- The value of a form can be written. -/
theorem fits_of_value? {depth : Nat} {v : Json} :
    (form : Form) → form.value? depth = some v → Fits depth v
  | .null, h => by
    cases h
    exact .null
  | .bool b, h => by
    cases h
    exact .bool
  | .numeral n, h => by
    rcases Numeral.value?_cases h with ⟨i, rfl, hmin, hmax⟩ | ⟨bits, rfl, hfinite⟩
    · exact .int hmin hmax
    · exact .float hfinite
  | .str pieces, h => by
    rw [Form.value?] at h
    obtain ⟨s, -, rfl⟩ := Option.map_eq_some_iff.1 h
    exact .str
  | .arr items, h => by
    cases depth with
    | zero => cases h
    | succ depth =>
      rw [Form.value?] at h
      obtain ⟨vs, hvs, rfl⟩ := Option.map_eq_some_iff.1 h
      exact .arr (fits_of_itemValues? items hvs)
  | .obj members, h => by
    cases depth with
    | zero => cases h
    | succ depth =>
      rw [Form.value?] at h
      obtain ⟨vs, hvs, rfl⟩ := Option.map_eq_some_iff.1 h
      obtain ⟨entered, hobject, hasc, hmem⟩ := mkObject_spec vs
      rw [hobject]
      exact .obj hasc fun m hm => fits_of_memberValues? members hvs m (hmem m hm)

theorem fits_of_itemValues? {depth : Nat} {vs : List Json} :
    (items : List Form) → itemValues? depth items = some vs → ∀ v ∈ vs, Fits depth v
  | [], h => by
    cases h
    simp
  | form :: items, h => by
    rw [itemValues?] at h
    obtain ⟨v, hv, h⟩ := Option.bind_eq_some_iff.1 h
    obtain ⟨rest, hrest, h⟩ := Option.bind_eq_some_iff.1 h
    cases h
    exact List.forall_mem_cons.2 ⟨fits_of_value? form hv, fits_of_itemValues? items hrest⟩

theorem fits_of_memberValues? {depth : Nat} {vs : List (String × Json)} :
    (members : List (List Piece × Form)) → memberValues? depth members = some vs →
      ∀ m ∈ vs, Fits depth m.2
  | [], h => by
    cases h
    simp
  | (pieces, form) :: members, h => by
    rw [memberValues?] at h
    obtain ⟨key, -, h⟩ := Option.bind_eq_some_iff.1 h
    obtain ⟨v, hv, h⟩ := Option.bind_eq_some_iff.1 h
    obtain ⟨rest, hrest, h⟩ := Option.bind_eq_some_iff.1 h
    cases h
    exact List.forall_mem_cons.2 ⟨fits_of_value? form hv, fits_of_memberValues? members hrest⟩

end

/-- A value that has been read from a text can be written and read again. -/
theorem fits_of_ofText? {s : String} {v : Json} (h : ofText? s = some v) : Fits maxDepth v := by
  obtain ⟨form, -, hvalue⟩ := Option.bind_eq_some_iff.1 h
  exact fits_of_value? form hvalue

end Outline.Json
