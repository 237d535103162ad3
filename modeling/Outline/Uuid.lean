import Outline.Text.Hex

/-!
# Universally unique identifiers

Nodes and spaces are named by 128-bit numbers. They are written as thirty-two lower-case digits in
five groups joined by hyphens, and read from that form, from the bare digits, from the braced form
and from the `urn:uuid:` form, with letters in either case. The zero identifier, called nil, stands
for an absent one in arguments.

Main results:

* `ofList?_toList` — the written form reads back;
* `toText_inj` — distinct identifiers have distinct written forms.
-/

namespace Outline

-- powers are the built-in ones, whatever else is imported
attribute [local instance (2000)] instPowNat

structure Uuid where
  val : Nat
  isLt : val < 2 ^ (128 : Nat)
  deriving DecidableEq

namespace Uuid

def nil : Uuid := ⟨0, by decide⟩

instance : Inhabited Uuid := ⟨nil⟩

/-- Whether the identifier is the one that stands for an absent identifier. -/
def isNil (id : Uuid) : Bool :=
  id = nil

def ofNat? (n : Nat) : Option Uuid :=
  if h : n < 2 ^ (128 : Nat) then some ⟨n, h⟩ else none

instance : Ord Uuid := ⟨fun a b => compare a.val b.val⟩

theorem compare_eq (a b : Uuid) : compare a b = compare a.val b.val := rfl

instance : Std.TransOrd Uuid where
  eq_swap := Std.OrientedOrd.eq_swap (α := Nat)
  isLE_trans := Std.TransOrd.isLE_trans (α := Nat)

instance : Std.LawfulEqOrd Uuid where
  eq_of_compare {a b} h := by
    cases a
    cases b
    simp_all [compare_eq]

/-! ## Written form -/

/-- Thirty-two digits in groups of 8, 4, 4, 4 and 12. -/
def hyphenate (ds : List Char) : List Char :=
  ds.take 8 ++ '-' :: ((ds.drop 8).take 4 ++ '-' :: ((ds.drop 12).take 4 ++
    '-' :: ((ds.drop 16).take 4 ++ '-' :: ds.drop 20)))

def toList (id : Uuid) : List Char :=
  hyphenate (Hex.digits 32 id.val)

def toText (id : Uuid) : String :=
  String.ofList id.toList

instance : ToString Uuid := ⟨toText⟩

/-! ## Accepted forms -/

/-- Exactly thirty-two digits. -/
def ofDigits? (ds : List Char) : Option Uuid :=
  if ds.length = 32 then Hex.read? ds >>= ofNat? else none

/-- Thirty-two digits with hyphens between the groups. -/
def ofHyphenated? (cs : List Char) : Option Uuid :=
  if cs[8]? = some '-' ∧ cs[13]? = some '-' ∧ cs[18]? = some '-' ∧ cs[23]? = some '-' then
    ofDigits? (cs.take 8 ++ ((cs.drop 9).take 4 ++ ((cs.drop 14).take 4 ++
      ((cs.drop 19).take 4 ++ cs.drop 24))))
  else none

/-- The text between braces, when `cs` opens with one and closes with one. -/
def unbraced? : List Char → Option (List Char)
  | '\x7b' :: rest => if rest.getLast? = some '\x7d' then some rest.dropLast else none
  | _ => none

/-- Read any accepted form; the length decides which one is meant. -/
def ofList? (cs : List Char) : Option Uuid :=
  if cs.length = 32 then ofDigits? cs
  else if cs.length = 36 then ofHyphenated? cs
  else if cs.length = 38 then unbraced? cs >>= ofHyphenated?
  else if cs.length = 45 ∧ (cs.take 9).map Char.toLower = "urn:uuid:".toList then
    ofHyphenated? (cs.drop 9)
  else none

def ofText? (s : String) : Option Uuid :=
  ofList? s.toList

/-! ## Reading back -/

theorem length_hyphenate {ds : List Char} (h : ds.length = 32) : (hyphenate ds).length = 36 := by
  simp [hyphenate, h]

@[simp] theorem length_toList (id : Uuid) : id.toList.length = 36 :=
  length_hyphenate (Hex.length_digits _ _)

/-- The reader takes out the hyphens that were put in. -/
theorem ofHyphenated?_hyphenate {ds : List Char} (h : ds.length = 32) :
    ofHyphenated? (hyphenate ds) = ofDigits? ds := by
  obtain ⟨a, t, rfl, ha⟩ : ∃ a t, ds = a ++ t ∧ a.length = 8 :=
    ⟨ds.take 8, ds.drop 8, by simp, by simp [h]⟩
  obtain ⟨b, t, rfl, hb⟩ : ∃ b u, t = b ++ u ∧ b.length = 4 :=
    ⟨t.take 4, t.drop 4, by simp, by simp at h ⊢; omega⟩
  obtain ⟨c, t, rfl, hc⟩ : ∃ c u, t = c ++ u ∧ c.length = 4 :=
    ⟨t.take 4, t.drop 4, by simp, by simp at h ⊢; omega⟩
  obtain ⟨d, t, rfl, hd⟩ : ∃ d u, t = d ++ u ∧ d.length = 4 :=
    ⟨t.take 4, t.drop 4, by simp, by simp at h ⊢; omega⟩
  have split : hyphenate (a ++ (b ++ (c ++ (d ++ t)))) =
      a ++ '-' :: (b ++ '-' :: (c ++ '-' :: (d ++ '-' :: t))) := by
    simp [hyphenate, List.drop_append, ha, hb, hc, hd, List.drop_of_length_le]
  rw [split, ofHyphenated?]
  simp [List.getElem?_append, List.drop_append, ha, hb, hc, hd, List.drop_of_length_le]

theorem ofNat?_val (id : Uuid) : ofNat? id.val = some id := by
  obtain ⟨n, h⟩ := id
  rw [ofNat?, dif_pos h]

/-- The number is read back from its 32 digits. -/
theorem ofDigits?_digits (id : Uuid) : ofDigits? (Hex.digits 32 id.val) = some id := by
  have h : id.val < 16 ^ (32 : Nat) := by
    have := id.isLt
    omega
  rw [ofDigits?, if_pos (Hex.length_digits 32 id.val), Hex.read?_digits h, Option.bind_eq_bind,
    Option.bind_some, ofNat?_val]

theorem ofList?_toList (id : Uuid) : ofList? id.toList = some id := by
  rw [ofList?, if_neg (by simp), if_pos (by simp)]
  exact (ofHyphenated?_hyphenate (Hex.length_digits 32 id.val)).trans (ofDigits?_digits id)

/-- An identifier is read back from its text, -/
@[simp] theorem ofText?_toText (id : Uuid) : ofText? id.toText = some id := by
  simp [ofText?, toText, ofList?_toList]

/-- so different identifiers have different texts. -/
theorem toText_inj {a b : Uuid} : a.toText = b.toText ↔ a = b := by
  refine ⟨fun h => ?_, congrArg _⟩
  have := congrArg ofText? h
  simpa using this

end Uuid

end Outline
