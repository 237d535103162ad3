import Outline.Json.Meaning
import Outline.SortKey

/-!
# Records in JSON text

A record with declared fields is written as an object with its fields in the declared order. It is
read from an object in which the declared fields stand in any order, each at most once, among
others that are passed over, or from an array that gives the fields in the declared order.

A field is *required*, *optional* or *defaulted*. An optional field may be missing from an object
or null; a defaulted field may also be missing at the end of an array.
-/

namespace Outline.Json

-- powers are the built-in ones, whatever else is imported
attribute [local instance (2000)] instPowNat

/-- Reads a form in which some more levels of arrays and objects are allowed. -/
abbrev Reader (α : Type) := Nat → Form → Option α

/-! ## Reading single values -/

namespace Reader

def value : Reader Json := Form.value?

def text : Reader String
  | _, .str pieces => decodeText? pieces
  | _, _ => none

def bool : Reader Bool
  | _, .bool b => some b
  | _, _ => none

/-- An integer between `low` and `high`. -/
def int (low high : Int) : Reader Int
  | _, .numeral n =>
    match n.value? with
    | some (.int i) => if low ≤ i ∧ i ≤ high then some i else none
    | _ => none
  | _, _ => none

/-- A natural number below `bound`. -/
def nat (bound : Nat) : Reader Nat
  | depth, form => (int 0 (bound - 1) depth form).map Int.toNat

def sortKey : Reader SortKey
  | depth, form => int (-2 ^ (63 : Nat)) (2 ^ (63 : Nat) - 1) depth form >>= SortKey.ofInt?

/-- A string with a meaning of its own. -/
def ofText {α : Type} (parse : String → Option α) : Reader α
  | depth, form => text depth form >>= parse

/-- One of a few names, as a string or as an object that gives null to it. -/
def choice {α : Type} (parse : String → Option α) : Reader α
  | _, .str pieces => decodeText? pieces >>= parse
  | _ + 1, .obj [(pieces, .null)] => decodeText? pieces >>= parse
  | _, _ => none

/-- Null, or a value. -/
def nullable {α : Type} (reader : Reader α) : Reader (Option α)
  | _, .null => some none
  | depth, form => (reader depth form).map some

/-- An array of values. -/
def list {α : Type} (reader : Reader α) : Reader (List α)
  | depth + 1, .arr items => items.mapM (reader depth)
  | _, _ => none

end Reader

/-! ## Reading records -/

/-- The forms given for the fields of a record, and the levels of nesting left for each. -/
structure Fields where
  /-- Given by an object and not by an array. -/
  named : Bool
  given : List (String × Form)
  depth : Nat

namespace Fields

/-- Keep the members whose key is declared; a declared key may occur once only. -/
def select? (declared : List String) : List (List Piece × Form) → Option (List (String × Form))
  | [] => some []
  | (pieces, form) :: rest => do
    let key ← decodeText? pieces
    let selected ← select? declared rest
    if key ∉ declared then some selected
    else if (selected.lookup key).isSome then none
    else some ((key, form) :: selected)

/-- The fields that a form gives to a record with the declared ones. -/
def ofForm? (declared : List String) : Nat → Form → Option Fields
  | depth + 1, .obj members => (select? declared members).map (⟨true, ·, depth⟩)
  | depth + 1, .arr items =>
    if items.length ≤ declared.length then some ⟨false, declared.zip items, depth⟩ else none
  | _, _ => none

variable {α : Type} (fields : Fields) (name : String) (reader : Reader α)

def required : Option α :=
  match fields.given.lookup name with
  | some form => reader fields.depth form
  | none => none

def defaulted (default : α) : Option α :=
  match fields.given.lookup name with
  | some form => reader fields.depth form
  | none => some default

def optional : Option (Option α) :=
  match fields.given.lookup name with
  | some form => reader.nullable fields.depth form
  | none => if fields.named then some none else none

/-- An optional field that may also be missing from an array. -/
def defaultedOptional : Option (Option α) :=
  fields.defaulted name reader.nullable none

end Fields

/-- Read a whole text as one value. -/
def Reader.ofWhole? {α : Type} (reader : Reader α) (s : String) : Option α := do
  reader maxDepth (← readText? s)

/-! ## Writing records -/

/-- A field with its written value. -/
abbrev Written := String × List Char

def writeFields : List Written → List Char
  | [] => ['\x7d']
  | (name, value) :: rest =>
    ',' :: (writeString name ++ ':' :: (value ++ writeFields rest))

/-- An object with the fields in the given order. -/
def writeRecord : List Written → List Char
  | [] => ['\x7b', '\x7d']
  | (name, value) :: rest =>
    '\x7b' :: (writeString name ++ ':' :: (value ++ writeFields rest))

/-- Null for none. -/
def writeOption {α : Type} (writer : α → List Char) : Option α → List Char
  | none => ['n', 'u', 'l', 'l']
  | some a => writer a

end Outline.Json
