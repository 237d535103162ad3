import Outline.Decimal.Shortest
import Outline.Text.Hex

/-!
# JSON values and their compact text

A node's properties are a JSON value. Integers are exact, other numbers are binary64. An object is
a list of members in ascending order of their keys, each key once; `Json.insertMember` keeps that
order. The compact text has no white space, escapes only quotes, backslashes and control
characters, and writes a fraction with the fewest digits that identify it.

Main results:

* `insertMember_sorted` — inserting keeps the keys strictly ascending.
-/

namespace Outline

inductive Json where
  | null
  | bool (b : Bool)
  | int (n : Int)
  /-- A finite binary64 number, by its bits. -/
  | float (bits : UInt64)
  | str (s : String)
  | arr (items : List Json)
  | obj (members : List (String × Json))

namespace Json

instance : Inhabited Json := ⟨.null⟩

def emptyObject : Json := .obj []

def isObject : Json → Bool
  | .obj _ => true
  | _ => false

/-- Set the member `key`, keeping the keys in ascending order. -/
def insertMember (key : String) (v : Json) : List (String × Json) → List (String × Json)
  | [] => [(key, v)]
  | (k, w) :: rest =>
    match compare key k with
    | .lt => (key, v) :: (k, w) :: rest
    | .eq => (key, v) :: rest
    | .gt => (k, w) :: insertMember key v rest

/-- An object with the members given in any order. -/
def mkObject (members : List (String × Json)) : Json :=
  .obj (members.foldl (fun acc m => insertMember m.1 m.2 acc) [])

/-! ## Compact text -/

/-- The escape of a character inside a string, or the character itself. -/
def escape (c : Char) : List Char :=
  if c = '"' then ['\\', '"']
  else if c = '\\' then ['\\', '\\']
  else if c = '\x08' then ['\\', 'b']
  else if c = '\x0c' then ['\\', 'f']
  else if c = '\n' then ['\\', 'n']
  else if c = '\r' then ['\\', 'r']
  else if c = '\t' then ['\\', 't']
  else if c.toNat < 32 then '\\' :: 'u' :: Hex.digits 4 c.toNat
  else [c]

def writeString (s : String) : List Char :=
  '"' :: (s.toList.flatMap escape ++ ['"'])

def writeInt (n : Int) : List Char :=
  if n < 0 then '-' :: Nat.toDigits 10 n.natAbs else Nat.toDigits 10 n.natAbs

/-- Fractions from 1e-5 up to below 1e16 are written without an exponent. -/
def fractionLayout : Decimal.Layout := ⟨-5, 16⟩

mutual

def write : Json → List Char
  | .null => ['n', 'u', 'l', 'l']
  | .bool true => ['t', 'r', 'u', 'e']
  | .bool false => ['f', 'a', 'l', 's', 'e']
  | .int n => writeInt n
  | .float bits => fractionLayout.write bits
  | .str s => writeString s
  | .arr items => '[' :: writeItems items
  | .obj members => '\x7b' :: writeMembers members

/-- The items of an array, and the bracket that closes it. -/
def writeItems : List Json → List Char
  | [] => [']']
  | v :: rest => v.write ++ writeMoreItems rest

def writeMoreItems : List Json → List Char
  | [] => [']']
  | v :: rest => ',' :: (v.write ++ writeMoreItems rest)

/-- The members of an object, and the brace that closes it. -/
def writeMembers : List (String × Json) → List Char
  | [] => ['\x7d']
  | (k, v) :: rest => writeString k ++ ':' :: (v.write ++ writeMoreMembers rest)

def writeMoreMembers : List (String × Json) → List Char
  | [] => ['\x7d']
  | (k, v) :: rest => ',' :: (writeString k ++ ':' :: (v.write ++ writeMoreMembers rest))

end

def text (v : Json) : String :=
  String.ofList v.write

/-! ## Members of an object -/

/-- The keys ascend strictly. -/
def KeysAscend (members : List (String × Json)) : Prop :=
  members.Pairwise (fun a b => compare a.1 b.1 = .lt)

theorem fst_mem_insertMember {key : String} {v : Json} {members : List (String × Json)}
    {m : String × Json} (h : m ∈ insertMember key v members) : m.1 = key ∨ m ∈ members := by
  induction members with
  | nil => simp_all [insertMember]
  | cons a rest ih =>
    unfold insertMember at h
    split at h <;> simp at h <;> grind

theorem insertMember_sorted (key : String) (v : Json) {members : List (String × Json)}
    (h : KeysAscend members) : KeysAscend (insertMember key v members) := by
  induction members with
  | nil => simp [insertMember, KeysAscend]
  | cons a rest ih =>
    obtain ⟨ha, hrest⟩ := List.pairwise_cons.1 h
    unfold insertMember
    split
    · next hlt =>
      refine List.pairwise_cons.2 ⟨fun m hm => ?_, h⟩
      rcases List.mem_cons.1 hm with rfl | hm
      · exact hlt
      · exact Std.TransCmp.lt_trans hlt (ha m hm)
    · next heq =>
      obtain rfl := Std.LawfulEqCmp.eq_of_compare heq
      exact List.pairwise_cons.2 ⟨ha, hrest⟩
    · next hgt =>
      refine List.pairwise_cons.2 ⟨fun m hm => ?_, ih hrest⟩
      rcases fst_mem_insertMember hm with hkey | hm
      · exact hkey ▸ Std.OrientedCmp.lt_of_gt hgt
      · exact ha m hm

end Json

end Outline
