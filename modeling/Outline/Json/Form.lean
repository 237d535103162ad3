import Outline.Json.Numeral

/-!
# The grammar of JSON text

Reading a text has two stages. The first only follows the grammar: it leaves numerals in their
parts and `\u` escapes unpaired, and keeps the members of an object as they stand, repeated keys
included. Its result is a `Form`. The second stage gives forms a meaning, as a value or as a
record, and a form that nothing asks for needs none.

Main definitions:

* `read?` — the form of a whole text;
* `decode?` — the characters of a string, when its escapes pair up.
-/

namespace Outline.Json

/-- A piece of a string: a character, or a `\u` escape that may be half of one. -/
inductive Piece where
  | char (c : Char)
  | unit (u : Nat)
  deriving DecidableEq

inductive Form where
  | null
  | bool (b : Bool)
  | numeral (n : Numeral)
  | str (pieces : List Piece)
  | arr (items : List Form)
  | obj (members : List (List Piece × Form))

instance : Inhabited Form := ⟨.null⟩

/-! ## Strings -/

/-- The characters of a string. Halves of a surrogate pair have to stand together. -/
def decode? : List Piece → Option (List Char)
  | [] => some []
  | .char c :: rest => (decode? rest).map (c :: ·)
  | .unit u :: .unit v :: rest =>
    if 0xD800 ≤ u ∧ u < 0xDC00 then
      if 0xDC00 ≤ v ∧ v < 0xE000 then
        (decode? rest).map (Char.ofNat (0x10000 + (u - 0xD800) * 0x400 + (v - 0xDC00)) :: ·)
      else none
    else if 0xDC00 ≤ u ∧ u < 0xE000 then none
    else (decode? (.unit v :: rest)).map (Char.ofNat u :: ·)
  | .unit u :: rest =>
    if 0xD800 ≤ u ∧ u < 0xE000 then none else (decode? rest).map (Char.ofNat u :: ·)

def decodeText? (pieces : List Piece) : Option String :=
  (decode? pieces).map String.ofList

/-- The character that a one-letter escape stands for. -/
def unescape? (c : Char) : Option Char :=
  if c = '"' then some '"'
  else if c = '\\' then some '\\'
  else if c = '/' then some '/'
  else if c = 'b' then some '\x08'
  else if c = 'f' then some '\x0c'
  else if c = 'n' then some '\n'
  else if c = 'r' then some '\r'
  else if c = 't' then some '\t'
  else none

/-- The rest of a string after its opening quote. -/
def readString? : List Char → Option (List Piece × List Char)
  | [] => none
  | '"' :: rest => some ([], rest)
  | '\\' :: 'u' :: a :: b :: c :: d :: rest => do
    let u ← Hex.read? [a, b, c, d]
    let (pieces, rest) ← readString? rest
    return (.unit u :: pieces, rest)
  | '\\' :: c :: rest => do
    let e ← unescape? c
    let (pieces, rest) ← readString? rest
    return (.char e :: pieces, rest)
  | c :: rest =>
    if c.toNat < 32 then none
    else do
      let (pieces, rest) ← readString? rest
      return (.char c :: pieces, rest)

/-! ## Values -/

/-- The white space of the grammar. -/
def isSpace (c : Char) : Bool :=
  c = ' ' || c = '\n' || c = '\t' || c = '\r'

def skipSpace (cs : List Char) : List Char :=
  cs.dropWhile isSpace

mutual

/-- The value at the head of `cs`. Each step into a value, an item or a member uses up fuel. -/
def readValue? (fuel : Nat) (cs : List Char) : Option (Form × List Char) :=
  match fuel with
  | 0 => none
  | fuel + 1 =>
    match skipSpace cs with
    | 'n' :: 'u' :: 'l' :: 'l' :: rest => some (.null, rest)
    | 't' :: 'r' :: 'u' :: 'e' :: rest => some (.bool true, rest)
    | 'f' :: 'a' :: 'l' :: 's' :: 'e' :: rest => some (.bool false, rest)
    | '"' :: rest => (readString? rest).map fun (pieces, rest) => (.str pieces, rest)
    | '[' :: rest =>
      match skipSpace rest with
      | ']' :: rest => some (.arr [], rest)
      | rest => (readItems? fuel rest).map fun (items, rest) => (.arr items, rest)
    | '\x7b' :: rest =>
      match skipSpace rest with
      | '\x7d' :: rest => some (.obj [], rest)
      | rest => (readMembers? fuel rest).map fun (members, rest) => (.obj members, rest)
    | cs => (Numeral.read? cs).map fun (n, rest) => (.numeral n, rest)

/-- The items of an array from the head of `cs` on, at least one, and the closing bracket. -/
def readItems? (fuel : Nat) (cs : List Char) : Option (List Form × List Char) :=
  match fuel with
  | 0 => none
  | fuel + 1 => do
    let (item, rest) ← readValue? fuel cs
    match skipSpace rest with
    | ']' :: rest => return ([item], rest)
    | ',' :: rest =>
      let (items, rest) ← readItems? fuel rest
      return (item :: items, rest)
    | _ => none

/-- The members of an object from the head of `cs` on, at least one, and the closing brace. -/
def readMembers? (fuel : Nat) (cs : List Char) :
    Option (List (List Piece × Form) × List Char) :=
  match fuel with
  | 0 => none
  | fuel + 1 =>
    match skipSpace cs with
    | '"' :: rest => do
      let (key, rest) ← readString? rest
      match skipSpace rest with
      | ':' :: rest =>
        let (value, rest) ← readValue? fuel rest
        match skipSpace rest with
        | '\x7d' :: rest => return ([(key, value)], rest)
        | ',' :: rest =>
          let (members, rest) ← readMembers? fuel rest
          return ((key, value) :: members, rest)
        | _ => none
      | _ => none
    | _ => none

end

/-- The form of a text that holds one value and white space around it. -/
def read? (cs : List Char) : Option Form := do
  let (form, rest) ← readValue? (cs.length + 1) cs
  if skipSpace rest = [] then some form else none

def readText? (s : String) : Option Form :=
  read? s.toList

end Outline.Json
