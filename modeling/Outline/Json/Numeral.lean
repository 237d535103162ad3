import Outline.Decimal.Nearest
import Outline.Json.Value

/-!
# Numerals in JSON text

A numeral is read into its parts first and given a value afterwards. Without a fraction and an
exponent it stands for an integer if that lies between `-2 ^ 63` and `2 ^ 64 - 1`. Everything else,
minus zero included, stands for the nearest binary64 number. A number too large for binary64 has no
value.

A reader can also be built to settle for a neighbour of the nearest number where a numeral has many
digits. That one is left out: what is said of texts with numbers that are no integers is said of the
reader that rounds correctly.
-/

namespace Outline

-- powers are the built-in ones, whatever else is imported
attribute [local instance (2000)] instPowNat

/-- The parts of a numeral, as the grammar cuts them. -/
structure Numeral where
  negative : Bool
  whole : List Char
  /-- The digits after the point, at least one where there is a point. -/
  fraction : Option (List Char)
  /-- The sign and the digits of the exponent; `true` for a minus. -/
  exponent : Option (Bool × List Char)
  deriving DecidableEq

namespace Numeral

def isDigit (c : Char) : Bool :=
  '0' ≤ c && c ≤ '9'

/-- Drop a sign where one stands. -/
def readExponentSign : List Char → Bool × List Char
  | '-' :: rest => (true, rest)
  | '+' :: rest => (false, rest)
  | rest => (false, rest)

/-- The exponent at the head of `cs`; `none` when an `e` is not followed by digits. -/
def readExponent? (cs : List Char) : Option (Option (Bool × List Char) × List Char) :=
  match cs with
  | c :: rest =>
    if c = 'e' ∨ c = 'E' then
      let (negative, rest) := readExponentSign rest
      match rest.takeWhile isDigit with
      | [] => none
      | ds => some (some (negative, ds), rest.dropWhile isDigit)
    else some (none, cs)
  | [] => some (none, [])

/-- The fraction at the head of `cs`; `none` when a point is not followed by digits. -/
def readFraction? (cs : List Char) : Option (Option (List Char) × List Char) :=
  match cs with
  | '.' :: rest =>
    match rest.takeWhile isDigit with
    | [] => none
    | ds => some (some ds, rest.dropWhile isDigit)
  | cs => some (none, cs)

/-- The digits before the point: a zero alone, or digits that begin with another one. -/
def readWhole? (cs : List Char) : Option (List Char × List Char) :=
  match cs.takeWhile isDigit with
  | [] => none
  | '0' :: _ :: _ => none
  | ds => some (ds, cs.dropWhile isDigit)

/-- The numeral at the head of `cs`, without its sign. -/
def readUnsigned? (negative : Bool) (cs : List Char) : Option (Numeral × List Char) := do
  let (whole, rest) ← readWhole? cs
  let (fraction, rest) ← readFraction? rest
  let (exponent, rest) ← readExponent? rest
  return (⟨negative, whole, fraction, exponent⟩, rest)

def read? : List Char → Option (Numeral × List Char)
  | '-' :: rest => readUnsigned? true rest
  | cs => readUnsigned? false cs

/-! ## Value -/

def digits (ds : List Char) : Nat :=
  Nat.ofDigitChars 10 ds 0

/-- The binary64 number nearest to `d * 10 ^ e`, with a sign. -/
def float? (negative : Bool) (d : Nat) (e : Int) : Option Json :=
  (Decimal.nearest? d e).map fun bits =>
    .float (.ofNat (if negative then bits + 2 ^ (63 : Nat) else bits))

/-- An integer in range, else the binary64 number nearest to it. -/
def whole? (negative : Bool) (n : Nat) : Option Json :=
  if negative = false ∧ n < 2 ^ (64 : Nat) then some (.int n)
  else if negative = true ∧ n ≠ 0 ∧ n ≤ 2 ^ (63 : Nat) then some (.int (-n))
  else float? negative n 0

/-- The power of ten that an exponent stands for. -/
def power : Option (Bool × List Char) → Int
  | none => 0
  | some (minus, ds) => if minus then -digits ds else digits ds

def value? (numeral : Numeral) : Option Json :=
  match numeral.fraction, numeral.exponent with
  | none, none => whole? numeral.negative (digits numeral.whole)
  | fraction, exponent =>
    let fraction := fraction.getD []
    float? numeral.negative (digits (numeral.whole ++ fraction)) (power exponent - fraction.length)

end Numeral

end Outline
