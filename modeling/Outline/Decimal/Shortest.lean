import Outline.Decimal.Ratio

/-!
# Shortest decimal digits of a binary fraction

A finite binary64 number is `m * 2 ^ q` for a natural `m` and an integer `q`. All reals nearer to
it than to its neighbours read back as the same number, and the shortest decimal in that interval
is the one to write. On the grid of `n`-digit decimals at most the two points next to the number
can be the nearest ones, so the grids for 1, 2, … 17 digits are tried in turn. Of two points in
the interval the nearer one is taken, and of two equally near ones that with the even last digit.
All arithmetic is on naturals and exact.
-/

namespace Outline.Decimal

-- powers are the built-in ones, whatever else is imported
attribute [local instance (2000)] instPowNat

/-- The reals that read back as one binary number: its bounds and whether they belong to it. -/
structure Interval where
  low : Ratio
  high : Ratio
  closed : Bool

namespace Interval

def contains (i : Interval) (a : Ratio) : Bool :=
  if i.closed then i.low.le a && a.le i.high else i.low.lt a && a.lt i.high

end Interval

/-- A positive binary64 number `m * 2 ^ q`; `narrow` when the number below is half as far away as
the number above. -/
structure Binary where
  m : Nat
  q : Int
  narrow : Bool

namespace Binary

def value (b : Binary) : Ratio :=
  .scaled b.m b.q

def interval (b : Binary) : Interval where
  low := .scaled (4 * b.m - if b.narrow then 1 else 2) (b.q - 2)
  high := .scaled (4 * b.m + 2) (b.q - 2)
  closed := decide (b.m % 2 = 0)

/-- The magnitude of the finite number with these bits, sign apart. -/
def ofBits (bits : UInt64) : Binary :=
  let fraction : Nat := bits.toNat % 2 ^ (52 : Nat)
  let exponent : Nat := bits.toNat / 2 ^ (52 : Nat) % 2 ^ (11 : Nat)
  if exponent = 0 then ⟨fraction, -1074, false⟩
  else ⟨fraction + 2 ^ (52 : Nat), (exponent : Int) - 1075, fraction = 0 ∧ 1 < exponent⟩

/-- Of two neighbouring grid points `n` and `n + 1` at `10 ^ k` the one to write, if any. -/
def pick? (b : Binary) (k : Int) : Option Nat :=
  let n := b.value.floorAt k
  let i := b.interval
  match i.contains (.decimal n k), i.contains (.decimal (n + 1) k) with
  | false, false => none
  | true, false => some n
  | false, true => some (n + 1)
  | true, true =>
    -- both read back: the nearer one, and halfway the even one
    let middle := Ratio.decimal (10 * n + 5) (k - 1)
    if b.value.lt middle then some n
    else if middle.lt b.value then some (n + 1)
    else some (if n % 2 = 0 then n else n + 1)

/-- Try the grids of `n`, `n + 1`, … digits. -/
def shortestFrom (b : Binary) (p : Int) : Nat → Nat → Nat × Int
  | 0, n => (b.value.floorAt (p - n), p - n)
  | fuel + 1, n =>
    match b.pick? (p - n) with
    | some d => (d, p - n)
    | none => shortestFrom b p fuel (n + 1)

/-- A decimal `d * 10 ^ k` with the fewest digits that reads back as the number. -/
def shortest (b : Binary) : Nat × Int :=
  b.shortestFrom b.value.magnitude 17 1

end Binary

/-- Significant digits without trailing zeros, and the power of ten of the first of them. -/
structure Digits where
  digits : List Char
  exponent : Int

namespace Digits

def ofBits (bits : UInt64) : Digits :=
  let (d, k) := (Binary.ofBits bits).shortest
  let all := Nat.toDigits 10 d
  ⟨(all.reverse.dropWhile (· = '0')).reverse, all.length - 1 + k⟩

end Digits

/-- How a decimal is laid out: powers of ten from `low` up to below `high` are written with a plain
point, all others with one digit before the point and an exponent. -/
structure Layout where
  low : Int
  high : Int

namespace Layout

/-- Digits with a point after the first `n` of them, filled up with zeros on either side. -/
def plain (ds : List Char) (exponent : Int) : List Char :=
  if exponent < 0 then
    "0.".toList ++ List.replicate (-exponent - 1).toNat '0' ++ ds
  else
    let n := exponent.toNat + 1
    let whole := ds.take n ++ List.replicate (n - ds.length) '0'
    let rest := ds.drop n
    whole ++ '.' :: (if rest.isEmpty then ['0'] else rest)

def scientific (ds : List Char) (exponent : Int) : List Char :=
  let point := match ds.drop 1 with
    | [] => []
    | rest => '.' :: rest
  let sign := if exponent < 0 then '-' else '+'
  ds.take 1 ++ point ++ 'e' :: sign :: Nat.toDigits 10 exponent.natAbs

/-- The finite number with these bits. Zero keeps its sign. -/
def write (layout : Layout) (bits : UInt64) : List Char :=
  let magnitude :=
    if bits.toNat % 2 ^ (63 : Nat) = 0 then "0.0".toList
    else
      let d := Digits.ofBits bits
      if layout.low ≤ d.exponent ∧ d.exponent < layout.high then plain d.digits d.exponent
      else scientific d.digits d.exponent
  if bits.toNat < 2 ^ (63 : Nat) then magnitude else '-' :: magnitude

end Layout

end Outline.Decimal
