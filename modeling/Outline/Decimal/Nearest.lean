import Outline.Decimal.Ratio

/-!
# The binary number nearest to a decimal

A decimal `d * 10 ^ e` stands for the binary64 number nearest to it, and halfway between two of
them for the one whose last bit is zero. In ascending order the finite numbers without a sign have
the bits 0, 1, 2, …, so a number rounded up past a power of two just has the next bits. A decimal
that would be rounded past the largest finite number stands for none.

Main definitions:

* `Ratio.nearest?` — the bits of the number nearest to a rational;
* `nearest?` — the same for a decimal, however large its exponent.
-/

namespace Outline.Decimal

-- powers are the built-in ones, whatever else is imported
attribute [local instance (2000)] instPowNat

namespace Ratio

/-- The `p` with `2 ^ p ≤ a < 2 ^ (p + 1)`, for a positive `a`. -/
def binade (a : Ratio) : Int :=
  let p : Int := a.num.log2 - a.den.log2
  if a.lt (.scaled 1 p) then p - 1 else p

/-- `a / 2 ^ q`. -/
def unscale (a : Ratio) (q : Int) : Ratio :=
  if 0 ≤ q then ⟨a.num, a.den * 2 ^ q.toNat, Nat.mul_pos a.den_pos (Nat.two_pow_pos _)⟩
  else ⟨a.num * 2 ^ (-q).toNat, a.den, a.den_pos⟩

/-- The bits of the number nearest to a positive rational; `none` beyond the largest number. -/
def nearest? (a : Ratio) : Option Nat :=
  -- numbers around `a` are `2 ^ q` apart: 53 significant bits, but no finer than the smallest
  let q := max (a.binade - 52) (-1074)
  -- the leading bit of a full significand counts for one step of the exponent
  let bits := (q + 1074).toNat * 2 ^ (52 : Nat) + (a.unscale q).round
  if bits < 2047 * 2 ^ (52 : Nat) then some bits else none

end Ratio

/-- The bits of the number nearest to `d * 10 ^ e`; `none` beyond the largest number. -/
def nearest? (d : Nat) (e : Int) : Option Nat :=
  let p := (Nat.toDigits 10 d).length + e
  -- from `10 ^ 309` on nothing is finite, and below `10 ^ -324` all is nearest to zero
  if d = 0 ∨ p ≤ -324 then some 0
  else if 310 ≤ p then none
  else (Ratio.decimal d e).nearest?

end Outline.Decimal
