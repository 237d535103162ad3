/-!
# Non-negative rationals

Exact values on the way between decimal text and binary numbers. A fraction is kept as it arises,
so equal rationals may have different fractions, and is compared by cross-multiplication.

Main results:

* `round_near` — rounding moves a rational by at most one half;
* `round_even` — a rational halfway between two naturals goes to the even one.
-/

namespace Outline.Decimal

-- powers are the built-in ones, whatever else is imported
attribute [local instance (2000)] instPowNat

/-- A non-negative rational; the fraction need not be reduced. -/
structure Ratio where
  num : Nat
  den : Nat
  den_pos : 0 < den

namespace Ratio

/-- `n * 2 ^ q`. -/
def scaled (n : Nat) (q : Int) : Ratio :=
  if 0 ≤ q then ⟨n * 2 ^ q.toNat, 1, Nat.one_pos⟩
  else ⟨n, 2 ^ (-q).toNat, Nat.two_pow_pos _⟩

/-- `n * 10 ^ k`. -/
def decimal (n : Nat) (k : Int) : Ratio :=
  if 0 ≤ k then ⟨n * 10 ^ k.toNat, 1, Nat.one_pos⟩
  else ⟨n, 10 ^ (-k).toNat, Nat.pow_pos (by decide)⟩

def le (a b : Ratio) : Bool :=
  a.num * b.den ≤ b.num * a.den

def lt (a b : Ratio) : Bool :=
  a.num * b.den < b.num * a.den

/-- The integral part of `a / 10 ^ k`. -/
def floorAt (a : Ratio) (k : Int) : Nat :=
  if 0 ≤ k then a.num / (a.den * 10 ^ k.toNat) else a.num * 10 ^ (-k).toNat / a.den

/-- How many zeros follow the point in a fraction below one, counting from `zeros`. -/
def leadingZeros (a : Ratio) : Nat → Nat → Nat
  | 0, zeros => zeros
  | fuel + 1, zeros =>
    if a.den ≤ a.num * 10 ^ (zeros + 1) then zeros else leadingZeros a fuel (zeros + 1)

/-- The `p` with `10 ^ (p - 1) ≤ a < 10 ^ p`, for a positive binary64 number `a`. -/
def magnitude (a : Ratio) : Int :=
  if a.den ≤ a.num then (Nat.toDigits 10 (a.num / a.den)).length else -(leadingZeros a 400 0)

/-! ## Rounding -/

/-- The nearest natural, and the even one of two equally near. -/
def round (a : Ratio) : Nat :=
  let n := a.num / a.den
  let twice := 2 * (a.num % a.den)
  if twice < a.den then n else if a.den < twice then n + 1 else n + n % 2

theorem round_near (a : Ratio) :
    2 * (a.round * a.den) ≤ 2 * a.num + a.den ∧ 2 * a.num ≤ 2 * (a.round * a.den) + a.den := by
  have hdiv : a.num / a.den * a.den + a.num % a.den = a.num := by
    rw [Nat.mul_comm]
    exact Nat.div_add_mod a.num a.den
  have hlt : a.num % a.den < a.den := Nat.mod_lt _ a.den_pos
  unfold round
  dsimp only
  split
  · omega
  · split
    · rw [Nat.add_mul]
      omega
    · -- halfway: `n` itself when it is even, else `n + 1`
      rcases Nat.mod_two_eq_zero_or_one (a.num / a.den) with h0 | h1
      · rw [h0, Nat.add_zero]
        omega
      · rw [h1, Nat.add_mul]
        omega

theorem round_even {a : Ratio} (h : 2 * (a.num % a.den) = a.den) : a.round % 2 = 0 := by
  unfold round
  rw [h, if_neg (Nat.lt_irrefl _), if_neg (Nat.lt_irrefl _)]
  omega

end Ratio

end Outline.Decimal
