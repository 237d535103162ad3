import Mathlib.Algebra.Order.Archimedean.Basic
import Mathlib.Algebra.Order.Field.Power
import Mathlib.Data.Nat.Cast.Order.Field
import Mathlib.Data.Nat.Log
import Mathlib.Tactic.FieldSimp
import Mathlib.Tactic.Linarith
import Mathlib.Tactic.Positivity
import Mathlib.Tactic.Ring
import Outline.Decimal.Nearest
import Outline.Decimal.Shortest

/-!
# Fractions as rational numbers

A fraction is computed with as two naturals, and reasoned about as the rational number that it
stands for. What each operation on fractions does is said here once of rational numbers.

Main results:

* `Ratio.floorAt_le`, `Ratio.lt_floorAt` — the points of a decimal grid around a number;
* `Ratio.round_eq` — rounding finds the nearest natural;
* `Ratio.binade_eq` — the power of two below a number;
* `Ratio.magnitude_le` — the power of ten below a number.
-/

namespace Outline.Decimal

namespace Ratio

/-- The rational number that a fraction stands for. -/
def toRat (a : Ratio) : ℚ := a.num / a.den

theorem cast_den_pos (a : Ratio) : (0 : ℚ) < a.den := by
  exact_mod_cast a.den_pos

/-! ## Scales -/

theorem zpow_of_nonneg {b : ℚ} {q : ℤ} (hq : 0 ≤ q) : b ^ q = b ^ q.toNat := by
  rw [← zpow_natCast, Int.toNat_of_nonneg hq]

theorem zpow_of_neg {b : ℚ} {q : ℤ} (hq : ¬0 ≤ q) : b ^ q = (b ^ (-q).toNat)⁻¹ := by
  rw [← zpow_natCast, Int.toNat_of_nonneg (by omega), zpow_neg, inv_inv]

@[simp] theorem toRat_scaled (n : Nat) (q : Int) : (scaled n q).toRat = n * (2 : ℚ) ^ q := by
  unfold scaled
  split
  · next hq => simp [toRat, zpow_of_nonneg hq]
  · next hq => simp [toRat, zpow_of_neg hq, div_eq_mul_inv]

@[simp] theorem toRat_decimal (n : Nat) (k : Int) : (decimal n k).toRat = n * (10 : ℚ) ^ k := by
  unfold decimal
  split
  · next hk => simp [toRat, zpow_of_nonneg hk]
  · next hk => simp [toRat, zpow_of_neg hk, div_eq_mul_inv]

@[simp] theorem toRat_unscale (a : Ratio) (q : Int) :
    (a.unscale q).toRat = a.toRat / (2 : ℚ) ^ q := by
  unfold unscale
  split
  · next hq => simp [toRat, zpow_of_nonneg hq, div_div]
  · next hq => simp [toRat, zpow_of_neg hq, mul_div_right_comm]

/-! ## Comparisons -/

theorem le_iff {a b : Ratio} : a.le b = true ↔ a.toRat ≤ b.toRat := by
  unfold le toRat
  rw [decide_eq_true_eq, div_le_div_iff₀ a.cast_den_pos b.cast_den_pos]
  exact_mod_cast Iff.rfl

theorem lt_iff {a b : Ratio} : a.lt b = true ↔ a.toRat < b.toRat := by
  unfold lt toRat
  rw [decide_eq_true_eq, div_lt_div_iff₀ a.cast_den_pos b.cast_den_pos]
  exact_mod_cast Iff.rfl

/-! ## Grids -/

theorem lt_cast_div {n d : Nat} (hd : 0 < d) : (n : ℚ) / d < (n / d : Nat) + 1 := by
  have hd' : (0 : ℚ) < d := by exact_mod_cast hd
  rw [div_lt_iff₀ hd']
  exact_mod_cast Nat.lt_mul_of_div_lt (Nat.lt_succ_self (n / d)) hd

/-- The grid point at `10 ^ k` below a number, as a quotient of naturals. -/
theorem exists_floorAt (a : Ratio) (k : Int) :
    ∃ n d : Nat, 0 < d ∧ a.floorAt k = n / d ∧ (n : ℚ) / d = a.toRat / (10 : ℚ) ^ k := by
  unfold floorAt
  split
  · next hk =>
    refine ⟨a.num, a.den * 10 ^ k.toNat, Nat.mul_pos a.den_pos (by positivity), rfl, ?_⟩
    simp [toRat, zpow_of_nonneg hk, div_div]
  · next hk =>
    refine ⟨a.num * 10 ^ (-k).toNat, a.den, a.den_pos, rfl, ?_⟩
    simp [toRat, zpow_of_neg hk, mul_div_right_comm]

theorem floorAt_le (a : Ratio) (k : Int) : (a.floorAt k : ℚ) * (10 : ℚ) ^ k ≤ a.toRat := by
  obtain ⟨n, d, -, hfloor, hquotient⟩ := a.exists_floorAt k
  rw [← le_div_iff₀ (by positivity), ← hquotient, hfloor]
  exact Nat.cast_div_le

theorem lt_floorAt (a : Ratio) (k : Int) :
    a.toRat < ((a.floorAt k + 1 : Nat) : ℚ) * (10 : ℚ) ^ k := by
  obtain ⟨n, d, hd, hfloor, hquotient⟩ := a.exists_floorAt k
  rw [← div_lt_iff₀ (by positivity), ← hquotient, hfloor]
  exact_mod_cast lt_cast_div hd

/-! ## Rounding -/

/-- What lies halfway between two naturals is rounded to an even one. -/
theorem round_even_of_half {a : Ratio} {n : Nat} (h : a.toRat = n + 1 / 2) : a.round % 2 = 0 := by
  have hd := a.cast_den_pos
  have htwice : 2 * a.num = 2 * (n * a.den) + a.den := by
    unfold toRat at h
    rw [div_eq_iff hd.ne'] at h
    have : 2 * (a.num : ℚ) = 2 * (n * a.den) + a.den := by linarith
    exact_mod_cast this
  have hdiv : a.num / a.den = n :=
    Nat.div_eq_of_lt_le (by omega) (by rw [Nat.add_one_mul]; have := a.den_pos; omega)
  have hmod := Nat.div_add_mod' a.num a.den
  rw [hdiv] at hmod
  exact round_even (by omega)

/-- A natural at most one half away is what rounding finds; at exactly one half it has to be
even. -/
theorem round_eq {a : Ratio} {n : Nat} (hnear : |a.toRat - n| ≤ 1 / 2)
    (heven : |a.toRat - n| = 1 / 2 → n % 2 = 0) : a.round = n := by
  have hd := a.cast_den_pos
  obtain ⟨hbelow, habove⟩ : a.round ≤ a.toRat + 1 / 2 ∧ a.toRat ≤ a.round + 1 / 2 := by
    obtain ⟨hle, hge⟩ := a.round_near
    have hle' : 2 * ((a.round : ℚ) * a.den) ≤ 2 * a.num + a.den := by exact_mod_cast hle
    have hge' : 2 * (a.num : ℚ) ≤ 2 * (a.round * a.den) + a.den := by exact_mod_cast hge
    have hnum : a.toRat * a.den = a.num := div_mul_cancel₀ _ hd.ne'
    constructor
    · refine le_of_mul_le_mul_right ?_ hd
      linarith
    · refine le_of_mul_le_mul_right ?_ hd
      linarith
  obtain ⟨hlow, hhigh⟩ := abs_le.1 hnear
  -- otherwise the number lies halfway between the two naturals, and both are even
  by_contra hne
  rcases Nat.lt_or_gt_of_ne hne with hlt | hgt
  · have hstep : (a.round : ℚ) + 1 ≤ n := by exact_mod_cast hlt
    have hhalf : a.toRat = a.round + 1 / 2 := by linarith
    have hsucc : n = a.round + 1 := by
      have : (n : ℚ) = a.round + 1 := by linarith
      exact_mod_cast this
    have hround := round_even_of_half hhalf
    have hn := heven (by rw [hsucc, hhalf]; push_cast; rw [abs_of_neg] <;> linarith)
    omega
  · have hstep : (n : ℚ) + 1 ≤ a.round := by exact_mod_cast hgt
    have hhalf : a.toRat = n + 1 / 2 := by linarith
    have hsucc : a.round = n + 1 := by
      have : (a.round : ℚ) = n + 1 := by linarith
      exact_mod_cast this
    have hround := round_even_of_half hhalf
    have hn := heven (by rw [hhalf, add_sub_cancel_left, abs_of_pos]; norm_num)
    omega

/-! ## Powers of two and ten -/

/-- The powers of two around a positive natural number. -/
theorem cast_log2_bounds {n : Nat} (hn : n ≠ 0) :
    (2 : ℚ) ^ (n.log2 : ℤ) ≤ n ∧ (n : ℚ) < (2 : ℚ) ^ (n.log2 + 1 : ℤ) := by
  rw [zpow_add_one₀ two_ne_zero, zpow_natCast, ← pow_succ]
  exact ⟨by exact_mod_cast Nat.log2_self_le hn, by exact_mod_cast Nat.lt_log2_self⟩

/-- The binade of a number is the power of two with which the number begins. -/
theorem binade_eq {a : Ratio} {p : Int} (hlow : (2 : ℚ) ^ p ≤ a.toRat)
    (hhigh : a.toRat < (2 : ℚ) ^ (p + 1)) : a.binade = p := by
  have hd := a.cast_den_pos
  have hpos : 0 < a.toRat := lt_of_lt_of_le (by positivity) hlow
  have hnum : a.num ≠ 0 := by
    intro h
    rw [toRat, h, Nat.cast_zero, zero_div] at hpos
    exact lt_irrefl 0 hpos
  -- the fraction lies between the quotients of the powers around its two naturals
  have hn := cast_log2_bounds hnum
  have hm := cast_log2_bounds a.den_pos.ne'
  have hbelow : (2 : ℚ) ^ (a.num.log2 - a.den.log2 - 1 : ℤ) < a.toRat := by
    rw [toRat, lt_div_iff₀ hd, sub_sub, zpow_sub₀ two_ne_zero, div_mul_eq_mul_div,
      div_lt_iff₀ (by positivity)]
    exact mul_lt_mul' hn.1 hm.2 hd.le (by positivity)
  have habove : a.toRat < (2 : ℚ) ^ (a.num.log2 - a.den.log2 + 1 : ℤ) := by
    rw [toRat, div_lt_iff₀ hd, sub_add_eq_add_sub, zpow_sub₀ two_ne_zero, div_mul_eq_mul_div,
      lt_div_iff₀ (by positivity)]
    exact mul_lt_mul hn.2 hm.1 (by positivity) (by positivity)
  have h1 : (a.num.log2 - a.den.log2 - 1 : ℤ) < p + 1 :=
    (zpow_lt_zpow_iff_right₀ one_lt_two).1 (hbelow.trans hhigh)
  have h2 : p < (a.num.log2 - a.den.log2 + 1 : ℤ) :=
    (zpow_lt_zpow_iff_right₀ one_lt_two).1 (lt_of_le_of_lt hlow habove)
  unfold binade
  dsimp only
  split
  · next hlt =>
    rw [lt_iff, toRat_scaled, Nat.cast_one, one_mul] at hlt
    have := (zpow_lt_zpow_iff_right₀ one_lt_two).1 (lt_of_le_of_lt hlow hlt)
    omega
  · next hge =>
    rw [lt_iff, toRat_scaled, Nat.cast_one, one_mul, not_lt] at hge
    have := (zpow_lt_zpow_iff_right₀ one_lt_two).1 (lt_of_le_of_lt hge hhigh)
    omega

/-- The digits of a positive natural number give the power of ten below it. -/
theorem pow_length_le {n : Nat} (hn : 0 < n) : 10 ^ ((Nat.toDigits 10 n).length - 1) ≤ n := by
  by_contra hlt
  have hlen := Nat.length_toDigits_pos (b := 10) (n := n)
  rcases Nat.eq_zero_or_pos ((Nat.toDigits 10 n).length - 1) with h0 | hpos
  · rw [h0] at hlt
    omega
  · have := (Nat.length_toDigits_le_iff (by decide) hpos).2 (not_le.1 hlt)
    omega

/-- The count of zeros stops before a digit that is none, if there is one within reach. -/
theorem leadingZeros_spec (a : Ratio) (fuel zeros : Nat)
    (h : a.den ≤ a.num * 10 ^ (zeros + fuel + 1)) :
    a.den ≤ a.num * 10 ^ (a.leadingZeros fuel zeros + 1) := by
  induction fuel generalizing zeros with
  | zero => exact h
  | succ fuel ih =>
    unfold leadingZeros
    split
    · assumption
    · exact ih (zeros + 1) (by rwa [show zeros + 1 + fuel + 1 = zeros + (fuel + 1) + 1 by omega])

theorem leadingZeros_le {a : Ratio} {fuel : Nat} (h : 1 ≤ a.toRat * (10 : ℚ) ^ (fuel + 1)) :
    (10 : ℚ) ^ (-(a.leadingZeros fuel 0 : ℤ) - 1) ≤ a.toRat := by
  have hd := a.cast_den_pos
  have hreach : a.den ≤ a.num * 10 ^ (0 + fuel + 1) := by
    rw [toRat, div_mul_eq_mul_div, one_le_div hd] at h
    rw [Nat.zero_add]
    exact_mod_cast h
  have hzeros := a.leadingZeros_spec fuel 0 hreach
  rw [toRat, le_div_iff₀ hd, ← neg_add', zpow_neg, inv_mul_le_iff₀ (by positivity),
    ← Nat.cast_one, ← Nat.cast_add, zpow_natCast, mul_comm]
  exact_mod_cast hzeros

/-- The power of ten below a number that is not too small. -/
theorem magnitude_le {a : Ratio} (h : 1 ≤ a.toRat * (10 : ℚ) ^ (400 + 1)) :
    (10 : ℚ) ^ (a.magnitude - 1) ≤ a.toRat := by
  unfold magnitude
  split
  · next hge =>
    have hpos : 0 < a.num / a.den := Nat.div_pos hge a.den_pos
    have hlen := Nat.length_toDigits_pos (b := 10) (n := a.num / a.den)
    have hpow : (10 : ℚ) ^ ((Nat.toDigits 10 (a.num / a.den)).length - 1) ≤
        ((a.num / a.den : Nat) : ℚ) := by
      exact_mod_cast pow_length_le hpos
    rw [← Nat.cast_one, ← Nat.cast_sub hlen, zpow_natCast]
    exact hpow.trans Nat.cast_div_le
  · exact leadingZeros_le h

end Ratio

end Outline.Decimal
