import Outline.Proofs.Decimal.Ratio

/-!
# The shortest digits read back

A finite binary number is the nearest one to every rational in its interval. The shortest decimal is
chosen from that interval, and with 17 digits there is always one to choose. So the nearest binary
number to the shortest decimal is the number itself.

Main results:

* `Binary.Encoded.nearest?_eq` — an interval reads back;
* `Binary.Encoded.holds_shortest` — the shortest decimal lies in the interval.
-/

namespace Outline.Decimal

/-! ## Intervals -/

namespace Interval

/-- The rational numbers in an interval. -/
def Holds (i : Interval) (x : ℚ) : Prop :=
  if i.closed then i.low.toRat ≤ x ∧ x ≤ i.high.toRat else i.low.toRat < x ∧ x < i.high.toRat

theorem contains_iff {i : Interval} {a : Ratio} : i.contains a = true ↔ i.Holds a.toRat := by
  unfold contains Holds
  split
  · rw [Bool.and_eq_true, Ratio.le_iff, Ratio.le_iff]
  · rw [Bool.and_eq_true, Ratio.lt_iff, Ratio.lt_iff]

/-- What lies between the bounds is in the interval, whoever owns them. -/
theorem holds_of_between {i : Interval} {x : ℚ} (hlow : i.low.toRat < x)
    (hhigh : x < i.high.toRat) : i.Holds x := by
  unfold Holds
  split
  · exact ⟨hlow.le, hhigh.le⟩
  · exact ⟨hlow, hhigh⟩

end Interval

namespace Binary

/-- How far the interval reaches below the number, in units of its last bit. -/
def margin (b : Binary) : ℚ := if b.narrow then 1 / 4 else 1 / 2

theorem margin_le (b : Binary) : b.margin ≤ 1 / 2 := by
  unfold margin
  split <;> norm_num

theorem margin_pos (b : Binary) : 0 < b.margin := by
  unfold margin
  split <;> norm_num

theorem toRat_value (b : Binary) : b.value.toRat = b.m * (2 : ℚ) ^ b.q :=
  Ratio.toRat_scaled b.m b.q

theorem toRat_high (b : Binary) : b.interval.high.toRat = (b.m + 1 / 2) * (2 : ℚ) ^ b.q := by
  show (Ratio.scaled (4 * b.m + 2) (b.q - 2)).toRat = _
  rw [Ratio.toRat_scaled, zpow_sub₀ two_ne_zero]
  push_cast
  norm_num
  ring

theorem toRat_low {b : Binary} (hm : 0 < b.m) :
    b.interval.low.toRat = (b.m - b.margin) * (2 : ℚ) ^ b.q := by
  show (Ratio.scaled (4 * b.m - if b.narrow then 1 else 2) (b.q - 2)).toRat = _
  rw [Ratio.toRat_scaled, zpow_sub₀ two_ne_zero, margin]
  have hle : 2 ≤ 4 * b.m := by omega
  split
  · rw [Nat.cast_sub (by omega)]
    push_cast
    norm_num
    ring
  · rw [Nat.cast_sub hle]
    push_cast
    norm_num
    ring

/-- The interval in units of the last bit. An odd number does not own its bounds. -/
theorem Holds.bounds {b : Binary} (hm : 0 < b.m) {x : ℚ} (h : b.interval.Holds x) :
    b.m - b.margin ≤ x / (2 : ℚ) ^ b.q ∧ x / (2 : ℚ) ^ b.q ≤ b.m + 1 / 2 ∧
      (b.m % 2 = 1 → b.m - b.margin < x / (2 : ℚ) ^ b.q ∧ x / (2 : ℚ) ^ b.q < b.m + 1 / 2) := by
  have hu : (0 : ℚ) < (2 : ℚ) ^ b.q := by positivity
  have hclosed : b.interval.closed = decide (b.m % 2 = 0) := rfl
  rw [le_div_iff₀ hu, div_le_iff₀ hu, lt_div_iff₀ hu, div_lt_iff₀ hu, ← toRat_low hm,
    ← toRat_high]
  unfold Interval.Holds at h
  split at h
  · next heven =>
    refine ⟨h.1, h.2, fun hodd => ?_⟩
    rw [hclosed, decide_eq_true_eq] at heven
    omega
  · exact ⟨h.1.le, h.2.le, fun _ => h⟩

/-! ## Numbers with bits -/

/-- The number is the finite positive one with the bits `n`. Only the smallest numbers have fewer
than 53 significant bits, and a power of two is nearer to the number below than to the number above,
but for the smallest ones. -/
structure Encoded (b : Binary) (n : Nat) : Prop where
  bits   : (b.q + 1074).toNat * 2 ^ 52 + b.m = n
  low    : -1074 ≤ b.q
  high   : b.q ≤ 971
  pos    : 0 < b.m
  small  : b.m < 2 ^ 53
  full   : -1074 < b.q → 2 ^ 52 ≤ b.m
  narrow : b.narrow = true ↔ b.m = 2 ^ 52 ∧ -1074 < b.q

theorem encoded_ofBits {bits : UInt64} (hpos : bits.toNat % 2 ^ 63 ≠ 0)
    (hfinite : bits.toNat % 2 ^ 63 < 2047 * 2 ^ 52) :
    (ofBits bits).Encoded (bits.toNat % 2 ^ 63) := by
  have hfraction : bits.toNat % 2 ^ 52 < 2 ^ 52 := Nat.mod_lt _ (by decide)
  unfold ofBits
  dsimp only
  split
  -- without a leading one
  · next hexp =>
    exact {
      bits := by dsimp only; omega
      low := le_refl (-1074)
      high := by dsimp only; omega
      pos := by dsimp only; omega
      small := by dsimp only; omega
      full := fun hq => absurd hq (lt_irrefl (-1074))
      narrow := by simp }
  -- with a leading one, which is added to the significand
  · next hexp =>
    exact {
      bits := by dsimp only; omega
      low := by dsimp only; omega
      high := by dsimp only; omega
      pos := by dsimp only; omega
      small := by dsimp only; omega
      full := fun _ => Nat.le_add_left _ _
      narrow := by rw [decide_eq_true_eq]; dsimp only; omega }

/-! ## Reading -/

/-- The bits of a rational are those of its step and of its rounded multiple of the step. -/
theorem nearest?_of_step {a : Ratio} {q : Int} {m n : Nat}
    (hstep : max (a.binade - 52) (-1074) = q) (hround : (a.unscale q).round = m)
    (hbits : (q + 1074).toNat * 2 ^ 52 + m = n) (hfinite : n < 2047 * 2 ^ 52) :
    a.nearest? = some n := by
  unfold Ratio.nearest?
  dsimp only
  rw [hstep, hround, hbits, if_pos hfinite]

/-- The step of a number: 53 significant bits, or the smallest step. -/
theorem step_eq {a : Ratio} {q : Int} (hpos : 0 < a.toRat) (hhigh : a.toRat < (2 : ℚ) ^ (q + 53))
    (hlow : q = -1074 ∨ -1074 < q ∧ (2 : ℚ) ^ (q + 52) ≤ a.toRat) :
    max (a.binade - 52) (-1074) = q := by
  obtain ⟨p, hp, hp'⟩ := exists_mem_Ico_zpow hpos one_lt_two
  have hbinade : a.binade = p := Ratio.binade_eq hp hp'
  have habove : p < q + 53 := (zpow_lt_zpow_iff_right₀ one_lt_two).1 (lt_of_le_of_lt hp hhigh)
  rcases hlow with rfl | ⟨hq, hlow⟩
  · omega
  · have hbelow : q + 52 < p + 1 :=
      (zpow_lt_zpow_iff_right₀ one_lt_two).1 (lt_of_le_of_lt hlow hp')
    omega

theorem cast_pow_lt {a b m n : Nat} (h : a ^ m < b ^ n) : (a : ℚ) ^ m < (b : ℚ) ^ n := by
  exact_mod_cast h

/-- Half the smallest positive number, and a power of ten below it. -/
theorem pow_lt_smallest : (10 : ℚ) ^ (-324 : ℤ) < (2 : ℚ) ^ (-1075 : ℤ) := by
  have hlt : ((2 : ℕ) : ℚ) ^ 1075 < ((10 : ℕ) : ℚ) ^ 324 := cast_pow_lt (by decide +kernel)
  rw [zpow_neg, zpow_neg, zpow_ofNat, zpow_ofNat]
  exact inv_strictAnti₀ (by positivity) hlt

/-- The first power of two that is too large, and a power of ten above it. -/
theorem largest_lt_pow : (2 : ℚ) ^ (1024 : ℤ) < (10 : ℚ) ^ (309 : ℤ) := by
  have hlt : ((2 : ℕ) : ℚ) ^ 1024 < ((10 : ℕ) : ℚ) ^ 309 := cast_pow_lt (by decide +kernel)
  rw [zpow_ofNat, zpow_ofNat]
  exact hlt

namespace Encoded

variable {b : Binary} {n : Nat} (h : b.Encoded n)
include h

theorem cast_pos : (1 : ℚ) ≤ b.m := by
  exact_mod_cast h.pos

theorem cast_small : (b.m : ℚ) + 1 ≤ 2 ^ 53 := by
  exact_mod_cast h.small

theorem lt_finite : n < 2047 * 2 ^ 52 := by
  have := h.bits
  have := h.high
  have := h.small
  omega

section Read

variable {a : Ratio} {y : ℚ} (ha : a.toRat = y * (2 : ℚ) ^ b.q) (hlow : b.m - b.margin ≤ y)
include ha hlow

theorem pos_of_low : 0 < a.toRat := by
  have hone := h.cast_pos
  have hmargin := b.margin_le
  rw [ha]
  exact mul_pos (by linarith) (by positivity)

/-- A number with the step of `b` is rounded to `b`. -/
theorem nearest?_of_full (hhigh : y ≤ b.m + 1 / 2)
    (hodd : b.m % 2 = 1 → b.m - b.margin < y ∧ y < b.m + 1 / 2)
    (hfull : b.q = -1074 ∨ -1074 < b.q ∧ (2 : ℚ) ^ 52 ≤ y) : a.nearest? = some n := by
  have hu : (0 : ℚ) < (2 : ℚ) ^ b.q := by positivity
  have hsmall := h.cast_small
  have hmargin := b.margin_le
  have hunscaled : (a.unscale b.q).toRat = y := by
    rw [Ratio.toRat_unscale, ha, mul_div_cancel_right₀ _ hu.ne']
  have hstep : max (a.binade - 52) (-1074) = b.q := by
    refine step_eq (h.pos_of_low ha hlow) ?_ (hfull.imp_right fun ⟨hq, hy⟩ => ⟨hq, ?_⟩)
    · rw [ha, add_comm, zpow_add₀ two_ne_zero]
      exact mul_lt_mul_of_pos_right (by norm_num at hsmall ⊢; linarith) hu
    · rw [ha, add_comm, zpow_add₀ two_ne_zero]
      exact mul_le_mul_of_nonneg_right hy hu.le
  refine nearest?_of_step hstep (Ratio.round_eq ?_ fun hhalf => ?_) h.bits h.lt_finite
  · rw [hunscaled, abs_le]
    constructor <;> linarith
  · -- an odd number is nowhere one half away
    by_contra hm
    obtain ⟨hlow', hhigh'⟩ := hodd (by omega)
    rw [hunscaled] at hhalf
    rcases (abs_eq (by norm_num)).1 hhalf with heq | heq <;> linarith

/-- Below a power of two the step is half as long, and the power is what numbers just below it are
rounded to. -/
theorem nearest?_of_below (hq : -1074 < b.q) (hbelow : y < 2 ^ 52) : a.nearest? = some n := by
  have hu : (0 : ℚ) < (2 : ℚ) ^ b.q := by positivity
  have hpos := h.pos_of_low ha hlow
  -- only the smallest significand has a decimal so close below it in its interval
  have hm : b.m = 2 ^ 52 := by
    have hmargin := b.margin_le
    have hlt : (b.m : ℚ) < (2 ^ 52 + 1 : ℕ) := by
      push_cast
      linarith
    have hlt : b.m < 2 ^ 52 + 1 := by exact_mod_cast hlt
    have hle := h.full hq
    omega
  have hmargin : b.margin = 1 / 4 := by
    rw [margin, if_pos (h.narrow.2 ⟨hm, hq⟩)]
  rw [hmargin, hm] at hlow
  push_cast at hlow
  have hunscaled : (a.unscale (b.q - 1)).toRat = 2 * y := by
    rw [Ratio.toRat_unscale, ha, zpow_sub₀ two_ne_zero, zpow_one]
    field_simp
  -- so the reader works with the steps of the binade below
  have hstep : max (a.binade - 52) (-1074) = b.q - 1 := by
    have hqlow := h.low
    refine step_eq hpos ?_ ?_
    · rw [ha, show b.q - 1 + 53 = 52 + b.q by ring, zpow_add₀ two_ne_zero]
      exact mul_lt_mul_of_pos_right hbelow hu
    · by_cases hq' : b.q - 1 = -1074
      · exact .inl hq'
      · refine .inr ⟨by omega, ?_⟩
        rw [ha, show b.q - 1 + 52 = 51 + b.q by ring, zpow_add₀ two_ne_zero]
        refine mul_le_mul_of_nonneg_right ?_ hu.le
        norm_num at hlow ⊢
        linarith
  have hbits : (b.q - 1 + 1074).toNat * 2 ^ 52 + 2 ^ 53 = n := by
    have hexp : (b.q + 1074).toNat = (b.q - 1 + 1074).toNat + 1 := by omega
    have hn := h.bits
    rw [hexp, hm] at hn
    linarith
  -- and in those steps the power of two is the nearest number
  refine nearest?_of_step hstep (Ratio.round_eq ?_ fun _ => by norm_num) hbits h.lt_finite
  rw [hunscaled, abs_le]
  push_cast
  constructor <;> linarith

end Read

/-- A number is the nearest one to everything in its interval. -/
theorem nearest?_eq {a : Ratio} (ha : b.interval.Holds a.toRat) : a.nearest? = some n := by
  obtain ⟨hlow, hhigh, hodd⟩ := Holds.bounds h.pos ha
  have hscaled : a.toRat = a.toRat / (2 : ℚ) ^ b.q * (2 : ℚ) ^ b.q :=
    (div_mul_cancel₀ _ (by positivity)).symm
  by_cases hq : b.q = -1074
  · exact h.nearest?_of_full hscaled hlow hhigh hodd (.inl hq)
  have hq : -1074 < b.q := lt_of_le_of_ne h.low (Ne.symm hq)
  by_cases hfull : (2 : ℚ) ^ 52 ≤ a.toRat / (2 : ℚ) ^ b.q
  · exact h.nearest?_of_full hscaled hlow hhigh hodd (.inr ⟨hq, hfull⟩)
  · exact h.nearest?_of_below hscaled hlow hq (not_le.1 hfull)

/-- What lies in the interval of a finite number is neither too large nor too small to be looked
at. -/
theorem range_of_holds {x : ℚ} (hx : b.interval.Holds x) :
    (10 : ℚ) ^ (-324 : ℤ) < x ∧ x < (10 : ℚ) ^ (309 : ℤ) := by
  have hu : (0 : ℚ) < (2 : ℚ) ^ b.q := by positivity
  obtain ⟨hlow, hhigh, -⟩ := Holds.bounds h.pos hx
  have hone := h.cast_pos
  have hsmall := h.cast_small
  have hmargin := b.margin_le
  rw [le_div_iff₀ hu] at hlow
  rw [div_le_iff₀ hu] at hhigh
  constructor
  · refine pow_lt_smallest.trans_le (le_trans ?_ hlow)
    rw [show (-1075 : ℤ) = -1 + -1074 by norm_num, zpow_add₀ two_ne_zero]
    exact mul_le_mul (by norm_num; linarith) (zpow_le_zpow_right₀ one_le_two h.low) (by positivity)
      (by linarith)
  · refine lt_of_le_of_lt (hhigh.trans ?_) largest_lt_pow
    rw [show (1024 : ℤ) = 53 + 971 by norm_num, zpow_add₀ two_ne_zero]
    exact mul_le_mul (by norm_num at hsmall ⊢; linarith)
      (zpow_le_zpow_right₀ one_le_two h.high) hu.le (by positivity)

/-- A decimal in the interval of a number reads back as the number. -/
theorem nearest?_decimal {d : Nat} {e : Int} (hd : b.interval.Holds (d * (10 : ℚ) ^ e)) :
    nearest? d e = some n := by
  obtain ⟨hlow, hhigh⟩ := h.range_of_holds hd
  have hten : (1 : ℚ) < 10 := by norm_num
  have hpos : 0 < d := by
    rw [Nat.pos_iff_ne_zero]
    rintro rfl
    rw [Nat.cast_zero, zero_mul] at hlow
    exact absurd hlow (not_lt.2 (by positivity))
  have hlen := Nat.length_toDigits_pos (b := 10) (n := d)
  -- the decimal lies between the powers of ten that its digits give
  have hbelow : (10 : ℚ) ^ ((Nat.toDigits 10 d).length - 1 + e : ℤ) ≤ d * (10 : ℚ) ^ e := by
    rw [zpow_add₀ (by norm_num), ← Nat.cast_one, ← Nat.cast_sub hlen, zpow_natCast]
    refine mul_le_mul_of_nonneg_right ?_ (by positivity)
    exact_mod_cast Ratio.pow_length_le hpos
  have habove : d * (10 : ℚ) ^ e < (10 : ℚ) ^ ((Nat.toDigits 10 d).length + e : ℤ) := by
    rw [zpow_add₀ (by norm_num), zpow_natCast]
    refine mul_lt_mul_of_pos_right ?_ (by positivity)
    exact_mod_cast (Nat.length_toDigits_le_iff (by decide) hlen).1 le_rfl
  have hmin : (-324 : ℤ) < (Nat.toDigits 10 d).length + e :=
    (zpow_lt_zpow_iff_right₀ hten).1 (hlow.trans habove)
  have hmax : ((Nat.toDigits 10 d).length - 1 + e : ℤ) < 309 :=
    (zpow_lt_zpow_iff_right₀ hten).1 (lt_of_le_of_lt hbelow hhigh)
  unfold nearest?
  dsimp only
  rw [if_neg (by omega), if_neg (by omega)]
  exact h.nearest?_eq (by rwa [Ratio.toRat_decimal])

end Encoded

end Binary

/-- What is read is finite. -/
theorem nearest?_lt {d : Nat} {e : Int} {n : Nat} (h : nearest? d e = some n) :
    n < 2047 * 2 ^ 52 := by
  unfold nearest? at h
  dsimp only at h
  split at h
  · cases h
    decide
  · split at h
    · cases h
    · unfold Ratio.nearest? at h
      dsimp only at h
      split at h
      · next hlt => exact Option.some.inj h ▸ hlt
      · cases h

namespace Binary

/-! ## Writing -/

/-- What is picked from a grid lies in the interval. -/
theorem holds_of_pick? {b : Binary} {k : Int} {d : Nat} (h : b.pick? k = some d) :
    b.interval.Holds (d * (10 : ℚ) ^ k) := by
  rw [← Ratio.toRat_decimal, ← Interval.contains_iff]
  unfold pick? at h
  dsimp only at h
  split at h
  · cases h
  · next hn _ =>
    cases h
    exact hn
  · next _ hn =>
    cases h
    exact hn
  · next hn hn' =>
    split at h
    · cases h
      exact hn
    · split at h
      · cases h
        exact hn'
      · cases h
        split
        · exact hn
        · exact hn'

namespace Encoded

variable {b : Binary} {n : Nat} (h : b.Encoded n)
include h

/-- The number itself lies well inside its interval. -/
theorem value_bounds :
    b.interval.low.toRat < b.value.toRat ∧ b.value.toRat < b.interval.high.toRat := by
  have hu : (0 : ℚ) < (2 : ℚ) ^ b.q := by positivity
  have hmargin := b.margin_pos
  rw [toRat_low h.pos, toRat_high, toRat_value]
  exact ⟨mul_lt_mul_of_pos_right (by linarith) hu, mul_lt_mul_of_pos_right (by linarith) hu⟩

theorem holds_value : b.interval.Holds b.value.toRat :=
  Interval.holds_of_between h.value_bounds.1 h.value_bounds.2

/-- A grid that is finer than the interval is long has a point in it. -/
theorem exists_pick? {k : Int}
    (hk : (10 : ℚ) ^ k < b.interval.high.toRat - b.interval.low.toRat) :
    ∃ d, b.pick? k = some d := by
  obtain ⟨hlow, hhigh⟩ := h.value_bounds
  have hfloor := b.value.floorAt_le k
  have hnext := b.value.lt_floorAt k
  by_contra hnone
  -- then neither of the points around the number is in the interval
  have hnone : b.interval.contains (.decimal (b.value.floorAt k) k) = false ∧
      b.interval.contains (.decimal (b.value.floorAt k + 1) k) = false := by
    unfold pick? at hnone
    dsimp only at hnone
    split at hnone
    · next hn hn' => exact ⟨hn, hn'⟩
    · exact absurd ⟨_, rfl⟩ hnone
    · exact absurd ⟨_, rfl⟩ hnone
    · split at hnone
      · exact absurd ⟨_, rfl⟩ hnone
      · split at hnone <;> exact absurd ⟨_, rfl⟩ hnone
  rw [← Bool.not_eq_true, ← Bool.not_eq_true, Interval.contains_iff, Interval.contains_iff,
    Ratio.toRat_decimal, Ratio.toRat_decimal] at hnone
  obtain ⟨hn, hn'⟩ := hnone
  have hbelow : b.value.floorAt k * (10 : ℚ) ^ k ≤ b.interval.low.toRat := by
    by_contra hlt
    exact hn (Interval.holds_of_between (not_le.1 hlt) (hfloor.trans_lt hhigh))
  have habove : b.interval.high.toRat ≤ ((b.value.floorAt k + 1 : Nat) : ℚ) * (10 : ℚ) ^ k := by
    by_contra hlt
    exact hn' (Interval.holds_of_between (hlow.trans hnext) (not_le.1 hlt))
  push_cast at habove
  linarith

/-- On the grid of 17 digits there is a point in the interval. -/
theorem exists_pick?_17 : ∃ d, b.pick? (b.value.magnitude - 17) = some d := by
  refine h.exists_pick? ?_
  have hu : (0 : ℚ) < (2 : ℚ) ^ b.q := by positivity
  have hone := h.cast_pos
  have hsmall := h.cast_small
  have hmagnitude : (10 : ℚ) ^ (b.value.magnitude - 1) ≤ b.m * (2 : ℚ) ^ b.q := by
    rw [← toRat_value]
    refine Ratio.magnitude_le ?_
    obtain ⟨hlow, -⟩ := h.range_of_holds h.holds_value
    calc (1 : ℚ) ≤ (10 : ℚ) ^ (-324 + (400 + 1 : ℕ) : ℤ) := one_le_zpow₀ (by norm_num) (by norm_num)
      _ = (10 : ℚ) ^ (-324 : ℤ) * 10 ^ (400 + 1) := by
        rw [zpow_add₀ (by norm_num), zpow_natCast]
      _ ≤ b.value.toRat * 10 ^ (400 + 1) := mul_le_mul_of_nonneg_right hlow.le (by positivity)
  -- a step of the grid is short beside the number
  have hgrid : (10 : ℚ) ^ (b.value.magnitude - 17) * 10 ^ 16 ≤ b.m * (2 : ℚ) ^ b.q := by
    rw [← zpow_natCast, ← zpow_add₀ (by norm_num)]
    convert hmagnitude using 2
    push_cast
    ring
  rw [toRat_low h.pos, toRat_high, ← sub_mul]
  -- the interval is longer than a step, even where it is narrow
  by_cases hnarrow : b.narrow
  · obtain ⟨hm, -⟩ := h.narrow.1 hnarrow
    rw [margin, if_pos hnarrow]
    rw [hm] at hgrid ⊢
    push_cast at hgrid ⊢
    linarith
  · rw [margin, if_neg hnarrow]
    have hle : b.m * (2 : ℚ) ^ b.q ≤ 2 ^ 53 * (2 : ℚ) ^ b.q :=
      mul_le_mul_of_nonneg_right (by linarith) hu.le
    linarith

/-- The search ends at the latest with 17 digits, with a decimal in the interval. -/
theorem holds_shortestFrom (fuel digits : Nat) (hfuel : digits + fuel = 18)
    (hdigits : digits ≤ 17) :
    b.interval.Holds ((b.shortestFrom b.value.magnitude fuel digits).1 *
      (10 : ℚ) ^ (b.shortestFrom b.value.magnitude fuel digits).2) := by
  induction fuel generalizing digits with
  | zero => omega
  | succ fuel ih =>
    unfold shortestFrom
    cases hpick : b.pick? (b.value.magnitude - digits) with
    | some d => exact holds_of_pick? hpick
    | none =>
      refine ih (digits + 1) (by omega) ?_
      -- with 17 digits something would have been picked
      by_contra hlast
      obtain rfl : digits = 17 := by omega
      obtain ⟨d, hd⟩ := h.exists_pick?_17
      rw [show ((17 : Nat) : Int) = 17 from rfl, hd] at hpick
      cases hpick

theorem holds_shortest : b.interval.Holds (b.shortest.1 * (10 : ℚ) ^ b.shortest.2) :=
  h.holds_shortestFrom 17 1 rfl (by decide)

end Encoded

end Binary

end Outline.Decimal
