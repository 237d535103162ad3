import Mathlib.Algebra.Group.Int.Defs
import Mathlib.Algebra.Group.Nat.Defs
import Outline.Placement

/-!
# Keys as machine words

The keys of a placement are worked out on integers, and an integer that does not fit is no key. A
machine does the same in words, which wrap around: it adds and multiplies words of 64 bits after a
check that the result fits, and takes the middle of two keys in words of 128 bits, of which it keeps
the lower half. Nothing is lost on the way: the words that come out are those of the keys, and none
comes out where there is no key.

Main results:

* `Words.between?_word` — the key between two neighbours, in words;
* `Words.spreadFrom?_word` — the keys of a respread group, in words;
* `Words.exact` — these and the steps in between come out as they do on integers.
-/

namespace Outline

/-- The key as a word in two's complement. -/
def SortKey.word (k : SortKey) : BitVec 64 :=
  BitVec.ofInt 64 k.val

@[simp] theorem SortKey.toInt_word (k : SortKey) : k.word.toInt = k.val :=
  BitVec.toInt_ofInt_eq_self (by decide) k.ge_min k.lt_max

namespace Words

/-- The key after `last`, if the sum fits. -/
def next? (gap : BitVec 64) : Option (BitVec 64) → Option (BitVec 64)
  | none => some gap
  | some last => if last.saddOverflow gap then none else some (last + gap)

/-- The difference of two bounds, in words wide enough for it. -/
def span (below above : BitVec 64) : BitVec 128 :=
  above.signExtend 128 - below.signExtend 128

/-- The middle between two bounds, in the same wide words. -/
def middle (below above : BitVec 64) : BitVec 128 :=
  below.signExtend 128 + (span below above).sdiv 2

def midpoint? (below above : BitVec 64) : Option (BitVec 64) :=
  if (span below above).slt 2 then none else some ((middle below above).setWidth 64)

def between? (gap : BitVec 64) : Option (BitVec 64) → Option (BitVec 64) → Option (BitVec 64)
  | below, none => next? gap below
  | none, some above => midpoint? 0 above
  | some below, some above => midpoint? below above

/-- The keys of the members from position `n + 1` on. A position has to be a word itself. -/
def spreadFrom? (gap : BitVec 64) (n : Nat) : List Uuid → Option (List (Uuid × BitVec 64))
  | [] => some []
  | id :: rest =>
    if 2 ^ 63 ≤ n + 1 then none
    else
      let position := BitVec.ofNat 64 (n + 1)
      if position.smulOverflow gap then none
      else (spreadFrom? gap (n + 1) rest).map ((id, position * gap) :: ·)

/-! ## Sums -/

/-- A checked result is the word of the key that the integer is, if it is one. -/
theorem checked_eq {n : Int} {w : BitVec 64} {overflow : Bool}
    (hover : overflow = true ↔ ¬(-2 ^ 63 ≤ n ∧ n < 2 ^ 63)) (hw : overflow = false → w.toInt = n) :
    (if overflow then none else some w) = (SortKey.ofInt? n).map SortKey.word := by
  cases overflow with
  | true => rw [SortKey.ofInt?_eq_none_iff.2 (hover.1 rfl)]; rfl
  | false =>
    have hfits : -2 ^ 63 ≤ n ∧ n < 2 ^ 63 := by simpa using mt hover.2
    have hkey : SortKey.ofInt? n = some ⟨n, hfits.1, hfits.2⟩ := SortKey.ofInt?_eq_some_iff.2 rfl
    rw [hkey]
    refine congrArg some (BitVec.eq_of_toInt_eq ?_)
    rw [hw rfl, SortKey.toInt_word]

theorem saddOverflow_iff {a b : BitVec 64} : a.saddOverflow b = true ↔
    ¬(-2 ^ 63 ≤ a.toInt + b.toInt ∧ a.toInt + b.toInt < 2 ^ 63) := by
  simp [BitVec.saddOverflow]
  omega

theorem smulOverflow_iff {a b : BitVec 64} : a.smulOverflow b = true ↔
    ¬(-2 ^ 63 ≤ a.toInt * b.toInt ∧ a.toInt * b.toInt < 2 ^ 63) := by
  simp [BitVec.smulOverflow]
  omega

theorem next?_word (gap : Gap) (last : Option SortKey) :
    next? gap.size.word (last.map SortKey.word) = (gap.next? last).map SortKey.word := by
  cases last with
  | none => rfl
  | some last =>
    refine checked_eq ?_ fun h => ?_
    · simpa using saddOverflow_iff (a := last.word) (b := gap.size.word)
    · rw [BitVec.toInt_add_of_not_saddOverflow (by simp [h])]
      simp

/-! ## Midpoints -/

/-- The difference of two words of 64 bits fits in 128. -/
theorem toInt_span (below above : BitVec 64) :
    (span below above).toInt = above.toInt - below.toInt := by
  have hb := below.le_toInt
  have hb' := below.toInt_lt
  have ha := above.le_toInt
  have ha' := above.toInt_lt
  rw [span, BitVec.toInt_sub, BitVec.toInt_signExtend_of_le (by decide),
    BitVec.toInt_signExtend_of_le (by decide)]
  exact Int.bmod_eq_of_le_mul_two (by omega) (by omega)

/-- So does the middle, when the difference is not negative. -/
theorem toInt_middle {below above : BitVec 64} (h : below.toInt ≤ above.toInt) :
    (middle below above).toInt = below.toInt + (above.toInt - below.toInt) / 2 := by
  have hb := below.le_toInt
  have hb' := below.toInt_lt
  have ha := above.le_toInt
  have ha' := above.toInt_lt
  have hhalf : ((span below above).sdiv 2).toInt = (above.toInt - below.toInt) / 2 := by
    rw [BitVec.toInt_sdiv_of_ne_or_ne _ _ (.inr (by decide)), toInt_span,
      show (2 : BitVec 128).toInt = 2 by decide, Int.tdiv_eq_ediv_of_nonneg (by omega)]
  rw [middle, BitVec.toInt_add, hhalf, BitVec.toInt_signExtend_of_le (by decide)]
  exact Int.bmod_eq_of_le_mul_two (by omega) (by omega)

/-- The lower half of a word is its value, cut to 64 bits. -/
theorem setWidth_eq_ofInt (w : BitVec 128) : w.setWidth 64 = BitVec.ofInt 64 w.toInt := by
  apply BitVec.eq_of_toNat_eq
  rw [BitVec.toNat_setWidth, BitVec.toNat_ofInt, BitVec.toInt]
  split <;> omega

/-- Nor is anything cut off from a middle that lies between two words of 64 bits. -/
theorem toInt_setWidth_middle {below above : BitVec 64} (h : below.toInt ≤ above.toInt) :
    ((middle below above).setWidth 64).toInt = (middle below above).toInt := by
  have hb := below.le_toInt
  have ha := above.toInt_lt
  rw [setWidth_eq_ofInt, toInt_middle h]
  exact BitVec.toInt_ofInt_eq_self (by decide) (by omega) (by omega)

theorem midpoint?_eq (below above : BitVec 64) :
    midpoint? below above = (Gap.midpoint? below.toInt above.toInt).map SortKey.word := by
  have hslt : (span below above).slt 2 = true ↔ above.toInt - below.toInt < 2 := by
    rw [BitVec.slt_iff_toInt_lt, toInt_span]
    rfl
  unfold midpoint? Gap.midpoint?
  by_cases hnarrow : above.toInt - below.toInt < 2
  · rw [if_pos (hslt.2 hnarrow), if_pos hnarrow]
    rfl
  · rw [if_neg (mt hslt.1 hnarrow), if_neg hnarrow]
    have hb := below.le_toInt
    have ha := above.toInt_lt
    -- between two keys there is no need to check that the middle is one
    have hkey : SortKey.ofInt? (below.toInt + (above.toInt - below.toInt) / 2) =
        some ⟨below.toInt + (above.toInt - below.toInt) / 2, by omega, by omega⟩ :=
      SortKey.ofInt?_eq_some_iff.2 rfl
    rw [hkey, setWidth_eq_ofInt, toInt_middle (by omega)]
    rfl

/-- The key between two neighbours comes out the same in words. -/
theorem between?_word (gap : Gap) (below above : Option SortKey) :
    between? gap.size.word (below.map SortKey.word) (above.map SortKey.word) =
      (gap.between? below above).map SortKey.word := by
  match below, above with
  | none, none => exact next?_word gap none
  | some below, none => exact next?_word gap (some below)
  | none, some above =>
    refine (midpoint?_eq _ _).trans ?_
    rw [SortKey.toInt_word]
    rfl
  | some below, some above =>
    refine (midpoint?_eq _ _).trans ?_
    rw [SortKey.toInt_word, SortKey.toInt_word]
    rfl

/-! ## Products -/

/-- So do the keys of a respread group, however many members it has. -/
theorem spreadFrom?_word (gap : Gap) (n : Nat) (ids : List Uuid) :
    spreadFrom? gap.size.word n ids =
      (gap.spreadFrom? n ids).map (List.map fun m => (m.id, m.sort.word)) := by
  induction ids generalizing n with
  | nil => rfl
  | cons id rest ih =>
    have hgap := gap.two_le
    rw [spreadFrom?, Gap.spreadFrom?, ih]
    by_cases hposition : 2 ^ 63 ≤ n + 1
    -- a position that is no word is no key either, and still less its multiple
    · have hnone : SortKey.ofInt? (((n : Int) + 1) * gap.size.val) = none := by
        refine SortKey.ofInt?_eq_none_iff.2 fun hfits => ?_
        have hle : ((n : Int) + 1) * 1 ≤ ((n : Int) + 1) * gap.size.val :=
          Int.mul_le_mul_of_nonneg_left (by omega) (by omega)
        omega
      rw [if_pos hposition, hnone]
      rfl
    · have hword : (BitVec.ofNat 64 (n + 1)).toInt = (n : Int) + 1 := by
        rw [BitVec.toInt_ofNat']
        push_cast
        exact Int.bmod_eq_of_le_mul_two (by omega) (by omega)
      have hover := smulOverflow_iff (a := BitVec.ofNat 64 (n + 1)) (b := gap.size.word)
      rw [hword, SortKey.toInt_word] at hover
      have hproduct := checked_eq
        (w := BitVec.ofNat 64 (n + 1) * gap.size.word) (n := ((n : Int) + 1) * gap.size.val)
        hover fun h => by
          rw [BitVec.toInt_mul_of_not_smulOverflow (by simp [h]), hword, SortKey.toInt_word]
      rw [if_neg hposition]
      dsimp only
      cases hkey : SortKey.ofInt? (((n : Int) + 1) * gap.size.val) with
      | none =>
        rw [hkey] at hproduct
        split at hproduct
        · next h => rw [if_pos h]; rfl
        · cases hproduct
      | some sort =>
        rw [hkey] at hproduct
        split at hproduct
        · cases hproduct
        · next h =>
          rw [if_neg h, Option.some.inj hproduct]
          cases gap.spreadFrom? (n + 1) rest <;> rfl

/-- Working out keys in words of the widths above is the same as working them out on integers: no
step leaves its width. -/
structure Exact (gap : Gap) : Prop where
  difference : ∀ below above : BitVec 64, (span below above).toInt = above.toInt - below.toInt
  half       : ∀ below above : BitVec 64, below.toInt ≤ above.toInt →
    (middle below above).toInt = below.toInt + (above.toInt - below.toInt) / 2 ∧
      ((middle below above).setWidth 64).toInt = (middle below above).toInt
  between    : ∀ below above : Option SortKey,
    between? gap.size.word (below.map SortKey.word) (above.map SortKey.word) =
      (gap.between? below above).map SortKey.word
  spread     : ∀ ids, spreadFrom? gap.size.word 0 ids =
    (gap.spreadFrom? 0 ids).map (List.map fun m => (m.id, m.sort.word))

theorem exact (gap : Gap) : Exact gap where
  difference := toInt_span
  half := fun _ _ h => ⟨toInt_middle h, toInt_setWidth_middle h⟩
  between := between?_word gap
  spread := spreadFrom?_word gap 0

end Words

end Outline
