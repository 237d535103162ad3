import Outline.Json.Numeral
import Outline.Proofs.Decimal.ReadBack

/-!
# Numerals read back

A written number is a numeral: digits, a fraction or none, an exponent or none. Its parts are read
as they were written, whatever follows, as long as that does not belong to a numeral; what follows
in a written text is a comma or a bracket, or nothing.

The value of an integer's numeral is the integer. For a fraction the digits are the shortest ones
that identify it, and however they are laid out they stand for the same decimal, so the nearest
binary64 number is the fraction itself.

Main results:

* `Numeral.WellFormed.read?_text` — a numeral reads back as its parts;
* `Numeral.value?_ofInt` — the value of an integer's numeral;
* `Numeral.exists_text_eq_write` — the numeral of a fraction and its value.
-/

namespace Outline

namespace Json

/-- What may follow a value: nothing, a comma, or a bracket that closes. -/
def Ends (rest : List Char) : Prop :=
  ∀ c ∈ rest.head?, c = ',' ∨ c = ']' ∨ c = '\x7d'

theorem ends_nil : Ends [] := by
  simp [Ends]

theorem ends_cons {c : Char} {rest : List Char} (h : c = ',' ∨ c = ']' ∨ c = '\x7d') :
    Ends (c :: rest) := by
  simpa [Ends] using h

end Json

open Json (Ends writeInt fractionLayout)

namespace Numeral

/-! ## Digits -/

/-- At least one character, and only digits. -/
def Digital (ds : List Char) : Prop :=
  ds ≠ [] ∧ ∀ c ∈ ds, isDigit c = true

/-- No digit comes first. -/
def Undigital (rest : List Char) : Prop :=
  ∀ c ∈ rest.head?, isDigit c = false

theorem isDigit_eq (c : Char) : isDigit c = c.isDigit := by
  simp only [isDigit, Char.isDigit, Char.le_def, ge_iff_le]

theorem digital_toDigits (n : Nat) : Digital (Nat.toDigits 10 n) :=
  ⟨Nat.toDigits_ne_nil, fun c hc => by
    rw [isDigit_eq]
    exact Nat.isDigit_of_mem_toDigits (b := 10) (by decide) (by decide) hc⟩

/-- Only the numeral of zero begins with a zero. -/
theorem head?_toDigits {n : Nat} (hn : 0 < n) : (Nat.toDigits 10 n).head? ≠ some '0' := by
  induction n using Nat.strongRecOn with
  | _ n ih =>
    by_cases hlt : n < 10
    · rw [Nat.toDigits_of_lt_base hlt]
      have hdigit : ∀ d < 10, Nat.digitChar d = '0' → d = 0 := by decide
      intro h
      have hzero := hdigit n hlt (Option.some.inj h)
      omega
    · rw [Nat.toDigits_of_base_le (by decide) (by omega)]
      obtain ⟨c, ds, hds⟩ :=
        List.exists_cons_of_ne_nil (Nat.toDigits_ne_nil (n := n / 10) (b := 10))
      have hhead := ih (n / 10) (by omega) (by omega)
      rw [hds] at hhead ⊢
      exact hhead

/-- Digits are read up to where they end. -/
theorem span_digits {ds rest : List Char} (hds : Digital ds) (hrest : Undigital rest) :
    (ds ++ rest).takeWhile isDigit = ds ∧ (ds ++ rest).dropWhile isDigit = rest := by
  rw [List.takeWhile_append_of_pos hds.2, List.dropWhile_append_of_pos hds.2]
  cases rest with
  | nil => simp
  | cons c rest => simp [hrest c rfl]

theorem digits_append (ds es : List Char) :
    digits (ds ++ es) = digits ds * 10 ^ es.length + digits es := by
  rw [digits, Nat.ofDigitChars_append, Nat.ofDigitChars_eq_ofDigitChars_zero, Nat.mul_comm]
  rfl

theorem digits_zeros (n : Nat) : digits (List.replicate n '0') = 0 := by
  simp [digits]

theorem digits_zero : digits ['0'] = 0 := rfl

/-! ## Parts -/

/-- The text of a fraction. -/
def fractionText : Option (List Char) → List Char
  | none => []
  | some ds => '.' :: ds

/-- The text of an exponent, with a sign in any case. -/
def exponentText : Option (Bool × List Char) → List Char
  | none => []
  | some (minus, ds) => 'e' :: (if minus then '-' else '+') :: ds

/-- The text of a numeral without its sign. -/
def unsigned (n : Numeral) : List Char :=
  n.whole ++ (fractionText n.fraction ++ exponentText n.exponent)

/-- The numeral has the parts that the grammar gives it. -/
structure WellFormed (n : Numeral) : Prop where
  whole    : Digital n.whole
  /-- No zero stands before other digits. -/
  zero     : n.whole.head? = some '0' → n.whole = ['0']
  fraction : ∀ ds, n.fraction = some ds → Digital ds
  exponent : ∀ e, n.exponent = some e → Digital e.2

theorem undigital_of_ends {rest : List Char} (h : Ends rest) : Undigital rest := by
  intro c hc
  rcases h c hc with rfl | rfl | rfl <;> decide

theorem readWhole?_append {ds rest : List Char} (hds : Digital ds)
    (hzero : ds.head? = some '0' → ds = ['0']) (hrest : Undigital rest) :
    readWhole? (ds ++ rest) = some (ds, rest) := by
  obtain ⟨htake, hdrop⟩ := span_digits hds hrest
  unfold readWhole?
  rw [htake, hdrop]
  split
  · exact absurd rfl hds.1
  · cases hzero rfl
  · rfl

theorem readFraction?_append {fraction : Option (List Char)} {rest : List Char}
    (hfraction : ∀ ds, fraction = some ds → Digital ds) (hrest : Undigital rest)
    (hpoint : rest.head? ≠ some '.') :
    readFraction? (fractionText fraction ++ rest) = some (fraction, rest) := by
  cases fraction with
  | none =>
    show readFraction? rest = some (none, rest)
    unfold readFraction?
    split
    · exact absurd rfl hpoint
    · rfl
  | some ds =>
    obtain ⟨htake, hdrop⟩ := span_digits (hfraction ds rfl) hrest
    show readFraction? ('.' :: (ds ++ rest)) = some (some ds, rest)
    rw [readFraction?]
    simp only [htake, hdrop]
    split
    · exact absurd rfl (hfraction _ rfl).1
    · rfl

theorem readExponent?_append {exponent : Option (Bool × List Char)} {rest : List Char}
    (hexponent : ∀ e, exponent = some e → Digital e.2) (hrest : Ends rest) :
    readExponent? (exponentText exponent ++ rest) = some (exponent, rest) := by
  cases exponent with
  | none =>
    show readExponent? rest = some (none, rest)
    unfold readExponent?
    split
    · rcases hrest _ rfl with rfl | rfl | rfl <;> rfl
    · rfl
  | some e =>
    obtain ⟨minus, ds⟩ := e
    have hds : Digital ds := hexponent _ rfl
    obtain ⟨htake, hdrop⟩ := span_digits hds (undigital_of_ends hrest)
    obtain ⟨sign, hsign⟩ : ∃ sign, sign = if minus then '-' else '+' := ⟨_, rfl⟩
    have hread : readExponentSign (sign :: (ds ++ rest)) = (minus, ds ++ rest) := by
      rw [hsign]
      cases minus <;> rfl
    show readExponent? ('e' :: (if minus then '-' else '+') :: (ds ++ rest)) = _
    rw [← hsign, readExponent?]
    simp only [Char.reduceEq, true_or, if_true, hread, htake, hdrop]
    split
    · exact absurd rfl hds.1
    · rfl

/-- A numeral reads back as its parts, whatever follows it. -/
theorem readUnsigned?_unsigned {n : Numeral} (hn : n.WellFormed) {rest : List Char}
    (hrest : Ends rest) : readUnsigned? n.negative (n.unsigned ++ rest) = some (n, rest) := by
  have hafter : Undigital (exponentText n.exponent ++ rest) ∧
      (exponentText n.exponent ++ rest).head? ≠ some '.' := by
    cases n.exponent with
    | none =>
      refine ⟨undigital_of_ends hrest, fun hpoint => ?_⟩
      rcases hrest '.' hpoint with h | h | h <;> cases h
    | some e => exact ⟨fun c hc => by cases hc; rfl, fun hpoint => by cases hpoint⟩
  have hpoint : Undigital (fractionText n.fraction ++ (exponentText n.exponent ++ rest)) := by
    cases n.fraction with
    | none => exact hafter.1
    | some ds => exact fun c hc => by cases hc; rfl
  rw [unsigned, List.append_assoc, List.append_assoc, readUnsigned?,
    readWhole?_append hn.whole hn.zero hpoint]
  simp only [Option.bind_eq_bind, Option.bind_some, readFraction?_append hn.fraction hafter.1
    hafter.2, readExponent?_append hn.exponent hrest, Option.pure_def]

/-- The text of a numeral. -/
def text (n : Numeral) : List Char :=
  if n.negative then '-' :: n.unsigned else n.unsigned

namespace WellFormed

variable {n : Numeral} (hn : n.WellFormed)
include hn

/-- Without its sign a numeral begins with a digit. -/
theorem exists_head_unsigned : ∃ c cs, n.unsigned = c :: cs ∧ isDigit c = true := by
  obtain ⟨c, cs, hcs⟩ := List.exists_cons_of_ne_nil hn.whole.1
  refine ⟨c, _, by rw [unsigned, hcs, List.cons_append], hn.whole.2 c ?_⟩
  rw [hcs]
  exact List.mem_cons_self

theorem exists_head : ∃ c cs, n.text = c :: cs ∧ (c = '-' ∨ c.isDigit = true) := by
  unfold text
  split
  · exact ⟨'-', _, rfl, .inl rfl⟩
  · obtain ⟨c, cs, hcs, hc⟩ := hn.exists_head_unsigned
    exact ⟨c, cs, hcs, .inr (by rwa [← isDigit_eq])⟩

theorem read?_text {rest : List Char} (hrest : Ends rest) :
    read? (n.text ++ rest) = some (n, rest) := by
  have hread := readUnsigned?_unsigned hn hrest
  unfold text
  split
  · next hnegative =>
    rw [hnegative] at hread
    rw [List.cons_append, read?, hread]
  · next hnegative =>
    rw [Bool.not_eq_true] at hnegative
    obtain ⟨c, cs, hcs, hc⟩ := hn.exists_head_unsigned
    rw [hnegative, hcs, List.cons_append] at hread
    rw [hcs, List.cons_append, read?, hread]
    -- a digit is no sign
    intro _ heq
    rw [(List.cons.inj heq).1] at hc
    cases hc

end WellFormed

/-! ## Integers -/

/-- The numeral of an integer. -/
def ofInt (n : Int) : Numeral :=
  ⟨decide (n < 0), Nat.toDigits 10 n.natAbs, none, none⟩

theorem wellFormed_ofInt (n : Int) : (ofInt n).WellFormed where
  whole := digital_toDigits _
  zero hzero := by
    by_cases hn : n.natAbs = 0
    · show Nat.toDigits 10 n.natAbs = ['0']
      rw [hn]
      rfl
    · exact absurd hzero (head?_toDigits (Nat.pos_of_ne_zero hn))
  fraction _ h := by cases h
  exponent _ h := by cases h

theorem text_ofInt (n : Int) : (ofInt n).text = writeInt n := by
  have hunsigned : (ofInt n).unsigned = Nat.toDigits 10 n.natAbs := List.append_nil _
  rw [text, hunsigned, writeInt]
  simp only [ofInt, decide_eq_true_eq]

/-- An integer in range is the value of its numeral. -/
theorem value?_ofInt {n : Int} (hmin : -2 ^ 63 ≤ n) (hmax : n < 2 ^ 64) :
    (ofInt n).value? = some (.int n) := by
  have hdigits : digits (Nat.toDigits 10 n.natAbs) = n.natAbs :=
    Nat.ofDigitChars_ten_toDigits
  unfold value? ofInt
  dsimp only
  rw [hdigits, whole?]
  by_cases hn : n < 0
  · have hnot : ¬(decide (n < 0) = false ∧ n.natAbs < 2 ^ 64) := by simp [hn]
    have hrange : decide (n < 0) = true ∧ n.natAbs ≠ 0 ∧ n.natAbs ≤ 2 ^ 63 :=
      ⟨decide_eq_true hn, by omega, by omega⟩
    have habs : -(n.natAbs : Int) = n := by omega
    rw [if_neg hnot, if_pos hrange, habs]
  · have hrange : decide (n < 0) = false ∧ n.natAbs < 2 ^ 64 :=
      ⟨decide_eq_false hn, by omega⟩
    have habs : (n.natAbs : Int) = n := by omega
    rw [if_pos hrange, habs]

/-! ## Fractions -/

/-- The rational number that a numeral stands for, its sign apart. -/
def amount (n : Numeral) : ℚ :=
  digits (n.whole ++ n.fraction.getD []) *
    (10 : ℚ) ^ (power n.exponent - (n.fraction.getD []).length)

/-- A numeral with a point or an exponent has the value of what it stands for. -/
theorem value?_of_holds {n : Numeral} (hfraction : ¬(n.fraction = none ∧ n.exponent = none))
    {b : Decimal.Binary} {m : Nat} (hb : b.Encoded m) (hn : b.interval.Holds n.amount) :
    n.value? = some (.float (.ofNat (if n.negative then m + 2 ^ 63 else m))) := by
  have hvalue : n.value? = float? n.negative (digits (n.whole ++ n.fraction.getD []))
      (power n.exponent - (n.fraction.getD []).length) := by
    unfold value?
    split
    · next h1 h2 => exact absurd ⟨h1, h2⟩ hfraction
    · rfl
  rw [hvalue, float?, hb.nearest?_decimal hn]
  rfl

/-- A numeral with a point or an exponent that is the given text and stands for the given
number. -/
structure Denotes (n : Numeral) (cs : List Char) (x : ℚ) : Prop where
  formed     : n.WellFormed
  unsigned   : n.unsigned = cs
  fractional : ¬(n.fraction = none ∧ n.exponent = none)
  amount     : n.amount = x

theorem isDigit_of_mem_zeros {n : Nat} {c : Char} (hc : c ∈ List.replicate n '0') :
    isDigit c = true := by
  rw [List.eq_of_mem_replicate hc]
  rfl

section Layout

variable {ds : List Char} (hds : Digital ds) (hhead : ds.head? ≠ some '0') (negative : Bool)
include hds

/-- Below one: a zero, and the digits somewhere behind the point. -/
theorem denotes_below (zeros : Nat) :
    Denotes ⟨negative, ['0'], some (List.replicate zeros '0' ++ ds), none⟩
      ('0' :: '.' :: (List.replicate zeros '0' ++ ds))
      (digits ds * (10 : ℚ) ^ (-(zeros + ds.length : ℤ))) where
  formed := {
    whole := ⟨by simp, by simp [isDigit]⟩
    zero := fun _ => rfl
    fraction := fun es hes => by
      cases hes
      refine ⟨by simp [hds.1], fun c hc => ?_⟩
      rcases List.mem_append.1 hc with hc | hc
      · exact isDigit_of_mem_zeros hc
      · exact hds.2 c hc
    exponent := fun _ h => by cases h }
  unsigned := by simp [unsigned, fractionText, exponentText]
  fractional := by simp
  amount := by
    have hdigits : digits (['0'] ++ (List.replicate zeros '0' ++ ds)) = digits ds := by
      rw [digits_append, digits_append, digits_zeros, digits_zero]
      simp
    show (digits (['0'] ++ (List.replicate zeros '0' ++ ds)) : ℚ) * _ = _
    rw [hdigits]
    simp [power]

include hhead

/-- A whole number: the digits, zeros behind them, and a zero behind the point. -/
theorem denotes_whole (zeros : Nat) :
    Denotes ⟨negative, ds ++ List.replicate zeros '0', some ['0'], none⟩
      (ds ++ List.replicate zeros '0' ++ ['.', '0'])
      (digits ds * (10 : ℚ) ^ (zeros : ℤ)) where
  formed := {
    whole := by
      refine ⟨by simp [hds.1], fun c hc => ?_⟩
      rcases List.mem_append.1 hc with hc | hc
      · exact hds.2 c hc
      · exact isDigit_of_mem_zeros hc
    zero := fun h => by
      obtain ⟨c, cs, rfl⟩ := List.exists_cons_of_ne_nil hds.1
      exact absurd h hhead
    fraction := fun es hes => by
      cases hes
      exact ⟨by simp, by simp [isDigit]⟩
    exponent := fun _ h => by cases h }
  unsigned := by simp [unsigned, fractionText, exponentText]
  fractional := by simp
  amount := by
    -- the zero behind the point multiplies by ten what the point divides by ten
    have hdigits : digits (ds ++ List.replicate zeros '0' ++ ['0']) =
        digits ds * 10 ^ zeros * 10 := by
      rw [digits_append, digits_append, digits_zeros, digits_zero]
      simp
    show (digits (ds ++ List.replicate zeros '0' ++ ['0']) : ℚ) * _ = _
    rw [hdigits]
    simp [power]

/-- The digits with a point among them and an exponent or none. -/
theorem denotes_split {whole fraction : List Char} (hsplit : whole ++ fraction = ds)
    (hwhole : whole ≠ []) (exponent : Option (Bool × List Char))
    (hexponent : ∀ e, exponent = some e → Digital e.2)
    (hfractional : fraction ≠ [] ∨ exponent ≠ none) :
    Denotes ⟨negative, whole, if fraction = [] then none else some fraction, exponent⟩
      (whole ++ ((if fraction = [] then [] else '.' :: fraction) ++ exponentText exponent))
      (digits ds * (10 : ℚ) ^ (power exponent - fraction.length)) where
  formed := {
    whole := ⟨hwhole, fun c hc => hds.2 c (hsplit ▸ List.mem_append_left _ hc)⟩
    zero := fun h => by
      obtain ⟨c, cs, rfl⟩ := List.exists_cons_of_ne_nil hwhole
      rw [← hsplit] at hhead
      exact absurd h hhead
    fraction := fun es hes => by
      dsimp only at hes
      split at hes
      · cases hes
      · next hne =>
        cases hes
        exact ⟨hne, fun c hc => hds.2 c (hsplit ▸ List.mem_append_right _ hc)⟩
    exponent := hexponent }
  unsigned := by
    unfold unsigned
    split <;> rfl
  fractional := by
    rintro ⟨hf, he⟩
    dsimp only at hf he
    split at hf
    · next hnil => exact hfractional.elim (fun hne => hne hnil) fun hne => hne he
    · cases hf
  amount := by
    -- no digits after the point count as none
    have hgetD : (if fraction = [] then none else some fraction : Option (List Char)).getD [] =
        fraction := by
      split
      · next hnil => rw [hnil]; rfl
      · rfl
    unfold amount
    dsimp only
    rw [hgetD, hsplit]

/-- Digits laid out with a plain point. -/
theorem exists_denotes_plain (exponent : Int) :
    ∃ n : Numeral, n.negative = negative ∧ n.Denotes (Decimal.Layout.plain ds exponent)
      (digits ds * (10 : ℚ) ^ (exponent + 1 - ds.length)) := by
  unfold Decimal.Layout.plain
  split
  · next hneg =>
    have hscale : exponent + 1 - ds.length = -((-exponent - 1).toNat + ds.length : ℤ) := by omega
    rw [hscale]
    exact ⟨_, rfl, denotes_below hds negative _⟩
  · next hnonneg =>
    dsimp only
    -- the point comes behind all digits or among them
    by_cases hshort : ds.length ≤ exponent.toNat + 1
    · rw [List.take_of_length_le hshort, List.drop_of_length_le hshort]
      have hscale : exponent + 1 - ds.length = ((exponent.toNat + 1 - ds.length : Nat) : ℤ) := by
        omega
      rw [hscale]
      exact ⟨_, rfl, denotes_whole hds hhead negative _⟩
    · have hlong := not_le.1 hshort
      have hdrop : ds.drop (exponent.toNat + 1) ≠ [] := by
        rw [ne_eq, List.drop_eq_nil_iff]
        exact hshort
      have htake : ds.take (exponent.toNat + 1) ≠ [] := by
        rw [ne_eq, List.take_eq_nil_iff]
        exact fun h => h.elim (by omega) hds.1
      have hdenotes := denotes_split hds hhead negative (List.take_append_drop _ ds) htake
        none (fun _ h => by cases h) (.inl hdrop)
      have hscale : exponent + 1 - ds.length =
          power none - ((ds.drop (exponent.toNat + 1)).length : ℤ) := by
        rw [List.length_drop, power]
        omega
      rw [if_neg hdrop] at hdenotes
      rw [hscale, Nat.sub_eq_zero_of_le hlong.le]
      simp only [List.replicate_zero, List.append_nil, List.isEmpty_iff, hdrop, if_false]
      rw [exponentText, List.append_nil, if_neg hdrop] at hdenotes
      exact ⟨_, rfl, hdenotes⟩

/-- Digits laid out with an exponent. -/
theorem exists_denotes_scientific (exponent : Int) :
    ∃ n : Numeral, n.negative = negative ∧ n.Denotes (Decimal.Layout.scientific ds exponent)
      (digits ds * (10 : ℚ) ^ (exponent + 1 - ds.length)) := by
  have htake : ds.take 1 ≠ [] := by
    rw [ne_eq, List.take_eq_nil_iff]
    exact fun h => h.elim (by omega) hds.1
  have hlen := List.length_pos_iff.2 hds.1
  have hdenotes := denotes_split hds hhead negative (List.take_append_drop 1 ds) htake
    (some (decide (exponent < 0), Nat.toDigits 10 exponent.natAbs))
    (fun e he => by cases he; exact digital_toDigits _) (.inr (by simp))
  have hscale : exponent + 1 - ds.length =
      power (some (decide (exponent < 0), Nat.toDigits 10 exponent.natAbs)) -
        ((ds.drop 1).length : ℤ) := by
    rw [List.length_drop, power, digits, Nat.ofDigitChars_ten_toDigits]
    split
    · next h => rw [decide_eq_true_eq] at h; omega
    · next h => rw [decide_eq_true_eq] at h; omega
  have htext : Decimal.Layout.scientific ds exponent = ds.take 1 ++
      ((if ds.drop 1 = [] then [] else '.' :: ds.drop 1) ++
        exponentText (some (decide (exponent < 0), Nat.toDigits 10 exponent.natAbs))) := by
    unfold Decimal.Layout.scientific
    cases ds.drop 1 <;> by_cases h : exponent < 0 <;> simp [exponentText, h]
  rw [htext, hscale]
  exact ⟨_, rfl, hdenotes⟩

end Layout

/-- Without its last zeros a positive number has digits, and they make the number up to a power of
ten. -/
theorem strip_toDigits {d : Nat} (hd : 0 < d) {ds : List Char}
    (hds : ds = ((Nat.toDigits 10 d).reverse.dropWhile (· = '0')).reverse) :
    Digital ds ∧ ds.head? ≠ some '0' ∧ ds.length ≤ (Nat.toDigits 10 d).length ∧
      digits ds * 10 ^ ((Nat.toDigits 10 d).length - ds.length) = d := by
  obtain ⟨zeros, hall⟩ : ∃ zeros, Nat.toDigits 10 d = ds ++ List.replicate zeros '0' := by
    refine ⟨((Nat.toDigits 10 d).reverse.takeWhile (· = '0')).length, ?_⟩
    have hzeros : (Nat.toDigits 10 d).reverse.takeWhile (· = '0') =
        List.replicate ((Nat.toDigits 10 d).reverse.takeWhile (· = '0')).length '0' :=
      List.eq_replicate_iff.2
        ⟨rfl, fun c hc => by simpa using List.all_eq_true.1 List.all_takeWhile c hc⟩
    rw [hds, ← List.reverse_replicate, ← hzeros, ← List.reverse_append,
      List.takeWhile_append_dropWhile, List.reverse_reverse]
  have hhead := head?_toDigits hd
  rw [hall] at hhead ⊢
  have hne : ds ≠ [] := by
    -- there would be nothing but zeros
    rintro rfl
    have hdigits : digits (Nat.toDigits 10 d) = d := Nat.ofDigitChars_ten_toDigits
    rw [hall, List.nil_append, digits_zeros] at hdigits
    omega
  obtain ⟨c, cs, rfl⟩ := List.exists_cons_of_ne_nil hne
  refine ⟨⟨hne, fun x hx => (digital_toDigits d).2 x ?_⟩, hhead, by simp, ?_⟩
  · rw [hall]
    exact List.mem_append_left _ hx
  · have hdigits : digits (Nat.toDigits 10 d) = d := Nat.ofDigitChars_ten_toDigits
    rw [hall, digits_append, digits_zeros, List.length_replicate, Nat.add_zero] at hdigits
    rw [List.length_append, List.length_replicate, Nat.add_sub_cancel_left]
    exact hdigits

/-- The shortest digits of a finite number stand for a decimal in its interval. -/
theorem holds_ofBits {bits : UInt64} (hpos : bits.toNat % 2 ^ 63 ≠ 0)
    (hfinite : bits.toNat % 2 ^ 63 < 2047 * 2 ^ 52) {ds : List Char} {exponent : Int}
    (hdigits : Decimal.Digits.ofBits bits = ⟨ds, exponent⟩) :
    Digital ds ∧ ds.head? ≠ some '0' ∧ (Decimal.Binary.ofBits bits).interval.Holds
      (digits ds * (10 : ℚ) ^ (exponent + 1 - ds.length)) := by
  have hencoded := Decimal.Binary.encoded_ofBits hpos hfinite
  have hholds := hencoded.holds_shortest
  unfold Decimal.Digits.ofBits at hdigits
  generalize (Decimal.Binary.ofBits bits).shortest = decimal at hdigits hholds
  obtain ⟨d, k⟩ := decimal
  obtain ⟨hds, hexponent⟩ := Decimal.Digits.mk.inj hdigits
  dsimp only at hholds hds hexponent
  -- zero is not in the interval, which has positive numbers alone
  have hd : 0 < d := by
    rw [Nat.pos_iff_ne_zero]
    rintro rfl
    have hrange := (hencoded.range_of_holds hholds).1
    rw [Nat.cast_zero, zero_mul] at hrange
    exact absurd hrange (not_lt.2 (by positivity))
  obtain ⟨hdigital, hhead, hlen, hvalue⟩ := strip_toDigits hd hds.symm
  refine ⟨hdigital, hhead, ?_⟩
  convert hholds using 1
  -- the exponent makes up for the zeros that were stripped
  have hscale : exponent + 1 - ds.length =
      ((Nat.toDigits 10 d).length - ds.length : ℕ) + k := by
    omega
  rw [hscale, zpow_add₀ (by norm_num), zpow_natCast, ← mul_assoc]
  congr 1
  exact_mod_cast hvalue

/-- A written fraction is a numeral that has the fraction as its value. -/
theorem exists_text_eq_write {bits : UInt64} (hfinite : bits.toNat % 2 ^ 63 < 2047 * 2 ^ 52) :
    ∃ n : Numeral, n.WellFormed ∧ n.text = fractionLayout.write bits ∧
      n.value? = some (.float bits) := by
  -- the sign and the rest make up the bits again
  have hbits : UInt64.ofNat (if decide (2 ^ 63 ≤ bits.toNat) = true
      then bits.toNat % 2 ^ 63 + 2 ^ 63 else bits.toNat % 2 ^ 63) = bits := by
    have hlt := bits.toNat_lt
    rw [← UInt64.toNat_inj, UInt64.toNat_ofNat']
    split
    · next h => rw [decide_eq_true_eq] at h; omega
    · next h => rw [decide_eq_true_eq] at h; omega
  have hsign : ∀ {n : Numeral} {cs : List Char}, n.negative = decide (2 ^ 63 ≤ bits.toNat) →
      n.unsigned = cs → n.text = if bits.toNat < 2 ^ 63 then cs else '-' :: cs := by
    intro n cs hnegative hcs
    rw [text, hnegative, hcs]
    by_cases h : bits.toNat < 2 ^ 63
    · rw [if_pos h, if_neg (by simpa using h)]
    · rw [if_neg h, if_pos (by simpa using h)]
  -- zero has no first digit, so it is written apart from all others
  by_cases hzero : bits.toNat % 2 ^ 63 = 0
  · have hwrite : fractionLayout.write bits =
        if bits.toNat < 2 ^ 63 then ['0', '.', '0'] else '-' :: ['0', '.', '0'] := by
      unfold Decimal.Layout.write
      rw [if_pos hzero]
      rfl
    rw [hzero] at hbits
    rw [hwrite]
    refine ⟨⟨decide (2 ^ 63 ≤ bits.toNat), ['0'], some ['0'], none⟩, ?_, hsign rfl rfl, ?_⟩
    · exact ⟨⟨by simp, by simp [isDigit]⟩, fun _ => rfl,
        fun _ h => by cases h; exact ⟨by simp, by simp [isDigit]⟩, fun _ h => by cases h⟩
    · refine Eq.trans ?_ (congrArg (fun b => some (Json.float b)) hbits)
      rfl
  · obtain ⟨⟨ds, exponent⟩, hdigits⟩ : ∃ d, Decimal.Digits.ofBits bits = d := ⟨_, rfl⟩
    obtain ⟨hds, hhead, hholds⟩ := holds_ofBits hzero hfinite hdigits
    have hencoded := Decimal.Binary.encoded_ofBits hzero hfinite
    obtain ⟨n, hnegative, hn⟩ : ∃ n : Numeral, n.negative = decide (2 ^ 63 ≤ bits.toNat) ∧
        n.Denotes (if fractionLayout.low ≤ exponent ∧ exponent < fractionLayout.high
          then Decimal.Layout.plain ds exponent else Decimal.Layout.scientific ds exponent)
          (digits ds * (10 : ℚ) ^ (exponent + 1 - ds.length)) := by
      split
      · exact exists_denotes_plain hds hhead _ exponent
      · exact exists_denotes_scientific hds hhead _ exponent
    refine ⟨n, hn.formed, ?_, ?_⟩
    · rw [hsign hnegative hn.unsigned]
      unfold Decimal.Layout.write
      rw [if_neg hzero, hdigits]
    · rw [value?_of_holds hn.fractional hencoded (hn.amount.symm ▸ hholds), hnegative, hbits]

/-! ## Values -/

theorem float?_finite {negative : Bool} {d : Nat} {e : Int} {v : Json}
    (h : float? negative d e = some v) :
    ∃ bits, v = .float bits ∧ bits.toNat % 2 ^ 63 < 2047 * 2 ^ 52 := by
  obtain ⟨m, hm, rfl⟩ := Option.map_eq_some_iff.1 h
  refine ⟨_, rfl, ?_⟩
  have hlt := Decimal.nearest?_lt hm
  rw [UInt64.toNat_ofNat']
  split <;> omega

/-- The value of a numeral is an integer of 64 bits or a finite fraction. -/
theorem value?_cases {n : Numeral} {v : Json} (h : n.value? = some v) :
    (∃ i, v = .int i ∧ -2 ^ 63 ≤ i ∧ i < 2 ^ 64) ∨
      ∃ bits, v = .float bits ∧ bits.toNat % 2 ^ 63 < 2047 * 2 ^ 52 := by
  unfold value? at h
  split at h
  · unfold whole? at h
    split at h
    · next hrange =>
      cases h
      exact .inl ⟨_, rfl, by omega, by omega⟩
    · split at h
      · next hrange =>
        cases h
        exact .inl ⟨_, rfl, by omega, by omega⟩
      · exact .inr (float?_finite h)
  · exact .inr (float?_finite h)

end Numeral

end Outline
