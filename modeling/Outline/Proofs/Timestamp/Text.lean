import Mathlib.Algebra.Group.Int.Defs
import Mathlib.Algebra.Group.Nat.Defs
import Outline.Timestamp.Text

/-!
# Reading back a written time

A number that is written with leading zeros reads back when its width is known, and the fraction of
a second because the zone that ends it begins with no digit. Years are only written with four
digits where four digits are enough, so that is asked of the year. The loose reader finds no blanks
to skip in a written time, and no fewer digits than it takes at the most.

Main results:

* `Timestamp.readNumber?_padded` — a number of fixed width reads back;
* `Timestamp.ofText?_toOffsetText` — a time with a plain year reads back from a row;
* `Timestamp.ofText?_toOffsetText_eq_none` — a time without one does not;
* `Timestamp.ofLooseText?_toText` — and from a text in JSON.
-/

namespace Outline.Timestamp

/-! ## Numbers -/

theorem isDigit_eq (c : Char) : isDigit c = c.isDigit := by
  simp only [isDigit, Char.isDigit, Char.le_def, ge_iff_le]

theorem isDigit_of_mem_padded {width n : Nat} {c : Char} (hc : c ∈ padded width n) :
    isDigit c = true := by
  rcases List.mem_append.1 hc with hc | hc
  · rw [(List.mem_replicate.1 hc).2]
    rfl
  · rw [isDigit_eq]
    exact Nat.isDigit_of_mem_toDigits (b := 10) (by decide) (by decide) hc

theorem length_padded {width n : Nat} (hpos : 0 < width) (hn : n < 10 ^ width) :
    (padded width n).length = width := by
  have hle : (Nat.toDigits 10 n).length ≤ width :=
    (Nat.length_toDigits_le_iff (by decide) hpos).2 hn
  simp only [padded, List.length_append, List.length_replicate]
  omega

/-- Leading zeros count for nothing. -/
theorem ofDigitChars_padded (width n : Nat) : Nat.ofDigitChars 10 (padded width n) 0 = n := by
  rw [padded, Nat.ofDigitChars_append, Nat.ofDigitChars_replicate_zero, Nat.mul_zero,
    Nat.ofDigitChars_ten_toDigits]

/-- A number of fixed width reads back, whatever follows it, if no more digits are taken. -/
theorem readNumber?_padded {least width n : Nat} (hle : least ≤ width) (hpos : 0 < width)
    (hn : n < 10 ^ width) (rest : List Char) :
    readNumber? least width (padded width n ++ rest) = some (n, rest) := by
  have hlength := length_padded hpos hn
  have htake : (padded width n ++ rest).take width = padded width n := by
    rw [List.take_append_of_le_length (by omega), List.take_of_length_le (by omega)]
  have hdigits : (padded width n).takeWhile isDigit = padded width n := by
    have hall : (padded width n ++ []).takeWhile isDigit = padded width n ++ [] :=
      List.takeWhile_append_of_pos fun c hc => isDigit_of_mem_padded hc
    rwa [List.append_nil] at hall
  unfold readNumber?
  rw [htake]
  dsimp only
  rw [hdigits, if_neg (by omega), ofDigitChars_padded, List.drop_left]

/-- Something else than a fraction comes first, or nothing. -/
def Whole (rest : List Char) : Prop :=
  ∀ c ∈ rest.head?, isDigit c = false ∧ c ≠ '.'

theorem whole_cons {c : Char} {rest : List Char} (hdigit : isDigit c = false) (hpoint : c ≠ '.') :
    Whole (c :: rest) := by
  intro d hd
  obtain rfl : c = d := Option.some.inj hd
  exact ⟨hdigit, hpoint⟩

/-- The digits of a fraction end where no digit follows. As many as `width` of them count units of
`10 ^ (9 - width)` nanoseconds. -/
theorem readFraction?_padded {width n : Nat} (hpos : 0 < width) (hle : width ≤ 9)
    (hlt : n < 10 ^ width) {rest : List Char} (hrest : Whole rest) :
    readFraction? ('.' :: (padded width n ++ rest)) = some (n * 10 ^ (9 - width), rest) := by
  have hlength := length_padded hpos hlt
  have hdigit : ∀ c ∈ padded width n, isDigit c = true := fun c hc => isDigit_of_mem_padded hc
  have htake : (padded width n ++ rest).takeWhile isDigit = padded width n := by
    rw [List.takeWhile_append_of_pos hdigit]
    cases rest with
    | nil => simp
    | cons c rest => simp [(hrest c rfl).1]
  have hdrop : (padded width n ++ rest).dropWhile isDigit = rest := by
    rw [List.dropWhile_append_of_pos hdigit]
    cases rest with
    | nil => simp
    | cons c rest => simp [(hrest c rfl).1]
  have hne : padded width n ≠ [] := by
    intro hnil
    rw [hnil, List.length_nil] at hlength
    omega
  rw [readFraction?]
  dsimp only
  rw [htake, hdrop, if_neg hne, List.take_of_length_le (by omega), hlength, ofDigitChars_padded]

/-- The nanoseconds of a written fraction read back up to what follows it. -/
theorem readFraction?_writeFraction {nanos : Nat} (hn : nanos < 10 ^ 9) {rest : List Char}
    (hrest : Whole rest) : readFraction? (writeFraction nanos ++ rest) = some (nanos, rest) := by
  unfold writeFraction
  split
  · next hzero =>
    rw [hzero, List.nil_append]
    cases rest with
    | nil => rfl
    | cons c rest =>
      unfold readFraction?
      split
      · next heq => exact absurd (List.cons.inj heq).1 (hrest c rfl).2
      · rfl
  -- whole milliseconds, whole microseconds, and all nine digits
  split
  · next hmod =>
    rw [List.cons_append, readFraction?_padded (by decide) (by decide) (by omega) hrest]
    congr 2
    omega
  split
  · next hmod =>
    rw [List.cons_append, readFraction?_padded (by decide) (by decide) (by omega) hrest]
    congr 2
    omega
  · rw [List.cons_append, readFraction?_padded (by decide) (by decide) (by omega) hrest]
    simp

/-! ## Times -/

theorem bind_of_eq_some {α β : Type} {x : Option α} {a : α} (h : x = some a)
    (f : α → Option β) : (x >>= f) = f a := by
  rw [h, Option.bind_eq_bind, Option.bind_some]

theorem daysInMonth_le (year : Int) (month : Nat) : daysInMonth year month ≤ 31 := by
  unfold daysInMonth
  repeat' split
  all_goals omega

/-- Month, day, hour, minute and second have two digits each. -/
theorem parts_lt (t : Timestamp) :
    t.date.month < 10 ^ 2 ∧ t.date.day < 10 ^ 2 ∧ t.hour < 10 ^ 2 ∧ t.minute < 10 ^ 2 ∧
      t.second < 10 ^ 2 := by
  obtain ⟨-, ⟨-, hmonth⟩, -, hday⟩ := t.date.isDate
  obtain ⟨hhour, hminute, hsecond, -⟩ := t.isTime
  have hdays := daysInMonth_le t.date.year t.date.month
  omega

theorem HasPlainYear.year_lt {t : Timestamp} (h : t.HasPlainYear) :
    t.date.year.natAbs < 10 ^ 4 := by
  obtain ⟨hmin, hmax⟩ := h
  omega

theorem HasPlainYear.writeYear_eq {t : Timestamp} (h : t.HasPlainYear) :
    writeYear t.date.year = padded 4 t.date.year.natAbs :=
  if_pos h

theorem HasPlainYear.date_of? {t : Timestamp} (h : t.HasPlainYear) :
    Date.of? t.date.year.natAbs t.date.month t.date.day = some t.date := by
  have habs : (t.date.year.natAbs : Int) = t.date.year := Int.natAbs_of_nonneg h.1
  rw [habs, Date.of?_self]

theorem expect?_self (c : Char) (rest : List Char) : expect? c (c :: rest) = some rest := by
  rw [expect?, if_pos rfl]

theorem expectSeparator?_cons (rest : List Char) : expectSeparator? ('T' :: rest) = some rest := by
  rw [expectSeparator?, if_pos (.inl rfl)]

theorem readZone?_offset :
    readZone? (expect? ':') ['+', '0', '0', ':', '0', '0'] = some (0, []) := by
  decide

/-- A time with a plain year reads back from its text in a row. -/
theorem ofText?_toOffsetText {t : Timestamp} (h : t.HasPlainYear) :
    ofText? t.toOffsetText = some t := by
  obtain ⟨hmonth, hday, hhour, hminute, hsecond⟩ := t.parts_lt
  have hwidth : ∀ {n : Nat} (rest : List Char), n < 10 ^ 2 →
      readNumber? 2 2 (padded 2 n ++ rest) = some (n, rest) :=
    fun rest hn => readNumber?_padded (Nat.le_refl _) (by decide) hn rest
  -- each part reads what was written for it and hands on the rest
  rw [ofText?, toOffsetText, String.toList_ofList, write, h.writeYear_eq, ofList?]
  refine (bind_of_eq_some
    (readNumber?_padded (Nat.le_refl _) (by decide) h.year_lt _) _).trans ?_
  refine (bind_of_eq_some (expect?_self '-' _) _).trans ?_
  refine (bind_of_eq_some (hwidth _ hmonth) _).trans ?_
  refine (bind_of_eq_some (expect?_self '-' _) _).trans ?_
  refine (bind_of_eq_some (hwidth _ hday) _).trans ?_
  refine (bind_of_eq_some (expectSeparator?_cons _) _).trans ?_
  refine (bind_of_eq_some (hwidth _ hhour) _).trans ?_
  refine (bind_of_eq_some (expect?_self ':' _) _).trans ?_
  refine (bind_of_eq_some (hwidth _ hminute) _).trans ?_
  refine (bind_of_eq_some (expect?_self ':' _) _).trans ?_
  refine (bind_of_eq_some (hwidth _ hsecond) _).trans ?_
  refine (bind_of_eq_some
    (readFraction?_writeFraction t.isTime.2.2.2 (whole_cons rfl (by decide))) _).trans ?_
  refine (bind_of_eq_some readZone?_offset _).trans ?_
  refine (bind_of_eq_some h.date_of? _).trans ?_
  exact (if_pos rfl).trans (ofLocal?_zero t)

/-- Without four digits there is a sign, with which no year begins. -/
theorem ofText?_toOffsetText_eq_none {t : Timestamp} (h : ¬t.HasPlainYear) :
    ofText? t.toOffsetText = none := by
  have hyear : ∃ sign digits, writeYear t.date.year = sign :: digits ∧ isDigit sign = false := by
    have hlong : ¬(0 ≤ t.date.year ∧ t.date.year ≤ 9999) := h
    rw [writeYear, if_neg hlong]
    split
    · exact ⟨_, _, rfl, rfl⟩
    · exact ⟨_, _, rfl, rfl⟩
  obtain ⟨sign, digits, hyear, hsign⟩ := hyear
  have hread : ∀ cs, readNumber? 4 4 (sign :: cs) = none := by
    intro cs
    simp [readNumber?, hsign]
  rw [ofText?, toOffsetText, String.toList_ofList, write, hyear, ofList?, List.cons_append, hread]
  rfl

/-! ## Loosely read times -/

open Text (trimStart trimStart_cons)

/-- There are no blanks in front of digits. -/
theorem trimStart_padded {width n : Nat} (hpos : 0 < width) (hn : n < 10 ^ width)
    (rest : List Char) : trimStart (padded width n ++ rest) = padded width n ++ rest := by
  obtain ⟨c, cs, hcs⟩ : ∃ c cs, padded width n = c :: cs :=
    List.exists_cons_of_length_pos (by rw [length_padded hpos hn]; exact hpos)
  have hc : isDigit c = true := isDigit_of_mem_padded (hcs ▸ List.mem_cons_self)
  rw [isDigit_eq] at hc
  rw [hcs, List.cons_append, trimStart_cons (Text.isBlank_of_isDigit hc)]

theorem readLooseYear?_padded {n : Nat} (hn : n < 10 ^ 4) (rest : List Char) :
    readLooseYear? (padded 4 n ++ rest) = some ((n : Int), rest) := by
  obtain ⟨c, cs, hcs⟩ : ∃ c cs, padded 4 n = c :: cs :=
    List.exists_cons_of_length_pos (by rw [length_padded (by decide) hn]; decide)
  have hc : isDigit c = true := isDigit_of_mem_padded (hcs ▸ List.mem_cons_self)
  have hsign : ∀ {sign : Char} {more : List Char}, isDigit sign = false →
      padded 4 n ++ rest ≠ sign :: more := by
    intro sign more hsign heq
    rw [hcs, List.cons_append] at heq
    rw [(List.cons.inj heq).1, hsign] at hc
    cases hc
  unfold readLooseYear?
  rw [trimStart_padded (by decide) hn]
  -- a digit is no sign
  split
  · next heq => exact absurd heq (hsign rfl)
  · next heq => exact absurd heq (hsign rfl)
  · rw [readNumber?_padded (by decide) (by decide) hn]
    rfl

theorem readLooseZone?_utc : readLooseZone? ['Z'] = some (0, []) := by
  decide

/-- A time with a plain year reads back from its text in JSON. -/
theorem ofLooseText?_toText {t : Timestamp} (h : t.HasPlainYear) :
    ofLooseText? t.toText = some t := by
  obtain ⟨hmonth, hday, hhour, hminute, hsecond⟩ := t.parts_lt
  have hwidth : ∀ {n : Nat} (rest : List Char), n < 10 ^ 2 →
      readLoose? 2 (padded 2 n ++ rest) = some (n, rest) := by
    intro n rest hn
    rw [readLoose?, trimStart_padded (by decide) hn, readNumber?_padded (by decide) (by decide) hn]
  have hhyphen : ∀ rest, expectLoose? '-' ('-' :: rest) = some rest := by
    intro rest
    rw [expectLoose?, trimStart_cons (by decide), expect?_self]
  have hcolon : ∀ rest, expectLoose? ':' (':' :: rest) = some rest := by
    intro rest
    rw [expectLoose?, trimStart_cons (by decide), expect?_self]
  -- each part reads what was written for it and hands on the rest
  rw [ofLooseText?, toText, String.toList_ofList, write, h.writeYear_eq, ofLooseList?]
  refine (bind_of_eq_some (readLooseYear?_padded h.year_lt _) _).trans ?_
  refine (bind_of_eq_some (hhyphen _) _).trans ?_
  refine (bind_of_eq_some (hwidth _ hmonth) _).trans ?_
  refine (bind_of_eq_some (hhyphen _) _).trans ?_
  refine (bind_of_eq_some (hwidth _ hday) _).trans ?_
  refine (bind_of_eq_some (expectSeparator?_cons _) _).trans ?_
  refine (bind_of_eq_some (hwidth _ hhour) _).trans ?_
  refine (bind_of_eq_some (hcolon _) _).trans ?_
  refine (bind_of_eq_some (hwidth _ hminute) _).trans ?_
  refine (bind_of_eq_some (hcolon _) _).trans ?_
  refine (bind_of_eq_some (hwidth _ hsecond) _).trans ?_
  refine (bind_of_eq_some
    (readFraction?_writeFraction t.isTime.2.2.2 (whole_cons rfl (by decide))) _).trans ?_
  refine (bind_of_eq_some readLooseZone?_utc _).trans ?_
  refine (bind_of_eq_some h.date_of? _).trans ?_
  exact (if_pos rfl).trans (ofLocal?_zero t)

end Outline.Timestamp
