/-!
# Hexadecimal numerals

Fixed-width hexadecimal text: identifiers are written with it, and so are the escapes of control
characters in JSON strings. Digits are written in lower case and read in either case.

Main results:

* `length_digits` — a numeral has the width asked for;
* `read?_digits` — a numeral of enough width reads back as its number.
-/

namespace Outline.Hex

-- powers are the built-in ones, whatever else is imported
attribute [local instance (2000)] instPowNat

/-- The value of a digit, in either case. -/
def value? (c : Char) : Option Nat :=
  if '0' ≤ c ∧ c ≤ '9' then some (c.toNat - '0'.toNat)
  else if 'a' ≤ c ∧ c ≤ 'f' then some (c.toNat - 'a'.toNat + 10)
  else if 'A' ≤ c ∧ c ≤ 'F' then some (c.toNat - 'A'.toNat + 10)
  else none

/-- The `width` last digits of `n`, most significant first. -/
def digits : Nat → Nat → List Char
  | 0, _ => []
  | width + 1, n => digits width (n / 16) ++ [Nat.digitChar (n % 16)]

/-- Continue reading with the digits read so far worth `acc`. -/
def readFrom? (acc : Nat) : List Char → Option Nat
  | [] => some acc
  | c :: rest => do readFrom? (acc * 16 + (← value? c)) rest

/-- The number a run of digits stands for; `none` when a character is no digit. -/
def read? (cs : List Char) : Option Nat :=
  readFrom? 0 cs

/-! ## Writing and reading -/

@[simp] theorem length_digits (width n : Nat) : (digits width n).length = width := by
  induction width generalizing n with
  | zero => rfl
  | succ width ih => simp [digits, ih]

theorem value?_digitChar : ∀ d < 16, value? (Nat.digitChar d) = some d := by decide

theorem readFrom?_append (acc : Nat) (cs ds : List Char) :
    readFrom? acc (cs ++ ds) = (readFrom? acc cs).bind (readFrom? · ds) := by
  induction cs generalizing acc with
  | nil => rfl
  | cons c rest ih => cases h : value? c <;> simp [readFrom?, h, ih]

theorem readFrom?_digits (acc width n : Nat) (hn : n < 16 ^ width) :
    readFrom? acc (digits width n) = some (acc * 16 ^ width + n) := by
  induction width generalizing n with
  | zero => simp_all [digits, readFrom?]
  | succ width ih =>
    have hq : n / 16 < 16 ^ width := by
      rw [Nat.pow_succ] at hn
      omega
    rw [digits, readFrom?_append, ih _ hq]
    simp only [Option.bind_some, readFrom?, value?_digitChar (n % 16) (by omega),
      Option.bind_eq_bind]
    rw [Nat.pow_succ, Nat.add_mul, Nat.mul_assoc]
    congr 1
    omega

theorem read?_digits {width n : Nat} (hn : n < 16 ^ width) : read? (digits width n) = some n := by
  simp [read?, readFrom?_digits 0 width n hn]

end Outline.Hex
