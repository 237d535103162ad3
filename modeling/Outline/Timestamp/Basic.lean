/-!
# Dates and instants

An instant is a date and a time of day in UTC, to the nanosecond, in the calendar that extends the
present leap year rule to all years. A minute may have a sixty-first second.

Main results:

* `Timestamp.ofLocal?_zero` — at offset zero the local reading is the instant itself.
-/

namespace Outline

-- powers are the built-in ones, whatever else is imported
attribute [local instance (2000)] instPowNat

def isLeapYear (year : Int) : Bool :=
  year % 4 = 0 && (year % 100 ≠ 0 || year % 400 = 0)

def daysInMonth (year : Int) (month : Nat) : Nat :=
  if month = 2 then (if isLeapYear year then 29 else 28)
  else if month = 4 ∨ month = 6 ∨ month = 9 ∨ month = 11 then 30
  else 31

/-- The conditions on the parts of a date. -/
def IsDate (year : Int) (month day : Nat) : Prop :=
  (-262143 ≤ year ∧ year ≤ 262142) ∧ (1 ≤ month ∧ month ≤ 12) ∧
    (1 ≤ day ∧ day ≤ daysInMonth year month)

instance (year : Int) (month day : Nat) : Decidable (IsDate year month day) :=
  inferInstanceAs (Decidable (_ ∧ _))

structure Date where
  year : Int
  month : Nat
  day : Nat
  isDate : IsDate year month day
  deriving DecidableEq

namespace Date

def of? (year : Int) (month day : Nat) : Option Date :=
  if h : IsDate year month day then some ⟨year, month, day, h⟩ else none

/-- The following day; the last day has none. -/
def next? (d : Date) : Option Date :=
  of? d.year d.month (d.day + 1) <|> of? d.year (d.month + 1) 1 <|> of? (d.year + 1) 1 1

/-- The day before; the first day has none. -/
def previous? (d : Date) : Option Date :=
  of? d.year d.month (d.day - 1) <|>
    of? d.year (d.month - 1) (daysInMonth d.year (d.month - 1)) <|> of? (d.year - 1) 12 31

theorem of?_self (d : Date) : of? d.year d.month d.day = some d := by
  simp [of?, d.isDate]

end Date

/-- The conditions on the parts of a time of day; second 60 is a leap second. -/
def IsTime (hour minute second nanos : Nat) : Prop :=
  hour < 24 ∧ minute < 60 ∧ second ≤ 60 ∧ nanos < 10 ^ (9 : Nat)

instance (hour minute second nanos : Nat) : Decidable (IsTime hour minute second nanos) :=
  inferInstanceAs (Decidable (_ ∧ _))

/-- An instant by its date and time of day in UTC. -/
structure Timestamp where
  date : Date
  hour : Nat
  minute : Nat
  second : Nat
  nanos : Nat
  isTime : IsTime hour minute second nanos
  deriving DecidableEq

namespace Timestamp

def of? (date : Date) (hour minute second nanos : Nat) : Option Timestamp :=
  if h : IsTime hour minute second nanos then some ⟨date, hour, minute, second, nanos, h⟩ else none

/-- The instant of a local reading whose clock is `offset` minutes ahead of UTC. The offset has to
be less than a day. -/
def ofLocal? (date : Date) (hour minute second nanos : Nat) (offset : Int) : Option Timestamp := do
  let time ← of? date hour minute second nanos
  if offset.natAbs < 1440 then
    -- with less than a day of offset the date moves by one day at the most
    let minutes : Int := hour * 60 + minute - offset
    let date ←
      if minutes < 0 then date.previous?
      else if minutes < 1440 then some date
      else date.next?
    let minutes := (minutes % 1440).toNat
    of? date (minutes / 60) (minutes % 60) time.second time.nanos
  else none

/-- Whether the year has four digits, as the strict notation demands. -/
def HasPlainYear (t : Timestamp) : Prop :=
  0 ≤ t.date.year ∧ t.date.year ≤ 9999

instance (t : Timestamp) : Decidable t.HasPlainYear :=
  inferInstanceAs (Decidable (_ ∧ _))

theorem ofLocal?_zero (t : Timestamp) :
    ofLocal? t.date t.hour t.minute t.second t.nanos 0 = some t := by
  obtain ⟨date, hour, minute, second, nanos, h⟩ := t
  have hm : ((hour : Int) * 60 + minute - 0) % 1440 = hour * 60 + minute := by
    have := h.1
    have := h.2.1
    omega
  have h1 : ¬((hour : Int) * 60 + minute - 0 < 0) := by omega
  have h2 : (hour : Int) * 60 + minute - 0 < 1440 := by
    have := h.1
    have := h.2.1
    omega
  have h3 : ((hour : Int) * 60 + minute).toNat = hour * 60 + minute := by omega
  have h4 : (hour * 60 + minute) / 60 = hour := by
    have := h.2.1
    omega
  have h5 : (hour * 60 + minute) % 60 = minute := by
    have := h.2.1
    omega
  simp only [ofLocal?, of?, dif_pos h, hm, if_neg h1, if_pos h2, h3, h4, h5]
  simp [h]

end Timestamp

end Outline
