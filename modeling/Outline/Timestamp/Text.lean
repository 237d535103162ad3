import Outline.Text.Blank
import Outline.Timestamp.Basic

/-!
# Written times

Instants are written in the notation of RFC 3339, in UTC: either with `Z`, as in JSON, or with
`+00:00`, as in stored rows. The fraction has no, three, six or nine digits. There are two
readers. The strict one takes exactly that notation with any offset. The loose one also takes
signed and long years, one-digit fields, blanks around the parts and `UTC` for the zone.
-/

namespace Outline.Timestamp

-- powers are the built-in ones, whatever else is imported
attribute [local instance (2000)] instPowNat

/-! ## Writing -/

/-- At least `width` decimal digits. -/
def padded (width n : Nat) : List Char :=
  let ds := Nat.toDigits 10 n
  List.replicate (width - ds.length) '0' ++ ds

/-- Four digits from year 0 to 9999, and a sign in front of at least four digits otherwise. -/
def writeYear (year : Int) : List Char :=
  if 0 ≤ year ∧ year ≤ 9999 then padded 4 year.natAbs
  else (if year < 0 then '-' else '+') :: padded 4 year.natAbs

/-- The shortest of no, three, six and nine digits that is exact. -/
def writeFraction (nanos : Nat) : List Char :=
  if nanos = 0 then []
  else if nanos % 10 ^ (6 : Nat) = 0 then '.' :: padded 3 (nanos / 10 ^ (6 : Nat))
  else if nanos % 10 ^ (3 : Nat) = 0 then '.' :: padded 6 (nanos / 10 ^ (3 : Nat))
  else '.' :: padded 9 nanos

def write (t : Timestamp) (zone : List Char) : List Char :=
  writeYear t.date.year ++ '-' :: (padded 2 t.date.month ++ '-' :: (padded 2 t.date.day ++
    'T' :: (padded 2 t.hour ++ ':' :: (padded 2 t.minute ++ ':' :: (padded 2 t.second ++
      (writeFraction t.nanos ++ zone))))))

/-- The form with `Z`. -/
def toText (t : Timestamp) : String :=
  String.ofList (t.write ['Z'])

/-- The form with a numeric offset. -/
def toOffsetText (t : Timestamp) : String :=
  String.ofList (t.write ['+', '0', '0', ':', '0', '0'])

/-! ## Parts shared by both readers -/

def isDigit (c : Char) : Bool :=
  '0' ≤ c && c ≤ '9'

/-- A number of at least `least` digits, of which `most` are taken at the most. -/
def readNumber? (least most : Nat) (cs : List Char) : Option (Nat × List Char) :=
  let ds := (cs.take most).takeWhile isDigit
  if ds.length < least then none else some (Nat.ofDigitChars 10 ds 0, cs.drop ds.length)

def expect? (c : Char) : List Char → Option (List Char)
  | d :: rest => if c = d then some rest else none
  | [] => none

/-- The nanoseconds after a point; digits beyond the ninth are dropped. -/
def readFraction? : List Char → Option (Nat × List Char)
  | '.' :: rest =>
    let ds := rest.takeWhile isDigit
    if ds = [] then none
    else
      let used := ds.take 9
      some (Nat.ofDigitChars 10 used 0 * 10 ^ (9 - used.length), rest.dropWhile isDigit)
  | cs => some (0, cs)

/-- The letter or blank between date and time. -/
def expectSeparator? : List Char → Option (List Char)
  | c :: rest => if c = 'T' ∨ c = 't' ∨ c = ' ' then some rest else none
  | [] => none

/-- Two digits each for hours and minutes, with what `skip` takes between them. -/
def readOffset? (skip : List Char → Option (List Char)) (sign : Int) (cs : List Char) :
    Option (Int × List Char) := do
  let (hours, rest) ← readNumber? 2 2 cs
  let rest ← skip rest
  let (minutes, rest) ← readNumber? 2 2 rest
  if minutes < 60 then some (sign * (hours * 60 + minutes : Nat), rest) else none

/-- The zone in minutes ahead of UTC: `Z`, or an offset with a hyphen or a true minus sign. -/
def readZone? (skip : List Char → Option (List Char)) : List Char → Option (Int × List Char)
  | c :: rest =>
    if c = 'Z' ∨ c = 'z' then some (0, rest)
    else if c = '+' then readOffset? skip 1 rest
    else if c = '-' ∨ c = '\u2212' then readOffset? skip (-1) rest
    else none
  | [] => none

/-! ## The strict reader -/

def ofList? (cs : List Char) : Option Timestamp := do
  let (year, cs) ← readNumber? 4 4 cs
  let cs ← expect? '-' cs
  let (month, cs) ← readNumber? 2 2 cs
  let cs ← expect? '-' cs
  let (day, cs) ← readNumber? 2 2 cs
  let cs ← expectSeparator? cs
  let (hour, cs) ← readNumber? 2 2 cs
  let cs ← expect? ':' cs
  let (minute, cs) ← readNumber? 2 2 cs
  let cs ← expect? ':' cs
  let (second, cs) ← readNumber? 2 2 cs
  let (nanos, cs) ← readFraction? cs
  let (offset, cs) ← readZone? (expect? ':') cs
  let date ← Date.of? year month day
  if cs = [] then ofLocal? date hour minute second nanos offset else none

def ofText? (s : String) : Option Timestamp :=
  ofList? s.toList

/-! ## The loose reader -/

open Text (trimStart isBlank)

/-- A number after blanks. -/
def readLoose? (most : Nat) (cs : List Char) : Option (Nat × List Char) :=
  readNumber? 1 most (trimStart cs)

/-- A year after blanks: up to four digits, or a sign and any number of them. -/
def readLooseYear? (cs : List Char) : Option (Int × List Char) :=
  match trimStart cs with
  | '-' :: rest => (readNumber? 1 rest.length rest).map fun (n, rest) => (-n, rest)
  | '+' :: rest => (readNumber? 1 rest.length rest).map fun (n, rest) => (n, rest)
  | cs => (readNumber? 1 4 cs).map fun (n, rest) => (n, rest)

/-- The character `c` after blanks. -/
def expectLoose? (c : Char) (cs : List Char) : Option (List Char) :=
  expect? c (trimStart cs)

/-- The zone after blanks: `UTC` in any case, or an offset with colons and blanks inside. -/
def readLooseZone? (cs : List Char) : Option (Int × List Char) :=
  let cs := trimStart cs
  if (cs.take 3).map Char.toUpper = ['U', 'T', 'C'] then some (0, cs.drop 3)
  else readZone? (fun cs => some (cs.dropWhile fun c => c = ':' || isBlank c)) cs

def ofLooseList? (cs : List Char) : Option Timestamp := do
  let (year, cs) ← readLooseYear? cs
  let cs ← expectLoose? '-' cs
  let (month, cs) ← readLoose? 2 cs
  let cs ← expectLoose? '-' cs
  let (day, cs) ← readLoose? 2 cs
  let cs ← expectSeparator? cs
  let (hour, cs) ← readLoose? 2 cs
  let cs ← expectLoose? ':' cs
  let (minute, cs) ← readLoose? 2 cs
  let cs ← expectLoose? ':' cs
  let (second, cs) ← readLoose? 2 cs
  let (nanos, cs) ← readFraction? cs
  let (offset, cs) ← readLooseZone? cs
  let date ← Date.of? year month day
  if trimStart cs = [] then ofLocal? date hour minute second nanos offset else none

def ofLooseText? (s : String) : Option Timestamp :=
  ofLooseList? s.toList

end Outline.Timestamp
