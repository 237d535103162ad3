import Outline.Config.Basic
import Outline.Text.Blank

/-!
# Configuration from the environment

Three variables override the standard configuration. White space around a value is ignored; the
rest is decimal digits with an optional plus sign, or a minus sign for the gap. The variables are
read in order and the first unusable one is reported; then the limits are checked.
-/

namespace Outline.Config

-- powers are the built-in ones, whatever else is imported
attribute [local instance (2000)] instPowNat

def gapVariable : String := "PAGETREE_SORT_GAP"
def retriesVariable : String := "PAGETREE_CONFLICT_RETRIES"
def timeoutVariable : String := "PAGETREE_OPERATION_TIMEOUT_MS"

/-- One or more decimal digits. -/
def digits? (cs : List Char) : Option Nat :=
  if cs ≠ [] ∧ cs.all (fun c => '0' ≤ c && c ≤ '9') then some (Nat.ofDigitChars 10 cs 0) else none

/-- Digits after an optional plus sign. -/
def unsigned? : List Char → Option Nat
  | '+' :: rest => digits? rest
  | cs => digits? cs

/-- Digits after an optional sign. -/
def signed? : List Char → Option Int
  | '-' :: rest => (digits? rest).map fun n => -(n : Int)
  | cs => (unsigned? cs).map fun n => (n : Int)

def parseKey? (cs : List Char) : Option SortKey :=
  signed? cs >>= SortKey.ofInt?

/-- A natural number below `bound`. -/
def parseBelow? (bound : Nat) (cs : List Char) : Option Nat :=
  (unsigned? cs).filter (· < bound)

/-- Read a variable: `default` when it is not set, and a fault that quotes its text when the text
without white space around it has no value. -/
def readSetting {α : Type} (lookup : String → Option String) (setting : String)
    (parse : List Char → Option α) (default : α) : Except ConfigFault α :=
  match lookup setting with
  | none => .ok default
  | some value =>
    match parse (Text.trim value.toList) with
    | some a => .ok a
    | none => .error (.badValue setting value)

/-- The configuration that the variables describe. -/
def ofVariables (lookup : String → Option String) : Except ConfigFault Config := do
  let sortGap ← readSetting lookup gapVariable parseKey? standard.sortGap
  let conflictRetries ←
    readSetting lookup retriesVariable (parseBelow? (2 ^ (32 : Nat))) standard.conflictRetries
  let timeout ←
    readSetting lookup timeoutVariable (fun cs => (parseBelow? (2 ^ (64 : Nat)) cs).map some)
      standard.timeout
  let config : Config := ⟨sortGap, conflictRetries, timeout⟩
  config.check
  return config

end Outline.Config
