import Outline.Json.Record

/-!
# Configuration

How far apart fresh sort keys lie, how often a write is repeated that lost its key to another
writer, and how long an operation may take. A configuration may hold any numbers that fit its
fields; `Config.check` says whether they make sense.

Main results:

* `Config.check_eq_ok_iff` — which configurations are accepted;
* `Config.gap_size` — an accepted gap is used as it is.
-/

namespace Outline

-- powers are the built-in ones, whatever else is imported
attribute [local instance (2000)] instPowNat

structure Config where
  /-- The distance between fresh keys. -/
  sortGap : SortKey
  /-- How often a write that met a taken key is run again. -/
  conflictRetries : Nat
  /-- The time an operation may take, in milliseconds. -/
  timeout : Option Nat
  deriving DecidableEq

/-- Why a configuration is refused. -/
inductive ConfigFault where
  | smallGap (gap : SortKey)
  | manyRetries
  | noTime
  /-- The text given for a setting is no number of its range. -/
  | badValue (setting value : String)
  /-- A reason given in words. -/
  | stated (reason : String)
  deriving DecidableEq

namespace Config

/-- More retries than this would hide a fault rather than resolve a conflict. -/
def maxRetries : Nat := 16

end Config

namespace ConfigFault

def message : ConfigFault → String
  | .smallGap gap => s!"sort_gap must be at least 2, got {gap}"
  | .manyRetries => s!"conflict_retries cannot exceed {Config.maxRetries}"
  | .noTime => "operation_timeout_ms must be greater than 0"
  | .badValue setting value => s!"{setting} has an invalid value: '{value}'"
  | .stated reason => reason

end ConfigFault

namespace Config

def standard : Config := ⟨Gap.standard.size, 1, none⟩

instance : Inhabited Config := ⟨standard⟩

/-- The first limit that is broken, if any. -/
def check (c : Config) : Except ConfigFault Unit :=
  if c.sortGap.val < 2 then .error (.smallGap c.sortGap)
  else if maxRetries < c.conflictRetries then .error .manyRetries
  else if c.timeout = some 0 then .error .noTime
  else .ok ()

/-- The gap for a store that follows the configuration. -/
def gap (c : Config) : Gap := .ofKey c.sortGap

theorem check_eq_ok_iff {c : Config} :
    c.check = .ok () ↔ 2 ≤ c.sortGap.val ∧ c.conflictRetries ≤ maxRetries ∧ c.timeout ≠ some 0 := by
  unfold check
  split
  · simp
    omega
  · split
    · simp
      omega
    · have h2 : 2 ≤ c.sortGap.val := by omega
      have hretries : c.conflictRetries ≤ maxRetries := by omega
      split <;> simp_all

theorem gap_size {c : Config} (h : c.check = .ok ()) : c.gap.size = c.sortGap := by
  have h2 := (check_eq_ok_iff.1 h).1
  exact SortKey.ext_val (by rw [gap, Gap.ofKey_size]; omega)

/-! ## JSON form -/

open Json (Reader Fields writeRecord writeInt writeOption)

def reader : Reader Config
  | depth, form => do
    let fields ← Fields.ofForm? ["sort_gap", "conflict_retries", "operation_timeout_ms"] depth form
    return {
      sortGap := ← fields.defaulted "sort_gap" .sortKey standard.sortGap
      conflictRetries := ←
        fields.defaulted "conflict_retries" (.nat (2 ^ (32 : Nat))) standard.conflictRetries
      timeout := ← fields.defaultedOptional "operation_timeout_ms" (.nat (2 ^ (64 : Nat))) }

def writeJson (c : Config) : List Char :=
  writeRecord [
    ("sort_gap", writeInt c.sortGap.val),
    ("conflict_retries", writeInt c.conflictRetries),
    ("operation_timeout_ms", writeOption (fun n : Nat => writeInt n) c.timeout)]

end Config

end Outline
