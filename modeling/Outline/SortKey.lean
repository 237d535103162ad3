/-!
# Sort keys

Siblings are ordered by signed 64-bit keys. A key is its integer together with the bounds, so
arithmetic on keys is done on integers, exactly, and a result becomes a key only when it fits.
The gap between fresh keys is a key that is at least 2, which leaves room for a midpoint.

Main results:

* `ofInt?_eq_some_iff` — an integer becomes a key exactly when it fits;
* `Gap.ofKey_size` — too small a gap is raised to 2.
-/

namespace Outline

-- powers are the built-in ones, whatever else is imported
attribute [local instance (2000)] instPowNat

structure SortKey where
  val : Int
  ge_min : -2 ^ (63 : Nat) ≤ val
  lt_max : val < 2 ^ (63 : Nat)
  deriving DecidableEq

namespace SortKey

def ofInt? (n : Int) : Option SortKey :=
  if h : -2 ^ (63 : Nat) ≤ n ∧ n < 2 ^ (63 : Nat) then some ⟨n, h.1, h.2⟩ else none

instance : Inhabited SortKey := ⟨⟨0, by decide, by decide⟩⟩

/-- The key a node carries until a store assigns its own. -/
def zero : SortKey := ⟨0, by decide, by decide⟩

instance : Ord SortKey := ⟨fun a b => compare a.val b.val⟩

instance : ToString SortKey := ⟨fun k => toString k.val⟩

theorem ext_val {a b : SortKey} (h : a.val = b.val) : a = b := by
  cases a
  cases b
  simp_all

theorem ofInt?_eq_some_iff {n : Int} {k : SortKey} : ofInt? n = some k ↔ n = k.val := by
  constructor
  · intro h
    unfold ofInt? at h
    split at h
    · cases h
      rfl
    · cases h
  · rintro rfl
    rw [ofInt?, dif_pos ⟨k.ge_min, k.lt_max⟩]

theorem ofInt?_eq_none_iff {n : Int} :
    ofInt? n = none ↔ ¬(-2 ^ (63 : Nat) ≤ n ∧ n < 2 ^ (63 : Nat)) := by
  unfold ofInt?
  split
  · next h => exact ⟨nofun, fun hn => absurd h hn⟩
  · next h => exact ⟨fun _ => h, fun _ => rfl⟩

@[simp] theorem ofInt?_val (k : SortKey) : ofInt? k.val = some k :=
  ofInt?_eq_some_iff.2 rfl

theorem compare_eq (a b : SortKey) : compare a b = compare a.val b.val := rfl

instance : Std.TransOrd SortKey where
  eq_swap := Std.OrientedOrd.eq_swap (α := Int)
  isLE_trans := Std.TransOrd.isLE_trans (α := Int)

instance : Std.LawfulEqOrd SortKey where
  eq_of_compare {a b} h := ext_val (by simpa [compare_eq] using h)

end SortKey

/-- The distance between fresh neighbouring keys. -/
structure Gap where
  size : SortKey
  two_le : 2 ≤ size.val
  deriving DecidableEq

namespace Gap

/-- The gap of size `k`, or of size 2 when `k` is smaller: below 2 there is no midpoint. -/
def ofKey (k : SortKey) : Gap :=
  if h : 2 ≤ k.val then ⟨k, h⟩ else ⟨⟨2, by decide, by decide⟩, by decide⟩

/-- The gap of a store that was given none. -/
def standard : Gap := ⟨⟨1000, by decide, by decide⟩, by decide⟩

instance : Inhabited Gap := ⟨standard⟩

theorem ofKey_size (k : SortKey) : (ofKey k).size.val = max k.val 2 := by
  unfold ofKey
  split <;> simp <;> omega

end Gap

end Outline
