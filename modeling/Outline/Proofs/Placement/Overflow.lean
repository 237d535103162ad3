import Mathlib.Algebra.Group.Int.Defs
import Mathlib.Algebra.Group.Nat.Defs
import Mathlib.Data.List.TakeWhile
import Outline.Store.Error

/-!
# When keys run out

A placement fails only when a whole group has to be respread and its keys do not fit: the number of
members, the new one included, times the gap is no signed 64-bit integer. The refusal says so with
these two numbers.

Main results:

* `Gap.overflows_of_placeIn` — for a node that is placed;
* `Gap.overflows_of_compact` — for a group that is respread as it stands.
-/

namespace Outline

/-- The last of the keys for all members would leave the range of keys. -/
def Exhausted.Overflows (cause : Exhausted) : Prop :=
  2 ^ 63 ≤ cause.members * cause.gap

/-- The store has run out of keys, for the only reason there is. -/
def StoreError.Overflows : StoreError → Prop
  | .exhausted _ cause => cause.Overflows
  | _ => False

namespace Gap

variable {gap : Gap} {cause : Exhausted}

/-- A key does not fit only if the last one does not. -/
theorem overflow_of_spreadFrom? {ids : List Uuid} {n : Nat} (h : gap.spreadFrom? n ids = none) :
    2 ^ 63 ≤ ((n + ids.length : Nat) : Int) * gap.size.val := by
  have hsize : 0 ≤ gap.size.val := Int.le_trans (by decide) gap.two_le
  induction ids generalizing n with
  | nil => cases h
  | cons id rest ih =>
    rw [spreadFrom?] at h
    cases hkey : SortKey.ofInt? ((n + 1) * gap.size.val) with
    | none =>
      have hout := SortKey.ofInt?_eq_none_iff.1 hkey
      have hpos : 0 ≤ ((n : Int) + 1) * gap.size.val := Int.mul_nonneg (by omega) hsize
      have hlast : ((n : Int) + 1) * gap.size.val ≤
          ((n + (id :: rest).length : Nat) : Int) * gap.size.val := by
        refine Int.mul_le_mul_of_nonneg_right ?_ hsize
        rw [List.length_cons]
        omega
      omega
    | some sort =>
      cases hrest : gap.spreadFrom? (n + 1) rest with
      | none =>
        have hlast := ih hrest
        rwa [Nat.add_right_comm, Nat.add_assoc] at hlast
      | some members =>
        rw [hkey, hrest] at h
        cases h

theorem overflows_of_spread {ids : List Uuid} (h : gap.spread ids = .error cause) :
    cause.Overflows := by
  unfold spread at h
  split at h
  · cases h
  · next hnone =>
    cases h
    have hlast := overflow_of_spreadFrom? hnone
    rwa [Nat.zero_add] at hlast

theorem overflows_of_compact {group : List Sibling} (h : gap.compact group = .error cause) :
    cause.Overflows :=
  overflows_of_spread h

theorem overflows_of_respread {left right : List Sibling} {moving : Uuid}
    (h : gap.respread left moving right = .error cause) : cause.Overflows := by
  unfold respread at h
  cases hspread : gap.spread (left.map (·.id) ++ moving :: right.map (·.id)) with
  | ok members =>
    rw [hspread] at h
    cases h
  | error e =>
    rw [hspread] at h
    cases h
    exact overflows_of_spread hspread

theorem overflows_of_placeBetween {left right : List Sibling} {moving : Uuid}
    (h : gap.placeBetween left moving right = .error cause) : cause.Overflows := by
  unfold placeBetween at h
  split at h
  · cases h
  · exact overflows_of_respread h

theorem overflows_of_placeAt {group : List Sibling} {moving : Uuid} {sort : SortKey}
    (h : gap.placeAt group moving sort = .error cause) : cause.Overflows := by
  unfold placeAt at h
  dsimp only at h
  split at h
  · cases h
  · exact overflows_of_respread h

/-- No place is found only when keys have run out, given that an anchor is in the group. -/
theorem overflows_of_placeIn {group : Group} {members : List Sibling} {moving : Uuid}
    {target : Target} {e : StoreError}
    (hanchor : ∀ anchor side, target = .beside anchor side →
      anchor ≠ moving ∧ anchor ∈ members.map (·.id))
    (h : gap.placeIn group members moving target = .error e) : e.Overflows := by
  have hmapped : ∀ x : Except Exhausted Placement,
      (∀ cause, x = .error cause → cause.Overflows) →
        x.mapError (.exhausted group) = .error e → e.Overflows := by
    intro x hx hmap
    cases x with
    | ok p => cases hmap
    | error cause =>
      cases hmap
      exact hx cause rfl
  cases target with
  | last => exact hmapped _ (fun _ hx => overflows_of_placeBetween hx) h
  | «at» sort => exact hmapped _ (fun _ hx => overflows_of_placeAt hx) h
  | beside anchor side =>
    obtain ⟨hne, hmem⟩ := hanchor anchor side rfl
    obtain ⟨m, hm, rfl⟩ := List.mem_map.1 hmem
    -- the anchor is among the others, so the group is cut there
    have hfound : (Sibling.others members moving).dropWhile (·.id ≠ m.id) ≠ [] := by
      intro hnil
      have hall := List.dropWhile_eq_nil_iff.1 hnil m (Sibling.mem_others.2 ⟨hm, hne⟩)
      simp at hall
    obtain ⟨found, right, hcons⟩ := List.exists_cons_of_ne_nil hfound
    cases side <;> simp only [placeIn, placeBeside, hcons] at h <;>
      exact hmapped _ (fun _ hx => overflows_of_placeBetween hx) h

end Gap

end Outline
