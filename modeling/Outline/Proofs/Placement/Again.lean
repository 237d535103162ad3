import Mathlib.Data.List.Basic
import Outline.Proofs.Placement.Room

/-!
# Placing a node at one key twice

A node that is placed at a key a second time stays where it is, unless the first time has moved the
key. A key that no other member holds is simply taken, twice. If a member holds the key, the group
is respread with the node directly before that member, and from then on the key may lie elsewhere
among the new keys. The node then leaves its place for the one before whoever stands at the key now.
It stays exactly when the key is still above the new keys before the node, and not above the first
new key behind it.

The second placement never fails if the first has not, since it has no more keys to give out.

Main results:

* `Gap.placeAt_again` — the second placement is found, and whether it keeps the order;
* `Gap.steady_placed` — a third one always does;
* `Gap.pos_of_placeAt_again` — a second respreading meets positive keys only.
-/

namespace Outline

open Sibling (Ascending)

variable {gap : Gap} {members : List Sibling} {moving : Uuid} {target : SortKey} {p : Placement}

namespace Gap

/-- Among `others`, a node stays at its place when it is placed at `target` once more. -/
def Steady (gap : Gap) (others : List Sibling) (target : SortKey) : Prop :=
  let before := (others.takeWhile (·.sort.val < target.val)).length
  (∀ m ∈ others, m.sort ≠ target) ∨
    (before = 0 ∨ before * gap.size.val < target.val) ∧ target.val ≤ (before + 2) * gap.size.val

instance (gap : Gap) (others : List Sibling) (target : SortKey) :
    Decidable (gap.Steady others target) :=
  inferInstanceAs (Decidable (_ ∨ _))

/-! ## Parts of a spread group -/

theorem spreadFrom?_cons {n : Nat} {id : Uuid} {ids : List Uuid}
    (h : gap.spreadFrom? n (id :: ids) = some members) :
    ∃ sort rest, members = ⟨id, sort⟩ :: rest ∧ sort.val = (n + 1) * gap.size.val ∧
      gap.spreadFrom? (n + 1) ids = some rest := by
  rw [spreadFrom?] at h
  split at h
  · next sort rest hsort hrest =>
    cases h
    exact ⟨sort, rest, rfl, (SortKey.ofInt?_eq_some_iff.1 hsort).symm, hrest⟩
  · cases h

/-- The members behind the first ones are spread from where these end. -/
theorem spreadFrom?_append {n : Nat} {ids ids' : List Uuid}
    (h : gap.spreadFrom? n (ids ++ ids') = some members) :
    ∃ first rest, members = first ++ rest ∧ gap.spreadFrom? n ids = some first ∧
      gap.spreadFrom? (n + ids.length) ids' = some rest := by
  induction ids generalizing n members with
  | nil => exact ⟨[], members, rfl, rfl, h⟩
  | cons id ids ih =>
    obtain ⟨sort, tail, rfl, hsort, htail⟩ := spreadFrom?_cons h
    obtain ⟨first, rest, rfl, hfirst, hrest⟩ := ih htail
    refine ⟨⟨id, sort⟩ :: first, rest, rfl, ?_, ?_⟩
    · rw [spreadFrom?, ← hsort, SortKey.ofInt?_val, hfirst]
    · rwa [List.length_cons, ← Nat.add_assoc, Nat.add_right_comm]

theorem key_head_of_spreadFrom? {n : Nat} {ids : List Uuid}
    (h : gap.spreadFrom? (n + 1) ids = some members) :
    ∀ m ∈ members.head?, m.sort.val = (n + 2) * gap.size.val := by
  intro m hm
  obtain ⟨rest, rfl⟩ := List.head?_eq_some_iff.1 hm
  cases ids with
  | nil => cases h
  | cons id ids =>
    obtain ⟨sort, rest, heq, hsort, -⟩ := spreadFrom?_cons h
    obtain ⟨rfl, -⟩ := List.cons.inj heq
    rw [hsort]
    exact congrArg (· * gap.size.val) (by push_cast; omega)

/-- All new keys are below a bound exactly when the last one is. -/
theorem forall_lt_iff_of_spreadFrom? {n : Nat} {ids : List Uuid}
    (h : gap.spreadFrom? n ids = some members) (bound : Int) :
    (∀ m ∈ members, m.sort.val < bound) ↔
      ids.length = 0 ∨ (n + ids.length) * gap.size.val < bound := by
  -- the new keys are multiples of the gap, of which the last is the largest
  have hkeys : (∀ m ∈ members, m.sort.val < bound) ↔
      ∀ i ∈ List.range' (n + 1) ids.length, (i : Int) * gap.size.val < bound := by
    have hmem : (∀ x ∈ members.map (·.sort.val), x < bound) ↔
        ∀ x ∈ (List.range' (n + 1) ids.length).map fun i : Nat => (i : Int) * gap.size.val,
          x < bound := by rw [keys_spreadFrom? h]
    rwa [List.forall_mem_map, List.forall_mem_map] at hmem
  rw [hkeys]
  constructor
  · intro hall
    rcases Nat.eq_zero_or_pos ids.length with hnil | hpos
    · exact .inl hnil
    · have hlast := hall (n + ids.length) (List.mem_range'_1.2 (by omega))
      exact .inr (by exact_mod_cast hlast)
  · rintro hlast i hi
    obtain ⟨hlow, hhigh⟩ := List.mem_range'_1.1 hi
    rcases hlast with hnil | hlast
    · omega
    · have hle : (i : Int) * gap.size.val ≤ (n + ids.length) * gap.size.val :=
        Int.mul_le_mul_of_nonneg_right (by omega) (Int.le_of_lt gap.size_pos)
      omega

end Gap

/-- What a list has before a place is all that stands before it with a property when the next one
does not have it. -/
theorem takeWhile_append_eq_left_iff {α : Type} {q : α → Bool} {left right : List α} :
    (left ++ right).takeWhile q = left ↔
      (∀ a ∈ left, q a = true) ∧ ∀ b ∈ right.head?, q b = false := by
  constructor
  · intro h
    have hleft : ∀ a ∈ left, q a = true := by
      intro a ha
      rw [← h] at ha
      exact List.mem_takeWhile_imp ha
    rw [List.takeWhile_append_of_pos hleft] at h
    refine ⟨hleft, fun b hb => ?_⟩
    obtain ⟨rest, rfl⟩ := List.head?_eq_some_iff.1 hb
    have hnil := List.append_right_eq_self.1 h
    rw [List.takeWhile_cons] at hnil
    split at hnil
    · cases hnil
    · next hq => simpa using hq
  · rintro ⟨hleft, hhead⟩
    rw [List.takeWhile_append_of_pos hleft]
    cases right with
    | nil => simp
    | cons b rest => simp [hhead b rfl]

namespace Gap

/-! ## The second placement -/

/-- In a group in key order, the node is put where the key cuts the others in two. -/
theorem placeAt_puts_of_ascending (ha : Ascending members)
    (h : gap.placeAt members moving target = .ok p) :
    let cut := Target.cut (members.filter (·.id ≠ moving)) (.at target)
    p.Puts cut.1 moving cut.2 := by
  have hothers := Sibling.others_of_ascending ha moving
  have hputs := placeAt_puts (hothers.symm ▸ ha.filter _) h
  rwa [hothers] at hputs

/-- How a node was placed at a key: the key was free, or the group has been respread. -/
theorem placeAt_eq_ok (ha : Ascending members) (h : gap.placeAt members moving target = .ok p) :
    let others := members.filter (·.id ≠ moving)
    let cut := Target.cut others (.at target)
    ((∀ m ∈ others, m.sort ≠ target) ∧ p = .key target) ∨
      (¬(∀ m ∈ others, m.sort ≠ target) ∧ cut.2 ≠ [] ∧ ∃ respread, p = .respread respread ∧
        gap.spreadFrom? 0 (cut.1.map (·.id) ++ moving :: cut.2.map (·.id)) = some respread) := by
  intro others cut
  have hothers : Sibling.others members moving = others := Sibling.others_of_ascending ha moving
  have hends := gap.ends_placeAt members moving target
  rw [hothers, h] at hends
  by_cases hfree : ∀ m ∈ others, m.sort ≠ target
  · rw [placeAt_of_free (hothers.symm ▸ hfree)] at h
    exact .inl ⟨hfree, (Except.ok.inj h).symm⟩
  · refine .inr ⟨hfree, fun hnil => hfree fun m hm heq => ?_, ?_⟩
    -- the holder of the key is not below it
    · have hlow := List.dropWhile_eq_nil_iff.1 hnil m hm
      rw [heq] at hlow
      simp at hlow
    · cases p with
      | key sort => exact absurd (hends.key.1 ⟨sort, rfl⟩) hfree
      | respread respread =>
        obtain ⟨ids, hspread⟩ := spread_of_placeAt h
        have hputs := placeAt_puts_of_ascending ha h
        have hids : ids = cut.1.map (·.id) ++ moving :: cut.2.map (·.id) :=
          (ids_spreadFrom? (spread_eq_ok hspread)).symm.trans hputs.ids
        exact ⟨respread, rfl, hids ▸ spread_eq_ok hspread⟩

theorem not_mem_others (members : List Sibling) (moving : Uuid) :
    moving ∉ (members.filter (·.id ≠ moving)).map (·.id) := by
  intro hmem
  obtain ⟨m, hm, hid⟩ := List.mem_map.1 hmem
  exact of_decide_eq_true (List.mem_filter.1 hm).2 hid

theorem not_mem_cut (members : List Sibling) (moving : Uuid) (target : Target) :
    moving ∉ ((target.cut (members.filter (·.id ≠ moving))).1 ++
      (target.cut (members.filter (·.id ≠ moving))).2).map (·.id) := by
  rw [Target.cut_append]
  exact not_mem_others members moving

/-- Taking the node out leaves the parts around it. -/
theorem filter_parts {below above : List Sibling} (sort : SortKey)
    (hout : moving ∉ (below ++ above).map (·.id)) :
    (below ++ ⟨moving, sort⟩ :: above).filter (·.id ≠ moving) = below ++ above := by
  rw [List.filter_append, List.filter_cons, if_neg (by simp), ← List.filter_append]
  refine List.filter_eq_self.2 fun m hm => decide_eq_true ?_
  rintro rfl
  exact hout (List.mem_map_of_mem hm)

/-- Around the node, a respread group is its parts with new keys. -/
theorem exists_parts_of_spreadFrom? {left right respread : List Sibling}
    (hout : moving ∉ (left ++ right).map (·.id))
    (h : gap.spreadFrom? 0 (left.map (·.id) ++ moving :: right.map (·.id)) = some respread) :
    ∃ below sort above, respread = below ++ ⟨moving, sort⟩ :: above ∧
      gap.spreadFrom? 0 (left.map (·.id)) = some below ∧
      gap.spreadFrom? (left.length + 1) (right.map (·.id)) = some above ∧
      moving ∉ (below ++ above).map (·.id) := by
  obtain ⟨below, rest, rfl, hbelow, hrest⟩ := spreadFrom?_append h
  obtain ⟨sort, above, rfl, -, habove⟩ := spreadFrom?_cons hrest
  rw [List.length_map, Nat.zero_add] at habove
  refine ⟨below, sort, above, rfl, hbelow, habove, ?_⟩
  rw [List.map_append, ids_spreadFrom? hbelow, ids_spreadFrom? habove, ← List.map_append]
  exact hout

/-- The node is put back between the parts around it exactly when all of the part before it, and no
more, is below the key. -/
theorem ids_settled_eq_iff {below above : List Sibling} {sort : SortKey}
    (hout : moving ∉ (below ++ above).map (·.id))
    (hputs : p.Puts (Target.cut (below ++ above) (.at target)).1 moving
      (Target.cut (below ++ above) (.at target)).2) :
    (p.settled (Target.cut (below ++ above) (.at target)).1 moving
        (Target.cut (below ++ above) (.at target)).2).map (·.id) =
        (below ++ ⟨moving, sort⟩ :: above).map (·.id) ↔
      (below ++ above).takeWhile (·.sort.val < target.val) = below := by
  have hcut := Target.cut_append (below ++ above) (.at target)
  set cut := Target.cut (below ++ above) (.at target) with hcuteq
  have hfirst : (below ++ above).takeWhile (·.sort.val < target.val) = cut.1 := rfl
  rw [← hcut, List.map_append, List.mem_append, not_or] at hout
  rw [hputs.ids, hfirst, List.map_append, List.map_cons,
    List.append_cons_inj_of_notMem hout.1 hout.2]
  constructor
  · rintro ⟨hids, -⟩
    -- both are first parts of the others, and of one length
    have hlen := congrArg List.length hids
    rw [List.length_map, List.length_map] at hlen
    exact (List.append_inj hcut hlen).1
  · intro heq
    rw [heq] at hcut
    exact ⟨by rw [heq], rfl, by rw [List.append_cancel_left hcut]⟩

/-- A member of a group of which all new keys would fit is placed, be it by respreading. -/
theorem exists_placeAt (hin : moving ∈ members.map (·.id))
    (hfits : (members.length : Int) * gap.size.val < 2 ^ 63) (target : SortKey) :
    ∃ p, gap.placeAt members moving target = .ok p := by
  have hlength : (Sibling.others members moving).length < members.length := by
    rw [(Sibling.others_perm members moving).length_eq]
    obtain ⟨m, hm, hid⟩ := List.mem_map.1 hin
    exact List.length_filter_lt_length_iff_exists.2 ⟨m, hm, by simp [hid]⟩
  have hends := gap.ends_placeAt members moving target
  cases hplace : gap.placeAt members moving target with
  | ok p => exact ⟨p, rfl⟩
  | error cause =>
    have hfull := ((hends.exhausted cause).1 hplace).2.1
    have hle : ((Sibling.others members moving).length + 1 : Int) * gap.size.val ≤
        members.length * gap.size.val :=
      Int.mul_le_mul_of_nonneg_right (by omega) (Int.le_of_lt gap.size_pos)
    omega

theorem ascending_placed (ha : Ascending members)
    (h : gap.placeAt members moving target = .ok p) :
    let cut := Target.cut (members.filter (·.id ≠ moving)) (.at target)
    Ascending (p.settled cut.1 moving cut.2) := by
  exact (placeAt_puts_of_ascending ha h).ascending

/-- A lone key leaves the others as they were, so it is free again. -/
theorem placeAt_again_of_free (ha : Ascending members)
    (hfree : ∀ m ∈ members.filter (·.id ≠ moving), m.sort ≠ target) :
    let others := members.filter (·.id ≠ moving)
    let cut := Target.cut others (.at target)
    let once := cut.1 ++ ⟨moving, target⟩ :: cut.2
    once.filter (·.id ≠ moving) = others ∧
      gap.placeAt once moving target = .ok (.key target) := by
  intro others cut once
  have hcut : cut.1 ++ cut.2 = others := Target.cut_append others (.at target)
  have hsame : once.filter (·.id ≠ moving) = others :=
    (filter_parts target (not_mem_cut members moving _)).trans hcut
  have hplace : gap.placeAt members moving target = .ok (.key target) :=
    placeAt_of_free (by rwa [Sibling.others_of_ascending ha])
  have honce : Ascending once := ascending_placed ha hplace
  exact ⟨hsame, placeAt_of_free (by rwa [Sibling.others_of_ascending honce, hsame])⟩

/-- In a group that has been respread around a node there are keys for placing it again. -/
theorem exists_placeAt_of_spread {left right : List Uuid} {below above : List Sibling}
    {sort : SortKey}
    (h : gap.spreadFrom? 0 (left ++ moving :: right) = some (below ++ ⟨moving, sort⟩ :: above))
    (target : SortKey) :
    ∃ p', gap.placeAt (below ++ ⟨moving, sort⟩ :: above) moving target = .ok p' := by
  -- no more keys are needed than have been given out already
  have hin : moving ∈ (below ++ ⟨moving, sort⟩ :: above).map (·.id) :=
    List.mem_map.2 ⟨⟨moving, sort⟩, List.mem_append_right _ List.mem_cons_self, rfl⟩
  have hfits := fits_of_spreadFrom? (by simp) h
  rw [← ids_spreadFrom? h, List.length_map, Nat.zero_add] at hfits
  exact exists_placeAt hin hfits target

/-- All of the part before a node, and no more, is below a key when the key is above the new keys
there and not above the first one behind the node. -/
theorem takeWhile_spread_iff {left right : List Uuid} {below above : List Sibling}
    (hbelow : gap.spreadFrom? 0 left = some below)
    (habove : gap.spreadFrom? (left.length + 1) right = some above) (hright : right ≠ [])
    (target : SortKey) :
    (below ++ above).takeWhile (·.sort.val < target.val) = below ↔
      (left.length = 0 ∨ left.length * gap.size.val < target.val) ∧
        target.val ≤ (left.length + 2) * gap.size.val := by
  obtain ⟨next, rest, rfl⟩ : ∃ next rest, above = next :: rest := by
    refine List.exists_cons_of_ne_nil fun hnil => hright ?_
    rw [← ids_spreadFrom? habove, hnil, List.map_nil]
  have hlow := forall_lt_iff_of_spreadFrom? hbelow target.val
  have hnext := key_head_of_spreadFrom? habove next rfl
  rw [Int.natCast_zero, Int.zero_add] at hlow
  rw [takeWhile_append_eq_left_iff]
  simp only [decide_eq_true_eq, decide_eq_false_iff_not, List.head?_cons, Option.mem_def,
    Option.some.injEq, forall_eq', Int.not_lt, hlow, hnext]

/-- A node that has been placed at a key can be placed there again, and the order stays as it is
exactly when the key is steady. -/
theorem placeAt_again (ha : Ascending members) (h : gap.placeAt members moving target = .ok p) :
    let others := members.filter (·.id ≠ moving)
    let cut := Target.cut others (.at target)
    let once := p.settled cut.1 moving cut.2
    let cut' := Target.cut (once.filter (·.id ≠ moving)) (.at target)
    ∃ p', gap.placeAt once moving target = .ok p' ∧
      ((p'.settled cut'.1 moving cut'.2).map (·.id) = once.map (·.id) ↔
        gap.Steady others target) := by
  intro others cut once cut'
  have honce : Ascending once := ascending_placed ha h
  rcases placeAt_eq_ok ha h with ⟨hfree, rfl⟩ | ⟨hheld, hright, respread, rfl, hspread⟩
  -- the key is still free, so the node is put where it stands
  · obtain ⟨hsame, hagain⟩ := placeAt_again_of_free ha hfree
    refine ⟨.key target, hagain, iff_of_true ?_ (.inl hfree)⟩
    rw [show cut' = cut from congrArg (Target.cut · (.at target)) hsame]
  · -- the others are now the parts around the node, with new keys
    obtain ⟨below, sort, above, rfl, hbelow, habove, hout⟩ :=
      exists_parts_of_spreadFrom? (not_mem_cut members moving _) hspread
    have hparts : once.filter (·.id ≠ moving) = below ++ above := filter_parts sort hout
    obtain ⟨p', hp'⟩ : ∃ p', gap.placeAt once moving target = .ok p' :=
      exists_placeAt_of_spread hspread target
    refine ⟨p', hp', ?_⟩
    have hputs := placeAt_puts_of_ascending honce hp'
    rw [hparts] at hputs
    rw [show cut' = Target.cut (below ++ above) (.at target) from
      congrArg (Target.cut · (.at target)) hparts]
    rw [← show (cut.1.map (·.id)).length = cut.1.length from List.length_map _] at habove
    have hiff := takeWhile_spread_iff hbelow habove (by simpa using hright) target
    rw [List.length_map] at hiff
    exact (ids_settled_eq_iff hout hputs).trans (hiff.trans (or_iff_right hheld).symm)

/-- In key order, whoever holds a key stands directly behind all that is below it. -/
theorem exists_split_at_holder (ha : Ascending members)
    (hheld : ¬∀ m ∈ members, m.sort ≠ target) :
    ∃ before holder rest, members = before ++ holder :: rest ∧ holder.sort = target ∧
      members.takeWhile (·.sort.val < target.val) = before := by
  obtain ⟨holder, hmem, rfl⟩ : ∃ m ∈ members, m.sort = target := by simpa using hheld
  obtain ⟨before, rest, rfl⟩ := List.append_of_mem hmem
  refine ⟨before, holder, rest, rfl, rfl, takeWhile_append_eq_left_iff.2 ⟨fun m hm => ?_, ?_⟩⟩
  · exact decide_eq_true ((List.pairwise_append.1 ha).2.2 m hm holder List.mem_cons_self)
  · simp

/-- In a group that has been respread around a node, a key that a member holds is above the new
keys before that member, and not above the place behind it, so it is steady. -/
theorem steady_of_spread {ids ids' : List Uuid} {below above : List Sibling}
    (hbelow : gap.spreadFrom? 0 ids = some below)
    (habove : gap.spreadFrom? (ids.length + 1) ids' = some above)
    (ha : Ascending (below ++ above)) (target : SortKey) : gap.Steady (below ++ above) target := by
  have hkeys : (below ++ above).map (·.sort.val) =
      (List.range' 1 ids.length ++ List.range' (ids.length + 2) ids'.length).map
        fun i : Nat => (i : Int) * gap.size.val := by
    rw [List.map_append, List.map_append, keys_spreadFrom? hbelow, keys_spreadFrom? habove]
  by_cases hfree : ∀ m ∈ below ++ above, m.sort ≠ target
  · exact .inl hfree
  obtain ⟨before, holder, rest, hsplit, rfl, hbefore⟩ := exists_split_at_holder ha hfree
  -- the key of member number `j` is the one with number `j + 1` or `j + 2`
  have hkey : ((below ++ above).map (·.sort.val))[before.length]? = some holder.sort.val := by
    rw [hsplit, List.map_append, List.getElem?_append_right (by simp)]
    simp
  rw [hkeys, List.getElem?_map] at hkey
  obtain ⟨i, hi, hsort⟩ := Option.map_eq_some_iff.1 hkey
  have hnear : before.length + 1 ≤ i ∧ i ≤ before.length + 2 := by
    rw [List.getElem?_append, List.length_range'] at hi
    have hnumber : ∀ {s n j : Nat}, (List.range' s n)[j]? = some i → i = s + j := by
      intro s n j hj
      obtain ⟨hlt, hj⟩ := List.getElem?_eq_some_iff.1 hj
      rw [List.getElem_range'] at hj
      omega
    split at hi
    · have := hnumber hi
      omega
    · have := hnumber hi
      omega
  have hsize := Int.le_of_lt gap.size_pos
  refine .inr ?_
  rw [hbefore, ← hsort]
  refine ⟨?_, ?_⟩
  · rcases Nat.eq_zero_or_pos before.length with hnone | hsome
    · exact .inl hnone
    · exact .inr (Int.mul_lt_mul_of_pos_right (by omega) gap.size_pos)
  · exact Int.mul_le_mul_of_nonneg_right (by omega) hsize

/-- Once a node has been placed at a key, the key is steady. -/
theorem steady_placed (ha : Ascending members) (h : gap.placeAt members moving target = .ok p) :
    let cut := Target.cut (members.filter (·.id ≠ moving)) (.at target)
    gap.Steady ((p.settled cut.1 moving cut.2).filter (·.id ≠ moving)) target := by
  intro cut
  have honce : Ascending (p.settled cut.1 moving cut.2) := ascending_placed ha h
  rcases placeAt_eq_ok ha h with ⟨hfree, rfl⟩ | ⟨-, -, respread, rfl, hspread⟩
  · rw [show ((Placement.key target).settled cut.1 moving cut.2).filter (·.id ≠ moving) =
      members.filter (·.id ≠ moving) from (@placeAt_again_of_free gap _ _ _ ha hfree).1]
    exact .inl hfree
  · obtain ⟨below, sort, above, rfl, hbelow, habove, hout⟩ :=
      exists_parts_of_spreadFrom? (not_mem_cut members moving _) hspread
    have hparts := filter_parts sort hout
    rw [show ((Placement.respread (below ++ ⟨moving, sort⟩ :: above)).settled cut.1 moving
      cut.2).filter (·.id ≠ moving) = below ++ above from hparts]
    refine steady_of_spread hbelow (by rwa [List.length_map]) ?_ target
    exact hparts ▸ honce.filter _

/-- A second respreading comes after a first one, so it meets positive keys only. -/
theorem pos_of_placeAt_again (ha : Ascending members)
    (h : gap.placeAt members moving target = .ok p) {again : List Sibling} :
    let cut := Target.cut (members.filter (·.id ≠ moving)) (.at target)
    gap.placeAt (p.settled cut.1 moving cut.2) moving target = .ok (.respread again) →
      ∀ m ∈ p.settled cut.1 moving cut.2, 0 < m.sort.val := by
  intro cut hagain
  rcases placeAt_eq_ok ha h with ⟨hfree, rfl⟩ | ⟨-, -, respread, rfl, hspread⟩
  · have hkey := hagain.symm.trans (placeAt_again_of_free ha hfree).2
    cases hkey
  · exact pos_of_spreadFrom? hspread

end Gap

end Outline
