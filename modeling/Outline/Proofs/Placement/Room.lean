import Outline.Proofs.Placement.CarriedOut
import Outline.Proofs.Placement.Overflow
import Outline.Proofs.Placement.Words

/-!
# Where there is room for a key

A node gets a key of its own where one is free, whatever keys the group has: behind the last member
if its key and the gap still make a key; before the first if that has a positive key with another
below it; between two neighbours if their keys are two apart. Where there is no room the group is
respread, and only when the keys for that do not fit either has the group run out.

Main results:

* `Gap.between?_isSome_iff` — there is a key between two neighbours exactly when there is room;
* `Gap.spread_ok_iff`, `Gap.spread_error_iff` — a group is respread exactly when its last key fits;
* `Gap.placements_end` — which of the three ways a placement ends.
-/

namespace Outline

open Sibling (Ascending)

namespace Gap

/-- There is a key of its own between these neighbours. -/
def HasRoom (gap : Gap) : Option SortKey → Option SortKey → Prop
  | none, none => True
  | some below, none => below.val + gap.size.val < 2 ^ 63
  | none, some above => 2 ≤ above.val
  | some below, some above => 2 ≤ above.val - below.val

/-- How placing a node among `n` others ends: with a lone key exactly when there is room, otherwise
with new keys for all exactly when these fit, and otherwise in the refusal that says so. -/
structure Ends (gap : Gap) (n : Nat) (room : Prop) (outcome : Except Exhausted Placement) :
    Prop where
  key       : (∃ sort, outcome = .ok (.key sort)) ↔ room
  respread  : (∃ members, outcome = .ok (.respread members)) ↔
    ¬room ∧ (n + 1) * gap.size.val < 2 ^ 63
  exhausted : ∀ cause, outcome = .error cause ↔
    ¬room ∧ 2 ^ 63 ≤ (n + 1) * gap.size.val ∧ cause = ⟨n + 1, gap.size.val⟩

end Gap

/-- The other members before and after the place that a target names, in the order of their
keys. -/
structure Target.Splits (target : Target) (group : List Sibling) (moving : Uuid)
    (left right : List Sibling) : Prop where
  others  : (left ++ right).Perm (group.filter (·.id ≠ moving))
  before  : Ascending (left ++ right)
  divides : target.Divides left right

/-- With nobody on the left of the place, the anchor is on its right. -/
theorem Target.Divides.eq_cons {anchor : Uuid} {side : Side} {right : List Sibling}
    (h : (Target.beside anchor side).Divides [] right) : ∃ first rest, right = first :: rest := by
  cases side with
  | after => cases h
  | before =>
    cases right with
    | nil => cases h
    | cons first rest => exact ⟨first, rest, rfl⟩

namespace Gap

variable {gap : Gap} {group left right : List Sibling} {moving : Uuid} {room : Prop}

/-! ## Room for a lone key -/

theorem midpoint?_isSome_iff {below above : Int} (hb : -2 ^ 63 ≤ below) (ha : above < 2 ^ 63) :
    (midpoint? below above).isSome ↔ 2 ≤ above - below := by
  unfold midpoint?
  split
  · next hnarrow => simpa using hnarrow
  · next hwide =>
    have hkey : SortKey.ofInt? (below + (above - below) / 2) ≠ none := fun hnone =>
      SortKey.ofInt?_eq_none_iff.1 hnone (by omega)
    simpa [Option.isSome_iff_ne_none, hkey] using Int.not_lt.1 hwide

theorem between?_isSome_iff (gap : Gap) (below above : Option SortKey) :
    (gap.between? below above).isSome ↔ gap.HasRoom below above := by
  match below, above with
  | none, none => exact iff_of_true rfl trivial
  | some below, none =>
    have hmin := below.ge_min
    have hsize := gap.two_le
    rw [between?, next?, Option.isSome_iff_ne_none, Ne, SortKey.ofInt?_eq_none_iff, HasRoom]
    omega
  | none, some above =>
    rw [between?, HasRoom, midpoint?_isSome_iff (by decide) above.lt_max, Int.sub_zero]
  | some below, some above => exact midpoint?_isSome_iff below.ge_min above.lt_max

/-- A key before the first member is positive. -/
theorem between?_pos {above sort : SortKey} (h : gap.between? none (some above) = some sort) :
    0 < sort.val :=
  (midpoint?_between h).1

/-! ## Room for new keys -/

/-- All keys fit only if the last one does. -/
theorem fits_of_spreadFrom? {ids : List Uuid} {n : Nat} {members : List Sibling}
    (hids : ids ≠ []) (h : gap.spreadFrom? n ids = some members) :
    ((n + ids.length : Nat) : Int) * gap.size.val < 2 ^ 63 := by
  have hlength := List.length_pos_iff.2 hids
  have hlast : ((n + ids.length : Nat) : Int) * gap.size.val ∈ members.map (·.sort.val) := by
    rw [keys_spreadFrom? h]
    exact List.mem_map.2 ⟨n + ids.length, List.mem_range'_1.2 (by omega), rfl⟩
  obtain ⟨m, -, hm⟩ := List.mem_map.1 hlast
  exact hm ▸ m.sort.lt_max

theorem pos_of_spreadFrom? {ids : List Uuid} {n : Nat} {members : List Sibling}
    (h : gap.spreadFrom? n ids = some members) : ∀ m ∈ members, 0 < m.sort.val := by
  intro m hm
  have hkey : m.sort.val ∈ members.map (·.sort.val) := List.mem_map_of_mem hm
  rw [keys_spreadFrom? h] at hkey
  obtain ⟨i, hi, hsort⟩ := List.mem_map.1 hkey
  have hi := (List.mem_range'_1.1 hi).1
  exact hsort ▸ Int.mul_pos (by omega) gap.size_pos

/-- A group is respread exactly when the last of the new keys fits. -/
theorem spread_ok_iff {ids : List Uuid} (hids : ids ≠ []) :
    (∃ members, gap.spread ids = .ok members) ↔ (ids.length : Int) * gap.size.val < 2 ^ 63 := by
  constructor
  · rintro ⟨members, hspread⟩
    have hfits := fits_of_spreadFrom? hids (spread_eq_ok hspread)
    rwa [Nat.zero_add] at hfits
  · intro hfits
    cases hspread : gap.spreadFrom? 0 ids with
    | some members => exact ⟨members, by rw [spread, hspread]⟩
    | none =>
      have hover := overflow_of_spreadFrom? hspread
      rw [Nat.zero_add] at hover
      exact absurd hfits (Int.not_lt.2 hover)

theorem spread_error_iff {ids : List Uuid} (hids : ids ≠ []) {cause : Exhausted} :
    gap.spread ids = .error cause ↔
      2 ^ 63 ≤ (ids.length : Int) * gap.size.val ∧ cause = ⟨ids.length, gap.size.val⟩ := by
  rw [← Int.not_lt, ← spread_ok_iff hids, spread]
  cases gap.spreadFrom? 0 ids with
  | some members => simp
  | none => simp [eq_comm]

/-! ## How a placement ends -/

theorem ends_key {n : Nat} (hroom : room) (sort : SortKey) :
    gap.Ends n room (.ok (.key sort)) :=
  ⟨by simp [hroom], by simp [hroom], by simp [hroom]⟩

/-- Without room the group is respread, and it has one member more than the others. -/
theorem ends_respread {n : Nat} (hn : (left ++ right).length = n) (hroom : ¬room) :
    gap.Ends n room (gap.respread left moving right) := by
  have hne : left.map (·.id) ++ moving :: right.map (·.id) ≠ [] := by simp
  have hlength : (left.map (·.id) ++ moving :: right.map (·.id)).length = n + 1 := by
    simp only [← hn, List.length_append, List.length_cons, List.length_map]
    omega
  have hok := @spread_ok_iff gap _ hne
  have herror := @spread_error_iff gap _ hne
  simp only [hlength, Int.natCast_succ] at hok herror
  unfold respread
  generalize gap.spread (left.map (·.id) ++ moving :: right.map (·.id)) = spread at hok herror
  refine ⟨?_, ?_, fun cause => ?_⟩
  · cases spread <;> simp [Except.map, hroom]
  · rw [← hok]
    cases spread <;> simp [Except.map, hroom]
  · rw [and_iff_right hroom, ← herror]
    cases spread <;> simp [Except.map]

theorem ends_placeBetween {n : Nat} (hn : (left ++ right).length = n) :
    gap.Ends n (gap.HasRoom (left.getLast?.map (·.sort)) (right.head?.map (·.sort)))
      (gap.placeBetween left moving right) := by
  rw [← between?_isSome_iff]
  unfold placeBetween
  split
  · next sort hsort => exact ends_key (by simp [hsort]) sort
  · next hnone => exact ends_respread hn (by simp [hnone])

theorem Ends.of_iff {n : Nat} {room room' : Prop} {outcome : Except Exhausted Placement}
    (h : gap.Ends n room outcome) (hroom : room ↔ room') : gap.Ends n room' outcome :=
  propext hroom ▸ h

/-! ## The ends of a placement for each target -/

/-- A key chosen by the caller is taken exactly when no other member holds it. -/
theorem ends_placeAt (group : List Sibling) (moving : Uuid) (target : SortKey) :
    gap.Ends (Sibling.others group moving).length
      (∀ s ∈ Sibling.others group moving, s.sort ≠ target) (gap.placeAt group moving target) := by
  have hnil : (Sibling.others group moving).dropWhile (·.sort ≠ target) = [] ↔
      ∀ s ∈ Sibling.others group moving, s.sort ≠ target := by
    simp [List.dropWhile_eq_nil_iff]
  unfold placeAt
  dsimp only
  rw [← hnil]
  split
  · next hfree => exact ends_key hfree target
  · next hheld =>
    refine ends_respread ?_ fun hfree => hheld hfree
    rw [List.takeWhile_append_dropWhile]

/-- The chosen key itself, not just some key. -/
theorem eq_of_placeAt_key {target sort : SortKey}
    (h : gap.placeAt group moving target = .ok (.key sort)) : sort = target := by
  unfold placeAt at h
  dsimp only at h
  split at h
  · cases h
    rfl
  · obtain ⟨members, -, hmembers⟩ := map_eq_ok_iff.1 h
    cases hmembers

/-- Behind the last member there is room when no member's key is too large. -/
theorem hasRoom_last_iff (ha : Ascending left) :
    gap.HasRoom (left.getLast?.map (·.sort)) none ↔ left = [] ∨
      ∃ top ∈ left, (∀ s ∈ left, s.sort.val ≤ top.sort.val) ∧
        top.sort.val + gap.size.val < 2 ^ 63 := by
  cases hlast : left.getLast? with
  | none =>
    rw [List.getLast?_eq_none_iff.1 hlast]
    exact iff_of_true trivial (.inl rfl)
  | some last =>
    have hmem := List.mem_of_getLast? hlast
    have htop := le_getLast?_of_ascending ha hlast
    constructor
    · exact fun hroom => .inr ⟨last, hmem, htop, hroom⟩
    · rintro (rfl | ⟨top, htop', hle, hroom⟩)
      · cases hmem
      · have hlast' := hle last hmem
        change last.sort.val + gap.size.val < 2 ^ 63
        omega

/-- There is no place beside an anchor that is not among the other members. -/
theorem placeBeside_eq_none_iff {anchor : Uuid} {side : Side} :
    gap.placeBeside group moving anchor side = none ↔
      ∀ s ∈ Sibling.others group moving, s.id ≠ anchor := by
  have hnil : (Sibling.others group moving).dropWhile (·.id ≠ anchor) = [] ↔
      ∀ s ∈ Sibling.others group moving, s.id ≠ anchor := by
    simp [List.dropWhile_eq_nil_iff]
  rw [← hnil]
  unfold placeBeside
  dsimp only
  split
  · next hnone => exact iff_of_true rfl hnone
  · next hcons => exact iff_of_false nofun (by rw [hcons]; nofun)
  · next hcons => exact iff_of_false nofun (by rw [hcons]; nofun)

/-- Beside an anchor a node is placed between the two parts that the anchor cuts the others in. -/
theorem placeBeside_eq_placeBetween {anchor : Uuid} {side : Side}
    {outcome : Except Exhausted Placement}
    (h : gap.placeBeside group moving anchor side = some outcome) :
    outcome = gap.placeBetween
      ((Target.beside anchor side).cut (Sibling.others group moving)).1 moving
      ((Target.beside anchor side).cut (Sibling.others group moving)).2 := by
  unfold placeBeside at h
  dsimp only at h
  split at h
  · cases h
  · next hcons => simp only [Target.cut, hcons, ← Option.some.inj h]
  · next hcons =>
    simp only [Target.cut, hcons, ← Option.some.inj h, List.take_succ_cons, List.take_zero,
      List.drop_succ_cons, List.drop_zero]

theorem pos_of_respread {members : List Sibling}
    (h : gap.respread left moving right = .ok (.respread members)) :
    ∀ m ∈ members, 0 < m.sort.val := by
  obtain ⟨ids, hspread⟩ := spread_of_respread h
  exact pos_of_spreadFrom? (spread_eq_ok hspread)

/-- What is placed before the first member has a positive key, be it a lone one or not. -/
theorem pos_of_placeBetween_first {first : Sibling} {p : Placement} {sort : SortKey}
    (h : gap.placeBetween [] moving (first :: right) = .ok p)
    (hsort : p.keyFor? moving = some sort) : 0 < sort.val := by
  unfold placeBetween at h
  split at h
  · next key hkey =>
    cases h
    cases hsort
    exact between?_pos hkey
  · cases p with
    | key key =>
      obtain ⟨members, -, hmembers⟩ := map_eq_ok_iff.1 h
      cases hmembers
    | respread members =>
      obtain ⟨m, hm, rfl⟩ := Option.map_eq_some_iff.1 hsort
      exact pos_of_respread h m (List.mem_of_find?_eq_some hm)

/-- For every gap and every group with distinct keys: a chosen key is taken exactly when it is free;
behind the last member and beside an anchor there is a lone key exactly when there is room, and no
place beside an anchor that is missing. Where there is none the group is respread exactly when its
keys fit. Nothing overflows on the way, and what is placed before a first member is positive. -/
theorem placements_end (gap : Gap) (group : List Sibling) (moving : Uuid)
    (hkeys : (group.map (·.sort)).Nodup) :
    (∀ target, gap.Ends (group.filter (·.id ≠ moving)).length
        (∀ s ∈ group, s.id ≠ moving → s.sort ≠ target) (gap.placeAt group moving target) ∧
      ∀ sort, gap.placeAt group moving target = .ok (.key sort) → sort = target) ∧
    gap.Ends (group.filter (·.id ≠ moving)).length
      (group.filter (·.id ≠ moving) = [] ∨ ∃ top ∈ group.filter (·.id ≠ moving),
        (∀ s ∈ group.filter (·.id ≠ moving), s.sort.val ≤ top.sort.val) ∧
          top.sort.val + gap.size.val < 2 ^ 63)
      (gap.placeLast group moving) ∧
    (∀ anchor side, (gap.placeBeside group moving anchor side = none ↔
        ∀ s ∈ group, s.id ≠ moving → s.id ≠ anchor) ∧
      ∀ outcome, gap.placeBeside group moving anchor side = some outcome →
        ∃ left right, (Target.beside anchor side).Splits group moving left right ∧
          gap.Ends (group.filter (·.id ≠ moving)).length
            (gap.HasRoom (left.getLast?.map (·.sort)) (right.head?.map (·.sort))) outcome ∧
          (left = [] → ∀ p sort, outcome = .ok p → p.keyFor? moving = some sort →
            0 < sort.val)) ∧
    Words.Exact gap := by
  have ha := Sibling.ascending_others hkeys moving
  have hperm := Sibling.others_perm group moving
  have hlength := hperm.length_eq
  have hall : ∀ P : Sibling → Prop, (∀ s ∈ Sibling.others group moving, P s) ↔
      ∀ s ∈ group, s.id ≠ moving → P s := fun P => by
    simp only [Sibling.mem_others, and_imp]
  refine ⟨fun target => ⟨?_, fun sort => eq_of_placeAt_key⟩, ?_, fun anchor side => ⟨?_, ?_⟩,
    Words.exact gap⟩
  · rw [← hlength]
    exact (ends_placeAt group moving target).of_iff (hall _)
  -- behind the last: all others stand before the node, and nobody after it
  · have hothers : (Sibling.others group moving ++ []).length =
        (group.filter (·.id ≠ moving)).length := by
      rwa [List.append_nil]
    refine (ends_placeBetween hothers).of_iff ?_
    refine (hasRoom_last_iff ha).trans ?_
    rw [List.eq_nil_iff_forall_not_mem, List.eq_nil_iff_forall_not_mem]
    simp only [hperm.mem_iff]
  · rw [placeBeside_eq_none_iff, hall]
  · intro outcome houtcome
    -- beside an anchor: the cut made there splits the others as the target says
    have hsplits : (Target.beside anchor side).Splits group moving
        ((Target.beside anchor side).cut (Sibling.others group moving)).1
        ((Target.beside anchor side).cut (Sibling.others group moving)).2 := by
      refine ⟨?_, ?_, Target.divides_cut ha ?_⟩
      · rwa [Target.cut_append]
      · rwa [Target.cut_append]
      · rintro _ _ ⟨⟩
        exact anchor_of_placeBeside houtcome
    obtain rfl := placeBeside_eq_placeBetween houtcome
    refine ⟨_, _, hsplits, ends_placeBetween (hsplits.others.length_eq), ?_⟩
    intro hleft p sort hp hsort
    -- with nobody before the node the anchor comes next, so there is a first member
    obtain ⟨first, rest, hright⟩ := Target.Divides.eq_cons (hleft ▸ hsplits.divides)
    rw [hleft, hright] at hp
    exact pos_of_placeBetween_first hp hsort

end Gap

namespace Sample

/-- The other two members of `spread` in the order of their keys, split before, between or behind
them. -/
theorem splits_spread {target : Target} {left right : List Sibling}
    (h : target.Splits spread ⟨3, by decide⟩ left right) :
    left = [] ∧ right = [sibling 2 (-2 ^ 63), sibling 1 (2 ^ 63 - 1)] ∨
      left = [sibling 2 (-2 ^ 63)] ∧ right = [sibling 1 (2 ^ 63 - 1)] ∨
      left = [sibling 2 (-2 ^ 63), sibling 1 (2 ^ 63 - 1)] ∧ right = [] := by
  have hperm := h.others.trans
    (List.Perm.swap (sibling 2 (-2 ^ 63)) (sibling 1 (2 ^ 63 - 1)) [])
  have hsum : left ++ right = [sibling 2 (-2 ^ 63), sibling 1 (2 ^ 63 - 1)] :=
    h.before.eq_of_mem_iff (List.pairwise_pair.2 (by decide)) fun m => hperm.mem_iff
  rcases List.append_eq_cons_iff.1 hsum with hnone | ⟨rest, rfl, hrest⟩
  · exact .inl hnone
  · rcases List.append_eq_cons_iff.1 hrest.symm with ⟨rfl, rfl⟩ | ⟨rest, rfl, hrest⟩
    · exact .inr (.inl ⟨rfl, rfl⟩)
    · obtain ⟨rfl, rfl⟩ := List.append_eq_nil_iff.1 (List.cons.inj hrest).2.symm
      exact .inr (.inr ⟨rfl, rfl⟩)

end Sample

namespace Gap

/-- With the largest of all keys taken, the end of the group is no place for a lone key: the group
is respread, and at a gap of which three do not fit it has run out of keys. Between the other two
members there is room, but not before the first of them, which has the smallest of all keys. -/
theorem placements_end_spread :
    (∃ members, standard.placeLast Sample.spread ⟨3, by decide⟩ = .ok (.respread members)) ∧
    (ofKey ⟨2 ^ 62, by decide, by decide⟩).placeLast Sample.spread ⟨3, by decide⟩ =
      .error ⟨3, 2 ^ 62⟩ ∧
    (∃ sort, standard.placeAt Sample.spread ⟨3, by decide⟩ .zero = .ok (.key sort)) ∧
    (∃ sort, standard.placeBeside Sample.spread ⟨3, by decide⟩ ⟨2, by decide⟩ .after =
      some (.ok (.key sort))) ∧
    (∃ members, standard.placeBeside Sample.spread ⟨3, by decide⟩ ⟨2, by decide⟩ .before =
      some (.ok (.respread members))) ∧
    standard.placeBeside Sample.spread ⟨3, by decide⟩ ⟨9, by decide⟩ .before = none := by
  have hkeys : (Sample.spread.map (·.sort)).Nodup := by decide
  obtain ⟨hat, hlast, hbeside, -⟩ := placements_end standard Sample.spread ⟨3, by decide⟩ hkeys
  obtain ⟨-, hlast', -⟩ := placements_end (ofKey ⟨2 ^ 62, by decide, by decide⟩) Sample.spread
    ⟨3, by decide⟩ hkeys
  have hplaced : ∀ side, ∃ outcome,
      standard.placeBeside Sample.spread ⟨3, by decide⟩ ⟨2, by decide⟩ side = some outcome :=
    fun side => Option.ne_none_iff_exists'.1 ((hbeside _ side).1.not.2 (by decide))
  refine ⟨hlast.respread.2 ?_, (hlast'.exhausted _).2 ?_, (hat .zero).1.key.2 ?_, ?_, ?_, ?_⟩
  · decide +kernel
  · decide +kernel
  · decide +kernel
  · obtain ⟨outcome, houtcome⟩ := hplaced .after
    obtain ⟨left, right, hsplits, hends, -⟩ := (hbeside _ .after).2 outcome houtcome
    -- between the two members there is room for many keys
    have hroom : standard.HasRoom (left.getLast?.map (·.sort)) (right.head?.map (·.sort)) := by
      rcases Sample.splits_spread hsplits with ⟨rfl, rfl⟩ | ⟨rfl, rfl⟩ | ⟨rfl, rfl⟩
      · cases hsplits.divides
      · show (2 : Int) ≤ _ - _
        decide
      · exact absurd (Option.some.inj hsplits.divides) (by decide)
    obtain ⟨sort, rfl⟩ := hends.key.2 hroom
    exact ⟨sort, houtcome⟩
  · obtain ⟨outcome, houtcome⟩ := hplaced .before
    obtain ⟨left, right, hsplits, hends, -⟩ := (hbeside _ .before).2 outcome houtcome
    -- before the first member there is no room, since its key is the smallest of all
    have hroom : ¬standard.HasRoom (left.getLast?.map (·.sort)) (right.head?.map (·.sort)) := by
      rcases Sample.splits_spread hsplits with ⟨rfl, rfl⟩ | ⟨rfl, rfl⟩ | ⟨rfl, rfl⟩
      · show ¬(2 : Int) ≤ _
        decide
      · exact absurd (Option.some.inj hsplits.divides) (by decide)
      · cases hsplits.divides
    obtain ⟨members, rfl⟩ := hends.respread.2 ⟨hroom, by decide⟩
    exact ⟨members, houtcome⟩
  · exact (hbeside _ _).1.2 (by decide)

end Gap

end Outline
