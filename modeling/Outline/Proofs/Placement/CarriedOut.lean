import Mathlib.Algebra.Group.Int.Defs
import Mathlib.Algebra.Group.Nat.Defs
import Outline.Proofs.Keyed
import Outline.Proofs.Placement.Order

/-!
# Placements carried out

A group is handed to a placement in any order, with the moving node in it or not. Only two things
are asked of it: no two members share an identifier, and no two share a key. Carrying the placement
out gives the moving node its lone key, or every member the key listed for it. What comes out has
distinct keys, and read by key it is the old order of the other members with the moving node at the
place that was asked for.

Main results:

* `Placement.Fulfils` — what it is for a placement to put the node where a target says;
* `Gap.places_fulfil` — every placement that is found does so.
-/

namespace Outline

open Sibling (Ascending)

/-! ## What a placement is to achieve -/

/-- The target names the place between these members, which are in key order. -/
def Target.Divides (left right : List Sibling) : Target → Prop
  | .last => right = []
  | .at sort => (∀ s ∈ left, s.sort.val < sort.val) ∧ ∀ s ∈ right, sort.val ≤ s.sort.val
  | .beside anchor .before => right.head?.map (·.id) = some anchor
  | .beside anchor .after => left.getLast?.map (·.id) = some anchor

namespace Placement

/-- A member with the key listed for it, or with its own where none is. -/
def rekey (p : Placement) (s : Sibling) : Sibling :=
  ⟨s.id, (p.keyFor? s.id).getD s.sort⟩

/-- The group once a placement of `moving` is carried out: a lone key changes nobody else, listed
keys go to everyone they are listed for. -/
def carriedOut (p : Placement) (group : List Sibling) (moving : Uuid) : List Sibling :=
  let others := group.filter (·.id ≠ moving)
  match p with
  | .key sort => ⟨moving, sort⟩ :: others
  | .respread members => members.filter (·.id = moving) ++ others.map p.rekey

/-- The placement puts `moving` into `group` between `left` and `right`. -/
structure FulfilsAt (p : Placement) (gap : Gap) (group : List Sibling) (moving : Uuid)
    (left right : List Sibling) : Prop where
  /-- the two parts are the other members, each of them once -/
  others : (left ++ right).Perm (group.filter (·.id ≠ moving))
  /-- in the order of the keys they had -/
  before : Ascending (left ++ right)
  /-- and in the order of the keys they have now, `moving` stands between them -/
  after  : ∃ members, members.Perm (p.carriedOut group moving) ∧ Ascending members ∧
    members.map (·.id) = left.map (·.id) ++ moving :: right.map (·.id)
  /-- new keys for all are listed once for each, in that order, as multiples of the gap -/
  listed : ∀ members, p = .respread members →
    (members.map (·.id)).Nodup ∧
      members.map (·.id) = left.map (·.id) ++ moving :: right.map (·.id) ∧
      members.map (·.sort.val) =
        (List.range' 1 members.length).map fun i : Nat => (i : Int) * gap.size.val

/-- The placement puts `moving` into `group` where the target says. -/
def Fulfils (p : Placement) (gap : Gap) (group : List Sibling) (moving : Uuid) (target : Target) :
    Prop :=
  ∃ left right, target.Divides left right ∧ p.FulfilsAt gap group moving left right

end Placement

/-! ## Groups in any order -/

namespace Sibling

theorem ascending_sorted {group : List Sibling} (hkeys : (group.map (·.sort)).Nodup) :
    Ascending (sorted group) := by
  have hle : (sorted group).Pairwise fun a b => decide (a.sort.val ≤ b.sort.val) = true :=
    List.pairwise_mergeSort (by simp only [decide_eq_true_eq]; omega)
      (by simp only [Bool.or_eq_true, decide_eq_true_eq]; omega) group
  have hne : (sorted group).Pairwise fun a b => a.sort ≠ b.sort := by
    refine (List.mergeSort_perm _ _).symm.pairwise ?_ fun hab => Ne.symm hab
    exact List.pairwise_map.1 hkeys
  -- keys that ascend and differ ascend strictly
  refine hle.imp₂ (fun a b hle hne => ?_) hne
  have hval : a.sort.val ≠ b.sort.val := fun h => hne (SortKey.ext_val h)
  have hle : a.sort.val ≤ b.sort.val := of_decide_eq_true hle
  omega

theorem ascending_others {group : List Sibling} (hkeys : (group.map (·.sort)).Nodup)
    (moving : Uuid) : Ascending (others group moving) :=
  ascending_sorted (hkeys.sublist (List.filter_sublist.map _))

end Sibling

namespace Target

/-- The cut that a target makes in a group in key order is at the place it names; an anchor has to
be in the group for that. -/
theorem divides_cut {others : List Sibling} (ha : Ascending others) {target : Target}
    (hanchor : ∀ anchor side, target = .beside anchor side → anchor ∈ others.map (·.id)) :
    target.Divides (target.cut others).1 (target.cut others).2 := by
  match target with
  | .last => rfl
  | .at sort =>
    refine ⟨fun s hs => ?_, Gap.le_of_mem_dropWhile ha⟩
    simpa using List.mem_takeWhile_imp hs
  | .beside anchor side =>
    -- the anchor is the first member that does not differ from it
    have hmem := hanchor anchor side rfl
    have hfound : others.dropWhile (·.id ≠ anchor) ≠ [] := by
      simpa [List.dropWhile_eq_nil_iff] using hmem
    obtain ⟨found, rest, hcons⟩ := List.exists_cons_of_ne_nil hfound
    have hid : found.id = anchor := by
      have hnot := List.head?_dropWhile_not (fun s : Sibling => decide (s.id ≠ anchor)) others
      rw [hcons] at hnot
      simpa using hnot
    cases side with
    | before => simp only [Divides, cut, hcons, List.head?_cons, Option.map_some, hid]
    | after =>
      simp only [Divides, cut, hcons, List.take_succ_cons, List.take_zero,
        List.getLast?_append_of_ne_nil _ (List.cons_ne_nil _ _), List.getLast?_singleton,
        Option.map_some, hid]

end Target

/-! ## Placements fulfil their targets -/

namespace Placement

theorem rekey_mem {members : List Sibling} (hids : (members.map (·.id)).Nodup) {s : Sibling}
    (hs : s.id ∈ members.map (·.id)) : (respread members).rekey s ∈ members := by
  obtain ⟨m, hm, hid⟩ := List.mem_map.1 hs
  have hfind : members.find? (·.id = s.id) = some m := hid ▸ find?_of_nodup hids hm
  have hrekey : (respread members).rekey s = m := by
    rw [rekey, keyFor?, hfind, ← hid]
    rfl
  exact hrekey ▸ hm

/-- What a respread group becomes is what was listed for it. -/
theorem respread_perm_carriedOut {members group : List Sibling} {moving : Uuid}
    (hids : (members.map (·.id)).Nodup)
    (hperm : (members.map (·.id)).Perm (moving :: (group.filter (·.id ≠ moving)).map (·.id))) :
    members.Perm ((respread members).carriedOut group moving) := by
  obtain ⟨m, hm, rfl⟩ := List.mem_map.1 (hperm.mem_iff.2 List.mem_cons_self)
  have hcarried : ((respread members).carriedOut group m.id).map (·.id) =
      m.id :: (group.filter (·.id ≠ m.id)).map (·.id) := by
    simp [carriedOut, filter_of_nodup hids hm, rekey]
  have hsubset : (respread members).carriedOut group m.id ⊆ members := by
    refine List.append_subset.2 ⟨List.filter_subset_self _, fun s hs => ?_⟩
    obtain ⟨t, ht, rfl⟩ := List.mem_map.1 hs
    exact rekey_mem hids (hperm.mem_iff.2 (List.mem_cons_of_mem _ (List.mem_map_of_mem ht)))
  -- nobody occurs twice in it, and it is as long as the list
  have hnodup : ((respread members).carriedOut group m.id).Nodup := by
    apply List.Nodup.of_map (·.id)
    rw [hcarried]
    exact hperm.nodup_iff.1 hids
  have hlength : members.length = ((respread members).carriedOut group m.id).length := by
    rw [← List.length_map (·.id), hperm.length_eq, ← hcarried, List.length_map]
  exact ((List.subperm_of_subset hnodup hsubset).perm_of_length_le hlength.le).symm

/-- A placement between the two parts of the other members fulfils a target that names the place. -/
theorem Puts.fulfilsAt {p : Placement} {gap : Gap} {group left right : List Sibling}
    {moving : Uuid} (hids : (group.map (·.id)).Nodup)
    (hothers : (left ++ right).Perm (group.filter (·.id ≠ moving)))
    (hbefore : Ascending (left ++ right)) (hp : p.Puts left moving right)
    (hspread : ∀ members, p = .respread members → ∃ ids, gap.spread ids = .ok members) :
    p.FulfilsAt gap group moving left right := by
  have hperm : ((p.settled left moving right).map (·.id)).Perm
      (moving :: (group.filter (·.id ≠ moving)).map (·.id)) := by
    rw [hp.ids]
    refine List.perm_middle.trans (List.Perm.cons _ ?_)
    rw [← List.map_append]
    exact hothers.map _
  have hnodup : ((p.settled left moving right).map (·.id)).Nodup := by
    refine hperm.nodup_iff.2 (List.nodup_cons.2 ⟨by simp, ?_⟩)
    exact hids.sublist (List.filter_sublist.map _)
  refine ⟨hothers, hbefore, ⟨_, ?_, hp.ascending, hp.ids⟩, ?_⟩
  · cases p with
    | key sort => exact List.perm_middle.trans (hothers.cons _)
    | respread members => exact respread_perm_carriedOut hnodup hperm
  · rintro members rfl
    obtain ⟨ids, hs⟩ := hspread members rfl
    have hs := Gap.spread_eq_ok hs
    have hkeys := Gap.keys_spreadFrom? hs
    rw [← Gap.ids_spreadFrom? hs, List.length_map] at hkeys
    exact ⟨hnodup, hp.ids, hkeys⟩

end Placement

namespace Gap

variable {gap : Gap} {group left right members : List Sibling} {moving : Uuid}

theorem spread_of_respread (h : gap.respread left moving right = .ok (.respread members)) :
    ∃ ids, gap.spread ids = .ok members := by
  obtain ⟨members', hspread, hmembers⟩ := map_eq_ok_iff.1 h
  cases hmembers
  exact ⟨_, hspread⟩

theorem spread_of_placeBetween
    (h : gap.placeBetween left moving right = .ok (.respread members)) :
    ∃ ids, gap.spread ids = .ok members := by
  unfold placeBetween at h
  split at h
  · cases h
  · exact spread_of_respread h

theorem spread_of_placeAt {target : SortKey}
    (h : gap.placeAt group moving target = .ok (.respread members)) :
    ∃ ids, gap.spread ids = .ok members := by
  unfold placeAt at h
  dsimp only at h
  split at h
  · cases h
  · exact spread_of_respread h

theorem spread_of_placeBeside {anchor : Uuid} {side : Side}
    (h : gap.placeBeside group moving anchor side = some (.ok (.respread members))) :
    ∃ ids, gap.spread ids = .ok members := by
  unfold placeBeside at h
  dsimp only at h
  split at h
  · cases h
  · exact spread_of_placeBetween (Option.some.inj h)
  · exact spread_of_placeBetween (Option.some.inj h)

/-- An anchor beside which a node is placed is one of the other members. -/
theorem anchor_of_placeBeside {anchor : Uuid} {side : Side} {placed : Except Exhausted Placement}
    (h : gap.placeBeside group moving anchor side = some placed) :
    anchor ∈ (Sibling.others group moving).map (·.id) := by
  unfold placeBeside at h
  dsimp only at h
  by_contra hnone
  have hnil : (Sibling.others group moving).dropWhile (·.id ≠ anchor) = [] := by
    rw [List.dropWhile_eq_nil_iff]
    intro s hs
    exact decide_eq_true fun hid => hnone (hid ▸ List.mem_map_of_mem hs)
  rw [hnil] at h
  cases h

/-- Whatever keys a group has and however it is listed, a placement that is found puts the node at
the end, at its key or before whoever holds that key, or next to its anchor. -/
theorem places_fulfil (gap : Gap) (group : List Sibling) (moving : Uuid)
    (hids : (group.map (·.id)).Nodup) (hkeys : (group.map (·.sort)).Nodup) :
    (∀ p, gap.placeLast group moving = .ok p → p.Fulfils gap group moving .last) ∧
    (∀ target p, gap.placeAt group moving target = .ok p →
      p.Fulfils gap group moving (.at target)) ∧
    (∀ anchor side p, gap.placeBeside group moving anchor side = some (.ok p) →
      p.Fulfils gap group moving (.beside anchor side)) := by
  have ha : Ascending (Sibling.others group moving) := Sibling.ascending_others hkeys moving
  -- a target cuts the other members, and a placement between the two parts is what is asked for
  have hfulfils : ∀ (target : Target) (p : Placement),
      (∀ anchor side, target = .beside anchor side →
        anchor ∈ (Sibling.others group moving).map (·.id)) →
      p.Puts (target.cut (Sibling.others group moving)).1 moving
        (target.cut (Sibling.others group moving)).2 →
      (∀ members, p = .respread members → ∃ ids, gap.spread ids = .ok members) →
      p.Fulfils gap group moving target := by
    intro target p hanchor hp hspread
    refine ⟨_, _, Target.divides_cut ha hanchor, hp.fulfilsAt hids ?_ ?_ hspread⟩
    · rw [Target.cut_append]
      exact Sibling.others_perm group moving
    · rwa [Target.cut_append]
  refine ⟨fun p hp => ?_, fun target p hp => ?_, fun anchor side p hp => ?_⟩
  · refine hfulfils .last p nofun (placeLast_puts ha hp) fun members hm => ?_
    exact spread_of_placeBetween (hm ▸ hp)
  · refine hfulfils (.at target) p nofun (placeAt_puts ha hp) fun members hm => ?_
    exact spread_of_placeAt (hm ▸ hp)
  · refine hfulfils (.beside anchor side) p ?_ (placeBeside_puts ha hp) fun members hm => ?_
    · rintro _ _ ⟨⟩
      exact anchor_of_placeBeside hp
    · exact spread_of_placeBeside (hm ▸ hp)

end Gap

namespace Sample

def sibling (id : Nat) (sort : Int) : Sibling :=
  ⟨(Uuid.ofNat? id).getD .nil, (SortKey.ofInt? sort).getD .zero⟩

/-- Three members listed out of order, two of them at the ends of the range of keys. -/
def spread : List Sibling :=
  [sibling 1 (2 ^ 63 - 1), sibling 3 0, sibling 2 (-2 ^ 63)]

/-- The keys all three have to take where the last one leaves no room behind it. -/
def respread : Placement :=
  .respread [sibling 2 1000, sibling 1 2000, sibling 3 3000]

end Sample

/-- Behind the member with the largest key there is no room, be it at the end or beside that member,
so all get new keys. A free key is taken as it is. -/
theorem Gap.places_fulfil_spread :
    Sample.respread.Fulfils .standard Sample.spread ⟨3, by decide⟩ .last ∧
    Sample.respread.Fulfils .standard Sample.spread ⟨3, by decide⟩
      (.beside ⟨1, by decide⟩ .after) ∧
    (Placement.key .zero).Fulfils .standard Sample.spread ⟨3, by decide⟩ (.at .zero) := by
  have hkeys : (Sample.spread.map (·.sort)).Nodup := by decide
  obtain ⟨hlast, hat, hbeside⟩ := Gap.places_fulfil .standard Sample.spread ⟨3, by decide⟩
    (by decide) hkeys
  -- the other two members in the order of their keys
  have hothers : Sibling.others Sample.spread ⟨3, by decide⟩ =
      [Sample.sibling 2 (-2 ^ 63), Sample.sibling 1 (2 ^ 63 - 1)] := by
    have hperm := (Sibling.others_perm Sample.spread ⟨3, by decide⟩).trans
      (List.Perm.swap (Sample.sibling 2 (-2 ^ 63)) (Sample.sibling 1 (2 ^ 63 - 1)) [])
    refine (Sibling.ascending_others hkeys _).eq_of_mem_iff ?_ fun m => hperm.mem_iff
    exact List.pairwise_pair.2 (by decide)
  refine ⟨hlast _ ?_, hbeside _ .after _ ?_, hat .zero _ ?_⟩
  · unfold Gap.placeLast
    rw [hothers]
    decide +kernel
  · unfold Gap.placeBeside
    rw [hothers]
    decide +kernel
  · unfold Gap.placeAt
    rw [hothers]
    decide +kernel

end Outline
