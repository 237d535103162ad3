import Outline.Proofs.Forest.Change
import Outline.Store.Call

/-!
# Where a placing call puts a node

Five calls place a node: a creation at the end of a group, three moves to a group, and a change of
key in the own group. For each the state of the store tells which record is placed, in which group
and where. The law is the same for all of them: the group lists what it listed before without the
node, with the node at the place that the target names; and nothing else has changed.

Main results:

* `Placed.positioned` — a placement that the allocator finds obeys the law.
-/

namespace Outline

variable {π τ : Type}

namespace StoreCall

/-- The calls that place a node where the store finds a key for it. -/
def isPlacing : StoreCall → Bool
  | .createLast _ | .moveLast _ _ | .moveAt _ _ _ | .reorder _ _ | .moveBeside _ _ _ => true
  | _ => false

/-- The stored node that a call moves. -/
def moved? : StoreCall → Option Uuid
  | .moveLast id _ | .moveAt id _ _ | .reorder id _ | .moveBeside id _ _ => some id
  | _ => none

/-- The record that a call places, the group where it goes, and its target there. A node that is
created is stored as `entry` tells. -/
def placing? (f : Forest π τ) (entry : Node → Record π τ) :
    StoreCall → Option (Record π τ × Group × Target)
  | .createLast n => some (entry n, n.group, .last)
  | .moveLast id parent => (f id).map fun r => (r, ⟨r.space, parent⟩, .last)
  | .moveAt id parent sort => (f id).map fun r => (r, ⟨r.space, parent⟩, .at sort)
  | .reorder id sort => (f id).map fun r => (r, r.group, .at sort)
  | .moveBeside id anchor side => do
    let r ← f id
    let a ← f anchor
    return (r, ⟨r.space, a.parent⟩, .beside anchor side)
  | _ => none

end StoreCall

/-- A group loses the node that comes to stand in another, and nothing else. -/
theorem IsListing.without {f g : Forest π τ} {id : Uuid} {group other : Group}
    {before : List Sibling} (hbefore : IsListing f other before) (hne : other ≠ group)
    (hself : ∃ q, g id = some q ∧ q.group = group)
    (hframe : ∀ a, a ≠ id → (∀ q, f a = some q → q.group ≠ group) → g a = f a)
    (hsibling : ∀ a q, a ≠ id → f a = some q → q.group = group →
      ∃ q', g a = some q' ∧ q'.group = group) :
    IsListing g other (before.filter (·.id ≠ id)) := by
  refine ⟨hbefore.ascending.filter _, fun {m} => ?_⟩
  rw [List.mem_filter, decide_eq_true_eq, hbefore.mem_iff]
  constructor
  -- the others are not touched
  · rintro ⟨⟨q, hq, hgroup, hsort⟩, hid⟩
    refine ⟨q, ?_, hgroup, hsort⟩
    rw [hframe m.id hid fun q' hq' heq => ?_, hq]
    rw [hq] at hq'
    obtain rfl := Option.some.inj hq'
    exact hne (hgroup.symm.trans heq)
  · rintro ⟨q, hq, hgroup, hsort⟩
    -- whoever is in the other group now is not the node, and was not in the node's group before
    have hid : m.id ≠ id := by
      intro heq
      obtain ⟨q', hq', hin⟩ := hself
      rw [← heq, hq] at hq'
      obtain rfl := Option.some.inj hq'
      exact hne (hgroup.symm.trans hin)
    have hsame : g m.id = f m.id := by
      refine hframe m.id hid fun q' hq' heq => ?_
      obtain ⟨t, ht, hin⟩ := hsibling m.id q' hid hq' heq
      rw [hq] at ht
      obtain rfl := Option.some.inj ht
      exact hne (hgroup.symm.trans hin)
    exact ⟨⟨q, hsame ▸ hq, hgroup, hsort⟩, hid⟩

/-- The law of placing the record `r` in a group: `f` is before the call and `g` after it. -/
structure Positioned (f g : Forest π τ) (r : Record π τ) (group : Group) (target : Target) :
    Prop where
  space   : r.space = group.space
  /-- The order is that of the others with the node between the parts that the target cuts. -/
  order   : ∀ before, IsListing f group before → ∃ after, IsListing g group after ∧
              after.map (·.id) =
                (target.cut (before.filter (·.id ≠ r.id))).1.map (·.id) ++ r.id ::
                  (target.cut (before.filter (·.id ≠ r.id))).2.map (·.id)
  /-- An anchor is one of the others. -/
  anchor  : ∀ anchor side, target = .beside anchor side →
              anchor ≠ r.id ∧ ∃ a, f anchor = some a ∧ a.group = group
  /-- A key that none of the others holds is taken as it is. -/
  key     : ∀ sort, target = .at sort →
              (∀ id q, id ≠ r.id → f id = some q → q.group = group → q.sort ≠ sort) →
                ∃ q, g r.id = some q ∧ q.sort = sort
  /-- A group that the node leaves is the old one without it. -/
  origin  : ∀ old before, f r.id = some old → old.group ≠ group → IsListing f old.group before →
              IsListing g old.group (before.filter (·.id ≠ r.id))
  /-- Outside the group nothing else changes. -/
  frame   : ∀ id, id ≠ r.id → (∀ q, f id = some q → q.group ≠ group) → g id = f id
  /-- In the group at most keys and times do. -/
  sibling : ∀ id q, id ≠ r.id → f id = some q → q.group = group →
              ∃ sort updated, g id = some { q with sort := sort, updated := updated }
  /-- The node itself has its parent, its key and perhaps its time changed. -/
  placed  : ∃ sort updated,
              g r.id = some { r with parent := group.parent, sort := sort, updated := updated }

/-- The parent of the group is stored in its space. -/
theorem Positioned.exists_parent {f g : Forest π τ} {r : Record π τ} {group : Group}
    {target : Target} (h : Positioned f g r group target) (hg : Rooted g) {p : Uuid}
    (hp : group.parent = some p) : ∃ q, g p = some q ∧ q.space = group.space := by
  obtain ⟨sort, updated, hself⟩ := h.placed
  obtain ⟨q, hq, hspace, -⟩ := (hg.lodged hself).exists_parent hp
  exact ⟨q, hq, hspace.trans h.space⟩

/-- It was stored there before, since placing a node stores no other and the node is not its own
parent. -/
theorem Positioned.exists_parent_before {f g : Forest π τ} {r : Record π τ} {group : Group}
    {target : Target} (h : Positioned f g r group target) (hg : Rooted g) {p : Uuid}
    (hp : group.parent = some p) : ∃ q, f p = some q ∧ q.space = group.space := by
  obtain ⟨q, hq, hspace⟩ := h.exists_parent hg hp
  have hne : p ≠ r.id := by
    rintro rfl
    obtain ⟨sort, updated, hself⟩ := h.placed
    exact hg.parent_ne_self hself hp
  by_cases hin : ∃ t, f p = some t ∧ t.group = group
  · obtain ⟨t, ht, hgroup⟩ := hin
    exact ⟨t, ht, congrArg Group.space hgroup⟩
  · have hframe : g p = f p := h.frame p hne fun t ht hgroup => hin ⟨t, ht, hgroup⟩
    exact ⟨q, hframe ▸ hq, hspace⟩

/-- In every other group the node is not listed any more. -/
theorem Positioned.isListing_of_ne {f g : Forest π τ} {r : Record π τ} {group : Group}
    {target : Target} (h : Positioned f g r group target) {other : Group} {before : List Sibling}
    (hne : other ≠ group) (hbefore : IsListing f other before) :
    IsListing g other (before.filter (·.id ≠ r.id)) := by
  refine hbefore.without hne ?_ h.frame fun id q hid hq hgroup => ?_
  · obtain ⟨sort, updated, hself⟩ := h.placed
    exact ⟨_, hself, by simp [Record.group, h.space]⟩
  · obtain ⟨sort, updated, hsibling⟩ := h.sibling id q hid hq hgroup
    exact ⟨_, hsibling, hgroup⟩

/-- Placing a node changes neither identifiers nor spaces, nor payload. -/
theorem Positioned.all {f g : Forest π τ} {r : Record π τ} {group : Group} {target : Target}
    (h : Positioned f g r group target) {P : Record π τ → Prop}
    (hP : ∀ stamp, Record.Keeps P stamp) (hf : f.All P) (hr : P r) : g.All P := by
  intro id q hq
  by_cases hid : id = r.id
  · obtain ⟨sort, updated, hself⟩ := h.placed
    rw [hid, hself] at hq
    rw [← Option.some.inj hq]
    exact hP updated r group.parent sort updated hr (.inr rfl)
  · by_cases hin : ∃ t, f id = some t ∧ t.group = group
    · obtain ⟨t, ht, hgroup⟩ := hin
      obtain ⟨sort, updated, hsibling⟩ := h.sibling id t hid ht hgroup
      rw [hsibling] at hq
      rw [← Option.some.inj hq]
      exact hP updated t t.parent sort updated (hf ht) (.inr rfl)
    · rw [h.frame id hid fun t ht hgroup => hin ⟨t, ht, hgroup⟩] at hq
      exact hf hq

/-- An anchor beside which a place is found is one of the others. -/
theorem anchor_mem_of_placeIn {gap : Gap} {group : Group} {members : List Sibling}
    {moving anchor : Uuid} {side : Side} {p : Placement}
    (h : gap.placeIn group members moving (.beside anchor side) = .ok p) :
    ∃ m ∈ members, m.id = anchor ∧ anchor ≠ moving := by
  have hfound : (Sibling.others members moving).dropWhile (·.id ≠ anchor) ≠ [] := by
    intro hnil
    simp only [Gap.placeIn, Gap.placeBeside, hnil] at h
    cases h
  obtain ⟨m, hm, hid⟩ : ∃ m ∈ Sibling.others members moving, m.id = anchor := by
    simpa [List.dropWhile_eq_nil_iff] using hfound
  obtain ⟨hmem, hne⟩ := Sibling.mem_others.1 hm
  exact ⟨m, hmem, hid, hid ▸ hne⟩

namespace Placed

variable {f g : Forest π τ} {r : Record π τ} {group : Group} {target : Target} {gap : Gap}
  {p : Placement} {members : List Sibling} {stamp : τ}

/-- A group that the node leaves loses nothing else. -/
theorem isListing_origin (h : Placed f g r group members stamp) (hspace : r.space = group.space)
    {origin : Group} {before : List Sibling} (hne : origin ≠ group)
    (hbefore : IsListing f origin before) : IsListing g origin (before.filter (·.id ≠ r.id)) := by
  refine hbefore.without hne ?_ (fun id hid hout => h.frame hid hout) fun id q hid hq hgroup => ?_
  · obtain ⟨sort, updated, -, -, hself⟩ := h.self hspace
    exact ⟨_, hself, by simp [Record.group, hspace]⟩
  · obtain ⟨sort, updated, -, -, hsibling⟩ := h.sibling hid hq hgroup
    exact ⟨_, hsibling, hgroup⟩

/-- A placement that the allocator finds obeys the law of placing. -/
theorem positioned (hlist : IsListing f group members) (hspace : r.space = group.space)
    (hplace : gap.placeIn group members r.id target = .ok p)
    (h : Placed f g r group (p.settled (target.cut (members.filter (·.id ≠ r.id))).1 r.id
      (target.cut (members.filter (·.id ≠ r.id))).2) stamp) :
    Positioned f g r group target where
  space := hspace
  order before hbefore := by
    have hplacing := Placing.of_placeIn hlist hplace
    rw [hbefore.eq hlist]
    exact ⟨_, Rekeyed.isListing h, hplacing.ids_settled⟩
  anchor anchor side htarget := by
    subst htarget
    obtain ⟨m, hm, rfl, hne⟩ := anchor_mem_of_placeIn hplace
    obtain ⟨a, ha, hgroup, -⟩ := hlist.mem_iff.1 hm
    exact ⟨hne, a, ha, hgroup⟩
  key sort htarget hfree := by
    subst htarget
    have hplacing := Placing.of_placeIn hlist hplace
    -- nobody holds the key, so the placement is that key alone
    have hkey : gap.placeIn group members r.id (.at sort) = .ok (.key sort) := by
      rw [Gap.placeIn, Gap.placeAt_of_free, mapError_ok]
      intro m hm
      obtain ⟨hm, hne⟩ := Sibling.mem_others.1 hm
      obtain ⟨q, hq, hgroup, hsort⟩ := hlist.mem_iff.1 hm
      rw [← hsort]
      exact hfree m.id q hne hq hgroup
    rw [hkey] at hplace
    obtain rfl := Except.ok.inj hplace
    obtain ⟨sort', updated, hmem, -, hself⟩ := h.self hspace
    -- the node has one key in the group as it is to be
    have hself' : (⟨r.id, sort⟩ : Sibling) ∈ (Placement.key sort).settled
        ((Target.at sort).cut (members.filter (·.id ≠ r.id))).1 r.id
        ((Target.at sort).cut (members.filter (·.id ≠ r.id))).2 := by
      simp [Placement.settled]
    have heq := List.inj_on_of_nodup_map hplacing.nodup_settled hmem hself' rfl
    exact ⟨_, hself, congrArg Sibling.sort heq⟩
  origin _ _ _ hne hbefore := h.isListing_origin hspace hne hbefore
  frame _ hid hout := h.frame hid hout
  sibling _ _ hid hq hgroup := by
    obtain ⟨sort, updated, -, -, hg⟩ := h.sibling hid hq hgroup
    exact ⟨sort, updated, hg⟩
  placed := by
    obtain ⟨sort, updated, -, -, hg⟩ := h.self hspace
    exact ⟨sort, updated, hg⟩

end Placed

end Outline
