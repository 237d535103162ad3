import Outline.Proofs.Indexed.View

/-!
# Placing a node in memory

The changes that a placement makes are those members of the group as it is to be whose record is
not what it was. A space admits them: the places they take are distinct, and a place that was taken
belongs to a node that changes as well. So a placement is always entered, and what comes out is the
placement of the forest.

Main results:

* `Shelf.Agrees.enter` — entering changes of one space, seen from the forest;
* `Space.Regroups.admits` — the changes of a group are admitted;
* `Shelf.placed_enter` — entering them places the node.
-/

namespace Outline

open Sibling (Ascending)

namespace Shelf

/-- The shelf with changes entered in one space, and a new locator. -/
def enter (s : Shelf) (sp : Uuid) (changes : List Node) (locator : Std.ExtTreeMap Uuid Uuid) :
    Shelf :=
  { s.putSpace sp ((s.space sp).entered changes) with locator := locator }

theorem space_putSpace (s : Shelf) (sp sp' : Uuid) (space : Space) :
    (s.putSpace sp space).space sp' = if sp = sp' then space else s.space sp' := by
  by_cases h : sp = sp'
  · simp [putSpace, Shelf.space, h]
  · have hcmp : compare sp sp' ≠ .eq := fun hc => h (Std.LawfulEqCmp.eq_of_compare hc)
    simp [putSpace, Shelf.space, h, hcmp, Std.ExtTreeMap.getElem?_insert]

theorem space_enter (s : Shelf) (sp sp' : Uuid) (changes : List Node)
    (locator : Std.ExtTreeMap Uuid Uuid) :
    (s.enter sp changes locator).space sp' =
      if sp = sp' then (s.space sp).entered changes else s.space sp' :=
  space_putSpace s sp sp' _

/-- What has to be so for changes to be entered in a space. -/
structure Enters (s : Shelf) (sp : Uuid) (changes : List Node)
    (locator : Std.ExtTreeMap Uuid Uuid) : Prop where
  admits  : (s.space sp).Admits changes
  space   : ∀ n ∈ changes, n.space = sp
  home    : ∀ n ∈ changes, ∀ sp', s.locator[n.id]? = some sp' → sp' = sp
  locator : ∀ id : Uuid, locator[id]? =
              if id ∈ changes.map (·.id) then some sp else s.locator[id]?

variable {s : Shelf} {sp : Uuid} {changes : List Node} {locator : Std.ExtTreeMap Uuid Uuid}

theorem Agrees.enter (h : s.Agrees) (he : s.Enters sp changes locator) :
    (s.enter sp changes locator).Agrees := by
  refine ⟨fun sp' => ?_, fun {id sp'} => ?_⟩
  -- the space
  · rw [space_enter]
    split
    · next heq => exact heq ▸ (h.space sp).commit he.admits he.space
    · exact h.space sp'
  -- the locator, for whoever changes and for whoever does not
  · rw [space_enter]
    have hloc : (s.enter sp changes locator).locator[id]? =
        if id ∈ changes.map (·.id) then some sp else s.locator[id]? := he.locator id
    rw [hloc]
    by_cases hid : id ∈ changes.map (·.id)
    · obtain ⟨n, hn, rfl⟩ := List.mem_map.1 hid
      rw [if_pos hid]
      constructor
      · intro heq
        rw [if_pos (Option.some.inj heq)]
        exact ⟨n, (Space.getElem?_entered_eq_some_iff he.admits.ids).2 (.inl ⟨hn, rfl⟩)⟩
      · split
        · next heq => exact fun _ => congrArg some heq
        · rintro ⟨m, hm⟩
          rw [he.home n hn sp' (h.locator_iff.2 ⟨m, hm⟩)]
    · rw [if_neg hid, h.locator_iff]
      split
      · next heq =>
        rw [Space.getElem?_entered_of_not_mem he.admits.ids hid, heq]
      · rfl

theorem forest_enter (h : s.Agrees) (he : s.Enters sp changes locator) (id : Uuid) :
    (s.enter sp changes locator).forest id =
      ((changes.find? (·.id = id)).map Node.record).or (s.forest id) := by
  have h' := h.enter he
  cases hfind : changes.find? (·.id = id) with
  | some n =>
    have hn := List.mem_of_find?_eq_some hfind
    have hid : n.id = id := by simpa using List.find?_some hfind
    have hnode : ((s.enter sp changes locator).space sp).nodes[id]? = some n := by
      rw [space_enter, if_pos rfl, Space.getElem?_entered_eq_some_iff he.admits.ids]
      exact .inl ⟨hn, hid⟩
    simpa using forest_of_node h' hnode
  | none =>
    have hid : id ∉ changes.map (·.id) := by simpa [List.find?_eq_none] using hfind
    refine Option.ext fun r => ?_
    rw [Option.map_none, Option.none_or, forest_eq_some_iff h', forest_eq_some_iff h]
    refine exists_congr fun n => and_congr_left fun _ => ?_
    rw [space_enter]
    split
    · next heq => rw [Space.getElem?_entered_of_not_mem he.admits.ids hid, heq]
    · rfl

/-- A lone change is put. -/
theorem forest_enter_singleton (h : s.Agrees) {c : Node} (he : s.Enters sp [c] locator) :
    (s.enter sp [c] locator).forest = s.forest.put c.record := by
  funext id
  rw [forest_enter h he, Forest.put, Node.record_id]
  by_cases hid : id = c.id
  · simp [hid]
  · simp [hid, Ne.symm hid]

end Shelf

/-! ## The changes of a placement -/

namespace Space

/-- The changed record of a member of the group as it is to be, if it changes. -/
def change? (s : Space) (n : Node) (parent : Option Uuid) (now : Timestamp) (m : Sibling) :
    Option Node :=
  if m.id = n.id then some (n.moveTo parent m.sort now) else s.rekeyed? now m

theorem rekeyed?_of_node {s : Space} {m : Sibling} {q : Node} (hq : s.nodes[m.id]? = some q)
    (now : Timestamp) :
    s.rekeyed? now m = if q.sort = m.sort then none else some (q.rekey m.sort now) := by
  rw [rekeyed?, hq]

theorem rekeyed?_eq_some {s : Space} {sp : Uuid} (h : s.Agrees sp) {m : Sibling} {q c : Node}
    (hq : s.nodes[m.id]? = some q) {now : Timestamp} (hc : s.rekeyed? now m = some c) :
    c.id = m.id ∧ c.space = sp ∧ c.place = ⟨q.parent, m.sort⟩ := by
  rw [rekeyed?_of_node hq] at hc
  split at hc
  · cases hc
  · cases hc
    have hid : q.id = m.id := h.own_id hq
    have hspace : q.space = sp := h.own_space hq
    exact ⟨hid, hspace, rfl⟩

/-- A member without a change has its key already. -/
theorem sort_of_rekeyed?_eq_none {s : Space} {m : Sibling} {q : Node}
    (hq : s.nodes[m.id]? = some q) {now : Timestamp} (hnone : s.rekeyed? now m = none) :
    q.sort = m.sort := by
  rw [rekeyed?_of_node hq] at hnone
  by_contra hsort
  rw [if_neg hsort] at hnone
  cases hnone

/-- The group below `parent` is to be `members`, and `make` gives the records that change. -/
structure Regroups (s : Space) (sp : Uuid) (parent : Option Uuid) (members : List Sibling)
    (make : Sibling → Option Node) : Prop where
  ascending : Ascending members
  nodup     : (members.map (·.id)).Nodup
  made      : ∀ {m}, m ∈ members → ∀ c, make m = some c →
                c.id = m.id ∧ c.space = sp ∧ c.place = ⟨parent, m.sort⟩
  covered   : ∀ {id : Uuid} {q : Node}, s.nodes[id]? = some q → q.parent = parent →
                ∃ m ∈ members, m.id = id ∧ (make m = none → q.sort = m.sort)

namespace Regroups

variable {s : Space} {sp : Uuid} {parent : Option Uuid} {members : List Sibling}
  {make : Sibling → Option Node} (h : s.Regroups sp parent members make)
include h

theorem find? {m : Sibling} (hm : m ∈ members) :
    (members.filterMap make).find? (·.id = m.id) = make m :=
  find?_filterMap_of_nodup h.nodup (fun _ hm c hc => (h.made hm c hc).1) hm

theorem find?_of_not_mem {id : Uuid} (hid : id ∉ members.map (·.id)) :
    (members.filterMap make).find? (·.id = id) = none := by
  rw [List.find?_eq_none]
  intro c hc hcid
  obtain ⟨m, hm, hmc⟩ := List.mem_filterMap.1 hc
  simp only [decide_eq_true_eq] at hcid
  exact hid (hcid ▸ (h.made hm c hmc).1 ▸ List.mem_map_of_mem hm)

theorem space_of_mem {c : Node} (hc : c ∈ members.filterMap make) : c.space = sp := by
  obtain ⟨m, hm, hmc⟩ := List.mem_filterMap.1 hc
  exact (h.made hm c hmc).2.1

theorem admits (ha : s.Agrees sp) : s.Admits (members.filterMap make) where
  ids := h.nodup.sublist (map_filterMap_sublist fun _ hm c hc => (h.made hm c hc).1)
  places := by
    have hplaces : (members.map fun m => (⟨parent, m.sort⟩ : Place)).Nodup := by
      refine List.pairwise_map.2 (h.ascending.imp fun {a b} hab heq => ?_)
      simp only [Place.mk.injEq, true_and] at heq
      exact absurd (heq ▸ hab) (Int.lt_irrefl _)
    exact hplaces.sublist (map_filterMap_sublist fun _ hm c hc => (h.made hm c hc).2.2)
  free := by
    intro c hc id hid
    obtain ⟨m, hm, hmc⟩ := List.mem_filterMap.1 hc
    obtain ⟨hcid, -, hplace⟩ := h.made hm c hmc
    rw [hplace, ha.place_iff] at hid
    obtain ⟨q, hq, hqplace⟩ := hid
    simp only [Node.place, Place.mk.injEq] at hqplace
    obtain ⟨m', hm', rfl, hstay⟩ := h.covered hq hqplace.1
    cases hmake : make m' with
    | some c' =>
      have hmem := List.mem_filterMap.2 ⟨m', hm', hmake⟩
      exact (h.made hm' c' hmake).1 ▸ List.mem_map_of_mem hmem
    | none =>
      -- it stays at a key that is its own in the group to be, so it is the node that takes it
      have heq : m' = m := h.ascending.eq_of_sort hm' hm ((hstay hmake).symm.trans hqplace.2)
      rw [heq, ← hcid]
      exact List.mem_map_of_mem hc

end Regroups

end Space

/-! ## The placement of the forest -/

namespace Shelf

variable {s : Shelf} {now : Timestamp}

/-- Records of stored nodes are entered without a change of the locator. -/
theorem Enters.of_stored (h : s.Agrees) {sp : Uuid} {parent : Option Uuid}
    {members : List Sibling} {make : Sibling → Option Node}
    (hr : (s.space sp).Regroups sp parent members make)
    (hstored : ∀ c ∈ members.filterMap make, ∃ n, (s.space sp).nodes[c.id]? = some n) :
    s.Enters sp (members.filterMap make) s.locator where
  admits := hr.admits (h.space sp)
  space _ hc := hr.space_of_mem hc
  home c hc sp' hsp' := by
    rw [h.locator_iff.2 (hstored c hc)] at hsp'
    exact (Option.some.inj hsp').symm
  locator id := by
    split
    · next hid =>
      obtain ⟨c, hc, rfl⟩ := List.mem_map.1 hid
      exact h.locator_iff.2 (hstored c hc)
    · rfl

/-- A member that is given its key anew has it afterwards, and is changed in nothing else. -/
theorem forest_enter_rekeyed (h : s.Agrees) {sp : Uuid} {parent : Option Uuid}
    {members : List Sibling} {make : Sibling → Option Node} {locator : Std.ExtTreeMap Uuid Uuid}
    (hr : (s.space sp).Regroups sp parent members make)
    (he : s.Enters sp (members.filterMap make) locator) {m : Sibling} (hm : m ∈ members)
    (hmake : make m = (s.space sp).rekeyed? now m) {q : Node}
    (hq : (s.space sp).nodes[m.id]? = some q) :
    ∃ sort updated, ⟨m.id, sort⟩ ∈ members ∧ (updated = q.updated ∨ updated = now) ∧
      (s.enter sp (members.filterMap make) locator).forest m.id =
        some { q.record with sort := sort, updated := updated } := by
  rw [forest_enter h he, hr.find? hm, hmake, Space.rekeyed?_of_node hq]
  by_cases hsort : q.sort = m.sort
  -- at its old key it keeps its time
  · refine ⟨m.sort, q.updated, hm, .inl rfl, ?_⟩
    rw [if_pos hsort, Option.map_none, Option.none_or, forest_of_node h hq, ← hsort]
    rfl
  · refine ⟨m.sort, now, hm, .inr rfl, ?_⟩
    rw [if_neg hsort]
    rfl

variable {n : Node} {parent : Option Uuid} {p : Placement} {left right : List Sibling}
  {locator : Std.ExtTreeMap Uuid Uuid}

/-- The members of a group are in the table of its space. -/
theorem exists_node_of_group (h : s.Agrees) {sp id : Uuid} {r : Record Node.Payload Timestamp}
    (hr : s.forest id = some r) (hgroup : r.group = ⟨sp, parent⟩) :
    ∃ q, (s.space sp).nodes[id]? = some q ∧ q.record = r ∧ q.parent = parent := by
  obtain ⟨q, -, hq, rfl⟩ := exists_node h hr
  obtain ⟨hspace, hparent⟩ : q.space = sp ∧ q.parent = parent := by
    simpa [Node.group] using hgroup
  exact ⟨q, by rwa [Node.record_space, hspace] at hq, rfl, hparent⟩

section Placing

variable (h : s.Agrees) (hp : Placing s.forest ⟨n.space, parent⟩ n.id p left right)
include h hp

/-- A member other than the placed node is stored in the group. -/
theorem node_of_mem_settled {m : Sibling} (hm : m ∈ p.settled left n.id right)
    (hne : m.id ≠ n.id) :
    ∃ q, (s.space n.space).nodes[m.id]? = some q ∧ q.parent = parent := by
  obtain ⟨r, hr, hgroup⟩ :=
    (hp.id_mem_settled_iff.1 (List.mem_map_of_mem hm)).resolve_left hne
  obtain ⟨q, hq, -, hparent⟩ := exists_node_of_group h hr hgroup
  exact ⟨q, hq, hparent⟩

theorem changesFor_eq (now : Timestamp) :
    (s.space n.space).changesFor n parent now p =
      (p.settled left n.id right).filterMap ((s.space n.space).change? n parent now) := by
  cases p with
  | respread members => rfl
  | key sort =>
    -- with a lone key the other members stay as they are
    have hstay : ∀ part, part ⊆ left ++ right →
        part.filterMap ((s.space n.space).change? n parent now) = [] := by
      intro part hpart
      rw [List.filterMap_eq_nil_iff]
      intro m hm
      obtain ⟨hne, r, hr, hgroup, hsort⟩ := hp.mem_others_iff.1 (hpart hm)
      obtain ⟨q, hq, rfl, -⟩ := exists_node_of_group h hr hgroup
      rw [Node.record_sort] at hsort
      rw [Space.change?, if_neg hne, Space.rekeyed?_of_node hq, if_pos hsort]
    have hself : (s.space n.space).change? n parent now ⟨n.id, sort⟩ =
        some (n.moveTo parent sort now) := if_pos rfl
    rw [Space.changesFor, Placement.settled, List.filterMap_append,
      hstay left (List.subset_append_left _ _), List.nil_append,
      List.filterMap_cons_some hself, hstay right (List.subset_append_right _ _)]

theorem change?_eq_some {m : Sibling} (hm : m ∈ p.settled left n.id right) {c : Node}
    (hc : (s.space n.space).change? n parent now m = some c) :
    c.id = m.id ∧ c.space = n.space ∧ c.place = ⟨parent, m.sort⟩ := by
  unfold Space.change? at hc
  split at hc
  · next hid =>
    cases hc
    exact ⟨hid.symm, rfl, rfl⟩
  · next hne =>
    obtain ⟨q, hq, rfl⟩ := node_of_mem_settled h hp hm hne
    exact Space.rekeyed?_eq_some (h.space _) hq hc

theorem regroups (now : Timestamp) :
    (s.space n.space).Regroups n.space parent (p.settled left n.id right)
      ((s.space n.space).change? n parent now) where
  ascending := hp.puts.ascending
  nodup := hp.nodup_settled
  made hm _ hc := change?_eq_some h hp hm hc
  covered {id q} hq hparent := by
    have hgroup : q.record.group = ⟨n.space, parent⟩ := by
      simp [Node.group, hparent, (h.space _).own_space hq]
    obtain ⟨m, hm, rfl⟩ := List.mem_map.1
      (hp.id_mem_settled_iff.2 (.inr ⟨_, forest_of_node h hq, hgroup⟩))
    refine ⟨m, hm, rfl, fun hnone => ?_⟩
    unfold Space.change? at hnone
    split at hnone
    · cases hnone
    · exact Space.sort_of_rekeyed?_eq_none hq hnone

/-- Entering the changes of a placement places the node in the forest. -/
theorem placed_enter
    (he : s.Enters n.space ((s.space n.space).changesFor n parent now p) locator) :
    Placed s.forest
      (s.enter n.space ((s.space n.space).changesFor n parent now p) locator).forest n.record
      ⟨n.space, parent⟩ (p.settled left n.id right) now := by
  have hr := regroups h hp now
  rw [changesFor_eq h hp] at he ⊢
  have hforest := forest_enter h he
  refine Placed.of_placing rfl hp ?_ (fun id q hne hq hgroup => ?_) fun id hne hout => ?_
  -- the node itself is always among the changes
  · obtain ⟨sort, hsort⟩ := hp.exists_key
    refine ⟨sort, now, hsort, .inr rfl, ?_⟩
    have hfind := hr.find? hsort
    rw [hforest, Node.record_id, hfind, Space.change?, if_pos rfl]
    rfl
  -- a sibling is given its key anew
  · rw [Node.record_id] at hne
    obtain ⟨m, hm, rfl⟩ := List.mem_map.1 (hp.id_mem_settled_iff.2 (.inr ⟨q, hq, hgroup⟩))
    obtain ⟨node, hnode, rfl, -⟩ := exists_node_of_group h hq hgroup
    exact forest_enter_rekeyed h hr he hm (if_neg hne) hnode
  -- and nobody else changes
  · have hid : id ∉ (p.settled left n.id right).map (·.id) := by
      rw [hp.id_mem_settled_iff]
      rintro (hid | ⟨q, hq, hgroup⟩)
      · exact hne hid
      · exact hout q hq hgroup
    rw [hforest, hr.find?_of_not_mem hid]
    rfl

end Placing

end Shelf

end Outline
