import Outline.Proofs.Table.Write

/-!
# Moves in a table

A move writes the keys of its placement: that of the node alone, or those of the whole group. In
either case the rows end up as the placement of the forest says, whatever the rows hold beside their
places. What a move has to read are the node and its new parent; the siblings of the node may be
unreadable.

Main results:

* `placed_settle` — writing the keys of a placement places the node;
* `Table.Holds.of_relocate` — what a successful move has passed, and what it has done.
-/

namespace Outline

open Sibling (Ascending)

/-! ## The keys that a placement writes -/

/-- The members whose rows get a key when `id` is placed. -/
def Placement.written (p : Placement) (id : Uuid) : List Sibling :=
  match p with
  | .key sort => [⟨id, sort⟩]
  | .respread members => members

section Written

variable {f : Forest Row.Payload String} {group : Group} {l : Line} {p : Placement}
  {left right : List Sibling}

/-- What is written is part of the group as it is to be. -/
theorem mem_settled_of_written {id : Uuid} {m : Sibling} (hm : m ∈ p.written id) :
    m ∈ p.settled left id right := by
  cases p with
  | key sort =>
    rw [List.mem_singleton.1 hm]
    simp [Placement.settled]
  | respread members => exact hm

/-- Whoever is not written keeps a key that the group as it is to be has for it. -/
theorem settled_of_not_written (hp : Placing f group l.id p left right) {id : Uuid} {q : Line}
    (hq : f id = some q) (hgroup : q.group = group) (hid : id ∉ (p.written l.id).map (·.id)) :
    ⟨id, q.sort⟩ ∈ p.settled left l.id right := by
  cases p with
  | key sort =>
    have hne : id ≠ l.id := by simpa [Placement.written] using hid
    exact hp.mem_settled_of_key rfl hne hq hgroup
  | respread members => exact absurd (hp.id_mem_settled_iff.2 (.inr ⟨q, hq, hgroup⟩)) hid

theorem rewrites_written (hl : f l.id = some l) (hspace : l.space = group.space)
    (hp : Placing f group l.id p left right) :
    Rewrites f group (p.written l.id) (some ⟨l.id, l.parent⟩) := by
  have hsub : (p.written l.id).Sublist (p.settled left l.id right) := by
    cases p with
    | key sort =>
      exact (List.singleton_sublist.2 List.mem_cons_self).trans (List.sublist_append_right _ _)
    | respread members => exact List.Sublist.refl _
  refine ⟨hp.puts.ascending.nodup_sorts.sublist (hsub.map _),
    hp.nodup_settled.sublist (hsub.map _), fun {m} hm => ?_, fun {m q} hm hq hgroup hid hsort => ?_⟩
  -- whoever gets a key is the mover or a member
  · rcases hp.id_mem_settled_iff.1 (List.mem_map_of_mem (mem_settled_of_written hm)) with
      hid | ⟨q, hq, hgroup⟩
    · exact ⟨l, by rw [hid, hl], hspace, .inr ⟨_, rfl, hid.symm, rfl⟩⟩
    · exact ⟨q, hq, congrArg Group.space hgroup, .inl (congrArg Group.parent hgroup)⟩
  -- in the group as it is to be, one key is one member
  · have hq' := settled_of_not_written hp hq hgroup hid
    have heq := hp.puts.ascending.eq_of_sort hq' (mem_settled_of_written hm) hsort
    refine hid ?_
    rw [show q.id = m.id from congrArg Sibling.id heq]
    exact List.mem_map_of_mem hm

/-- Settling the rows that a placement writes places the node. -/
theorem placed_settle (hl : f l.id = some l) (hspace : l.space = group.space)
    (hp : Placing f group l.id p left right) (stamp : String) :
    Placed f (f.settle group (p.written l.id) stamp) l group (p.settled left l.id right) stamp := by
  have hr := rewrites_written hl hspace hp
  have hsettled : ∀ {m q}, m ∈ p.written l.id → f m.id = some q →
      f.settle group (p.written l.id) stamp m.id = some (settledLine group stamp m q) := by
    intro m q hm hq
    rw [hr.settle_of_mem hm, hq, Option.map_some]
  refine Placed.of_placing hspace hp ?_ (fun id q hne hq hgroup => ?_) fun id hne hout => ?_
  -- the node is always written
  · obtain ⟨sort, hsort⟩ : ∃ sort, ⟨l.id, sort⟩ ∈ p.written l.id := by
      cases p with
      | key sort => exact ⟨sort, by simp [Placement.written]⟩
      | respread members => exact hp.exists_key
    exact ⟨sort, stamp, mem_settled_of_written hsort, .inr rfl, hsettled hsort hl⟩
  -- a sibling is written or has its key already
  · by_cases hin : id ∈ (p.written l.id).map (·.id)
    · obtain ⟨m, hm, rfl⟩ := List.mem_map.1 hin
      refine ⟨m.sort, stamp, mem_settled_of_written hm, .inr rfl, ?_⟩
      rw [hsettled hm hq, settledLine, ← congrArg Group.parent hgroup]
      rfl
    · have hother := settled_of_not_written hp hq hgroup hin
      exact ⟨q.sort, q.updated, hother, .inl rfl, by rw [Forest.settle_of_not_mem hin, hq]⟩
  -- and nobody else is
  · refine Forest.settle_of_not_mem fun hin => ?_
    obtain ⟨m, hm, rfl⟩ := List.mem_map.1 hin
    rcases hp.id_mem_settled_iff.1 (List.mem_map_of_mem (mem_settled_of_written hm)) with
      hid | ⟨q, hq, hgroup⟩
    · exact hne hid
    · exact hout q hq hgroup

end Written

namespace Table

/-- What a successful move beside an anchor has passed before it is a move. -/
theorem of_moveBeside {t : Table} {gap : Gap} {id anchor : Uuid} {side : Side} {now : Timestamp}
    {outcome : Node × Table} (hs : t.moveBeside gap id anchor side now = .ok outcome) :
    anchor ≠ id ∧ ∃ n a, t.fetch id = .ok n ∧ t.fetch anchor = .ok a ∧ a.space = n.space ∧
      t.relocate gap id a.parent (.beside anchor side) now = .ok outcome := by
  unfold moveBeside at hs
  dsimp only at hs
  obtain ⟨hne, hs⟩ := guard_eq_ok_iff.1 hs
  obtain ⟨n, hn, hs⟩ := bind_eq_ok_iff.1 hs
  obtain ⟨a, ha, hs⟩ := bind_eq_ok_iff.1 hs
  obtain ⟨hspace, hs⟩ := guard_eq_ok_iff.1 hs
  exact ⟨hne, n, a, hn, ha, not_not.1 hspace, hs⟩

namespace Holds

variable {t : Table} {f : Forest Row.Payload String} (h : t.Holds f)
include h

/-! ## What is read before a move -/

/-- A parent that is fetched and passes the check is suitable. -/
theorem lodged_of_fetchParent {l : Line} {parent : Option Node}
    (hget : t.fetchParent l.parent = .ok parent)
    (hcheck : checkParent l.kind l.space parent = .ok ()) : Lodged f l := by
  unfold Lodged
  rw [checkParent_eq_ok_iff] at hcheck
  cases hp : l.parent with
  | none =>
    rw [hp, fetchParent] at hget
    cases hget
    exact hcheck
  | some p =>
    rw [hp, fetchParent, map_eq_ok_iff] at hget
    obtain ⟨n, hn, rfl⟩ := hget
    obtain ⟨q, hq, hnode⟩ := h.of_fetch hn
    obtain ⟨-, hspace, hkind, -⟩ := Row.toNode_row_eq_ok_iff.1 hnode
    dsimp only at hcheck
    rw [hspace, hkind] at hcheck
    exact ⟨q, hq, hcheck⟩

/-- A climb that is clear shows that the node is not above its parent to be. -/
theorem clear_of_checkClimb (ho : Rooted f) {l : Line} {n : Node} {id : Uuid}
    (hspace : n.space = l.space) (hl : Lodged f l)
    (hclimb : t.checkClimb n id l.parent = .ok ()) :
    ∀ p, l.parent = some p → ¬Within f id p := by
  intro p hp
  obtain ⟨q, hq, hqs, -⟩ := hl.exists_parent hp
  rw [hp] at hclimb
  exact (h.checkClimb_eq_ok_iff ho hq (hqs.trans hspace.symm)).1 hclimb

/-! ## Moves -/

/-- What a successful move has passed, and what it has done. -/
theorem of_relocate (ho : IsOutline f) {gap : Gap} {id : Uuid} {parent : Option Uuid}
    {target : Target} {now : Timestamp} {n : Node} {t' : Table}
    (hs : t.relocate gap id parent target now = .ok (n, t')) :
    ∃ l p, f id = some l ∧ Lodged f { l with parent := parent } ∧
      (∀ q, parent = some q → ¬Within f id q) ∧
      gap.placeIn ⟨l.space, parent⟩ (t.members ⟨l.space, parent⟩) id target = .ok p ∧
      t'.Holds (f.settle ⟨l.space, parent⟩ (p.written id) now.toOffsetText) ∧
      t'.fetch id = .ok n := by
  obtain ⟨m, hfetch, hs⟩ := bind_eq_ok_iff.1 hs
  obtain ⟨pn, hparent, hs⟩ := bind_eq_ok_iff.1 hs
  obtain ⟨u, hcheck, hs⟩ := bind_eq_ok_iff.1 hs
  obtain ⟨u', hclimb, hs⟩ := bind_eq_ok_iff.1 hs
  obtain ⟨siblings, hsiblings, hs⟩ := bind_eq_ok_iff.1 hs
  obtain ⟨p, hplace, hs⟩ := bind_eq_ok_iff.1 hs
  obtain ⟨t₁, hwrite, hs⟩ := bind_eq_ok_iff.1 hs
  obtain ⟨m', hfetch', hs⟩ := bind_eq_ok_iff.1 hs
  cases hs
  rw [mapError_eq_ok_iff] at hcheck
  -- what the node that was read says of its place is in its record
  obtain ⟨l, hl, hnode⟩ := h.of_fetch hfetch
  obtain ⟨-, hspace, hkind, hmparent, -⟩ := Row.toNode_row_eq_ok_iff.1 hnode
  rw [hspace] at hcheck hsiblings hplace hwrite
  rw [hkind] at hcheck
  rw [h.siblings_eq] at hsiblings
  obtain rfl := Except.ok.inj hsiblings
  have hlodged : Lodged f { l with parent := parent } := h.lodged_of_fetchParent hparent hcheck
  have hid : l.id = id := (h.line hl).1
  subst hid
  have hplacing := Placing.of_placeIn (h.isListing_members ho.keys ⟨l.space, parent⟩) hplace
  have hr := rewrites_written hl rfl hplacing
  have hclear := h.clear_of_checkClimb (l := { l with parent := parent }) ho.rooted hspace hlodged
    hclimb
  refine ⟨l, p, hl, hlodged, hclear, hplace, ?_, hfetch'⟩
  change t.writeKeys ⟨l.space, parent⟩ (p.written l.id) (some ⟨l.id, m.parent⟩) now = .ok t'
    at hwrite
  rw [hmparent] at hwrite
  -- a move that found no room to park its rows would not have succeeded
  rcases h.writeKeys_eq ho.keys hr now with ⟨t₂, ht₂, hh₂, -⟩ | ⟨-, -, herror⟩
  · rw [ht₂] at hwrite
    obtain rfl := Except.ok.inj hwrite
    exact hh₂
  · rw [herror] at hwrite
    cases hwrite

theorem relocate_evolves (ho : IsOutline f) {gap : Gap} {id : Uuid} {parent : Option Uuid}
    {target : Target} {now : Timestamp} {n : Node} {t' : Table}
    (hs : t.relocate gap id parent target now = .ok (n, t')) :
    ∃ g, t'.Holds g ∧ Evolves f g := by
  obtain ⟨l, p, hl, hlodged, hclear, hplace, hholds, -⟩ := h.of_relocate ho hs
  obtain ⟨rfl, -⟩ := h.line hl
  have hplacing := Placing.of_placeIn (h.isListing_members ho.keys ⟨l.space, parent⟩) hplace
  exact ⟨_, hholds, .moved (placed_settle hl rfl hplacing _) hl rfl hlodged hclear⟩

/-- A move leaves readable rows readable: the time it writes is in the row that it reads at last. -/
theorem relocate_readable (ho : IsOutline f) (hr : t.Readable) {gap : Gap} {id : Uuid}
    {parent : Option Uuid} {target : Target} {now : Timestamp} {n : Node} {t' : Table}
    (hs : t.relocate gap id parent target now = .ok (n, t')) : t'.Readable := by
  obtain ⟨l, p, hl, -, -, hplace, hholds, hfetch⟩ := h.of_relocate ho hs
  obtain ⟨rfl, -⟩ := h.line hl
  have hplacing := Placing.of_placeIn (h.isListing_members ho.keys ⟨l.space, parent⟩) hplace
  have hrewrites := rewrites_written hl rfl hplacing
  -- the row of the node is written and then read
  have hstamp : ∃ time, Timestamp.ofText? now.toOffsetText = some time := by
    obtain ⟨m, hm, hid⟩ : ∃ m ∈ p.written l.id, m.id = l.id := by
      cases p with
      | key sort => exact ⟨_, List.mem_singleton_self _, rfl⟩
      | respread members =>
        obtain ⟨sort, hsort⟩ := hplacing.exists_key
        exact ⟨_, hsort, rfl⟩
    obtain ⟨q, hq, hnode⟩ := hholds.of_fetch hfetch
    have hsettled := hrewrites.settle_of_mem hm now.toOffsetText
    rw [hid, hq, hl, Option.map_some] at hsettled
    obtain rfl := Option.some.inj hsettled
    exact (Row.exists_toNode_iff.1 ⟨n, hnode⟩).2.2
  intro r hr'
  obtain ⟨q, hq, rfl⟩ := hholds.row hr'
  -- a written row has its other columns from a readable one
  by_cases hin : q.id ∈ (p.written l.id).map (·.id)
  · obtain ⟨m, hm, hid⟩ := List.mem_map.1 hin
    rw [← hid, hrewrites.settle_of_mem hm] at hq
    obtain ⟨old, hold, rfl⟩ := Option.map_eq_some_iff.1 hq
    obtain ⟨hproperties, hcreated, -⟩ := Row.exists_toNode_iff.1 (hr _ (h.line hold).2)
    exact Row.exists_toNode_iff.2 ⟨hproperties, hcreated, hstamp⟩
  · rw [Forest.settle_of_not_mem hin] at hq
    exact hr _ (h.line hq).2

end Holds

end Table

end Outline
