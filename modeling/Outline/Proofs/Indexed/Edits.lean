import Outline.Proofs.Indexed.Moves

/-!
# Creations, updates and removals in memory

A creation enters a placement of a record that is not yet stored. It is refused for a defect, for an
identifier that is stored, for a parent that does not suit, and then only for want of keys or, at
its own key, because the key is taken. The other writing calls are simpler: an update changes
payload, a removal takes a branch out, and a renumbering gives a group new keys in its present
order.

Main results:

* `Shelf.insert_own_eq`, `Shelf.insert_last_eq` — creations that pass the checks;
* `Shelf.update_eq`, `Shelf.delete_eq`, `Shelf.renumber_eq` — the other writing calls.
-/

namespace Outline

namespace Space

/-- A creation makes the changes of a placement; with a lone key the node keeps its own time. -/
theorem changesForNew_eq (s : Space) (n : Node) (now : Timestamp) (p : Placement) :
    s.changesForNew n now p =
      s.changesFor n n.parent (if p.isRespread then now else n.updated) p := by
  cases p <;> rfl

end Space

namespace Shelf

variable {s : Shelf} {now : Timestamp}

/-! ## Creations -/

section Create

variable {n : Node}

/-- A creation that passes the checks comes to its placement. -/
theorem insert_eq (h : s.Agrees) (hcheck : n.check = .ok ()) (hn : s.forest n.id = none)
    (hl : Lodged s.forest n.record) (entry : Entry) :
    s.insert n entry now =
      (match entry with
        | .own => .ok (.key n.sort)
        | .last => s.gap.placeIn n.group ((s.space n.space).siblings n.parent) n.id .last)
      >>= fun p =>
        (s.space n.space).commit n.space ((s.space n.space).changesForNew n now p) >>= fun space =>
          space.get n.id >>= fun m =>
            pure (m, { s.putSpace n.space space with
              locator := s.locator.insert n.id n.space }) := by
  -- the identifier is new, so the locator does not know it
  have hloc : s.locator.contains n.id = false := by
    rw [Std.ExtTreeMap.contains_eq_isSome_getElem?, (locator_eq_none_iff h).2 hn]
    rfl
  obtain ⟨parent, hget, hparent⟩ := getParent_of_lodged h hl
  simp only [Node.record_space, Node.record_parent, Node.record_kind] at hget hparent
  unfold insert
  rw [hcheck, mapError_ok, bind_ok, hloc]
  dsimp only
  rw [hget]
  cases entry with
  | own =>
    simp only [Bool.false_eq_true, if_false, bind_ok, hparent, mapError_ok]
    rfl
  | last =>
    simp only [Bool.false_eq_true, if_false, bind_ok, hparent, mapError_ok]
    cases s.gap.placeIn n.group ((s.space n.space).siblings n.parent) n.id .last <;> rfl

/-- A placement of the new node is entered. -/
theorem insert_entered (now : Timestamp) (h : s.Agrees) (hn : s.forest n.id = none) {p : Placement}
    {left right : List Sibling}
    (hp : Placing s.forest ⟨n.space, n.parent⟩ n.id p left right) :
    ∃ m,
      (s.space n.space).commit n.space ((s.space n.space).changesForNew n now p) >>= (fun space =>
        space.get n.id >>= fun m => (pure (m, { s.putSpace n.space space with
          locator := s.locator.insert n.id n.space }) : Except StoreError (Node × Shelf))) =
        .ok (m, s.enter n.space ((s.space n.space).changesForNew n now p)
          (s.locator.insert n.id n.space)) ∧
      s.Enters n.space ((s.space n.space).changesForNew n now p)
        (s.locator.insert n.id n.space) ∧
      (s.enter n.space ((s.space n.space).changesForNew n now p)
        (s.locator.insert n.id n.space)).forest n.id = some m.record := by
  rw [Space.changesForNew_eq]
  have he := Enters.of_new h ((locator_eq_none_iff h).2 hn) hp
    (if p.isRespread then now else n.updated)
  obtain ⟨m, hcommit, hget, -, hm, -⟩ := commit_placed h hp he
  refine ⟨m, ?_, he, hm⟩
  rw [hcommit, bind_ok, hget]
  rfl

theorem insert_placed (h : s.Agrees) (hn : s.forest n.id = none) {p : Placement}
    {left right : List Sibling}
    (hp : Placing s.forest ⟨n.space, n.parent⟩ n.id p left right) :
    ∃ m s' stamp,
      (s.space n.space).commit n.space ((s.space n.space).changesForNew n now p) >>= (fun space =>
        space.get n.id >>= fun m => (pure (m, { s.putSpace n.space space with
          locator := s.locator.insert n.id n.space }) : Except StoreError (Node × Shelf))) =
        .ok (m, s') ∧ s'.Agrees ∧ s'.gap = s.gap ∧ s'.forest n.id = some m.record ∧
        Placed s.forest s'.forest n.record n.group (p.settled left n.id right) stamp := by
  obtain ⟨m, hinsert, he, hm⟩ := insert_entered now h hn hp
  refine ⟨m, _, if p.isRespread then now else n.updated, hinsert, h.enter he, rfl, hm, ?_⟩
  rw [Space.changesForNew_eq] at he ⊢
  exact placed_enter h hp he

/-- A creation at the end of a group succeeds exactly when there are keys for it. -/
theorem insert_last_eq (now : Timestamp) (h : s.Agrees) (hcheck : n.check = .ok ())
    (hn : s.forest n.id = none) (hl : Lodged s.forest n.record) :
    match s.gap.placeIn n.group ((s.space n.space).siblings n.parent) n.id .last with
    | .error e => s.insert n .last now = .error e
    | .ok p => ∃ m s' stamp, s.insert n .last now = .ok (m, s') ∧ s'.Agrees ∧ s'.gap = s.gap ∧
        s'.forest n.id = some m.record ∧
        Placed s.forest s'.forest n.record n.group
          (p.settled
            (Target.last.cut (((s.space n.space).siblings n.parent).filter (·.id ≠ n.id))).1 n.id
            (Target.last.cut (((s.space n.space).siblings n.parent).filter (·.id ≠ n.id))).2)
          stamp := by
  rw [insert_eq h hcheck hn hl]
  cases hplace : s.gap.placeIn n.group ((s.space n.space).siblings n.parent) n.id .last with
  | error e => rfl
  | ok p => exact insert_placed h hn (placing_of_placeIn h hplace)

/-- The key of a creation at its own key is free. -/
def KeyFree (s : Shelf) (n : Node) : Prop :=
  ∀ m ∈ (s.space n.space).siblings n.parent, m.sort ≠ n.sort

theorem insert_own_eq (now : Timestamp) (h : s.Agrees) (hcheck : n.check = .ok ())
    (hn : s.forest n.id = none) (hl : Lodged s.forest n.record) (hfree : s.KeyFree n) :
    ∃ m s' stamp, s.insert n .own now = .ok (m, s') ∧ s'.Agrees ∧ s'.gap = s.gap ∧
      s'.forest n.id = some m.record ∧
      Placed s.forest s'.forest n.record n.group
        ((Placement.key n.sort).settled ((Target.at n.sort).cut
          (((s.space n.space).siblings n.parent).filter (·.id ≠ n.id))).1 n.id
          ((Target.at n.sort).cut
            (((s.space n.space).siblings n.parent).filter (·.id ≠ n.id))).2) stamp := by
  rw [insert_eq h hcheck hn hl]
  exact insert_placed h hn
    (.of_free (isListing_siblings h ⟨n.space, n.parent⟩) fun m hm _ => hfree m hm)

theorem insert_own_taken (h : s.Agrees) (hcheck : n.check = .ok ()) (hn : s.forest n.id = none)
    (hl : Lodged s.forest n.record) (htaken : ¬s.KeyFree n) :
    s.insert n .own now = .error (.duplicateSort n.group n.sort) := by
  rw [insert_eq h hcheck hn hl, bind_ok]
  have hnot : ¬(s.space n.space).Admits [n] := by
    intro ha
    refine htaken fun m hm hsort => ?_
    rw [Space.mem_siblings, hsort] at hm
    have hid := ha.free n (by simp) m.id hm
    obtain ⟨q, hq, -⟩ := (h.space _).place_iff.1 hm
    -- the holder of the key would be the new node itself
    rw [List.map_singleton, List.mem_singleton] at hid
    rw [← hid, forest_of_node h hq] at hn
    cases hn
  obtain ⟨c, hc, herror⟩ := (Space.commit_eq (h.space n.space).toIndexed n.space (by simp)).2 hnot
  obtain rfl := List.mem_singleton.1 hc
  change (s.space c.space).commit c.space [c] >>= _ = _
  rw [herror]
  rfl

/-- What a successful creation has passed. -/
theorem of_insert (h : s.Agrees) {entry : Entry} {m : Node} {s' : Shelf}
    (hs : s.insert n entry now = .ok (m, s')) :
    n.check = .ok () ∧ s.forest n.id = none ∧ Lodged s.forest n.record := by
  unfold insert at hs
  obtain ⟨u, hcheck, hs⟩ := bind_eq_ok_iff.1 hs
  rw [mapError_eq_ok_iff] at hcheck
  dsimp only at hs
  obtain ⟨hloc, hs⟩ := guard_eq_ok_iff.1 hs
  obtain ⟨parent, hget, hs⟩ := bind_eq_ok_iff.1 hs
  obtain ⟨u, hparent, -⟩ := bind_eq_ok_iff.1 hs
  rw [mapError_eq_ok_iff] at hparent
  refine ⟨hcheck, (locator_eq_none_iff h).1 (by simpa using hloc), ?_⟩
  exact lodged_of_getParent h (r := n.record) hget hparent

end Create

/-! ## Updates -/

section Update

variable {id : Uuid} {n m : Node}

/-- A new version of a node that keeps its place is entered. -/
theorem Enters.of_version (h : s.Agrees) (hn : (s.space n.space).nodes[n.id]? = some n)
    (hid : m.id = n.id) (hspace : m.space = n.space) (hplace : m.place = n.place) :
    s.Enters n.space [m] s.locator := by
  have hown : (s.space n.space).places[n.place]? = some n.id :=
    (h.space _).place_iff.2 ⟨n, hn, rfl⟩
  have hloc : s.locator[n.id]? = some n.space := h.locator_iff.2 ⟨n, hn⟩
  refine ⟨⟨by simp, by simp, fun c hc a ha => ?_⟩, fun c hc => ?_, fun c hc sp' hsp' => ?_,
    fun a => ?_⟩
  -- whoever has the place is the node itself
  · obtain rfl := List.mem_singleton.1 hc
    rw [hplace, hown] at ha
    simpa [hid] using (Option.some.inj ha).symm
  · obtain rfl := List.mem_singleton.1 hc
    exact hspace
  · obtain rfl := List.mem_singleton.1 hc
    rw [hid, hloc] at hsp'
    exact (Option.some.inj hsp').symm
  -- the locator has the node where it is
  · split
    · next ha =>
      have ha : a = n.id := by simpa [hid] using ha
      rw [ha, hloc]
    · rfl

/-- To enter it is to leave the index as it is. -/
theorem entered_version (h : s.Agrees) (hn : (s.space n.space).nodes[n.id]? = some n)
    (hid : m.id = n.id) (hspace : m.space = n.space) (hplace : m.place = n.place) :
    (s.space n.space).entered [m] =
      { s.space n.space with nodes := (s.space n.space).nodes.insert n.id m } := by
  have he := Enters.of_version h hn hid hspace hplace
  have hown : (s.space n.space).places[n.place]? = some n.id :=
    (h.space _).place_iff.2 ⟨n, hn, rfl⟩
  refine congrArg₂ Space.mk ?_ (Std.ExtTreeMap.ext_getElem? fun place => ?_)
  · rw [← hid]
    rfl
  · refine (Space.getElem?_places_entered he.admits place).trans ?_
    by_cases hp : n.place = place
    · simp [hplace, ← hp, hown, hid]
    · simp [hplace, hp, hid, hn]

/-- An update changes the payload of the stored node. -/
theorem update_eq (now : Timestamp) (h : s.Agrees)
    (hn : (s.space n.space).nodes[id]? = some n)
    {patch : Patch} (hcheck : (n.patch patch now).check = .ok ()) :
    ∃ s', s.update id patch now = .ok (n.patch patch now, s') ∧ s'.Agrees ∧ s'.gap = s.gap ∧
      s'.forest = s.forest.put (n.patch patch now).record := by
  obtain rfl : n.id = id := (h.space _).own_id hn
  have he : s.Enters n.space [n.patch patch now] s.locator := .of_version h hn rfl rfl rfl
  have hentered : (s.space n.space).entered [n.patch patch now] = _ :=
    entered_version h hn rfl rfl rfl
  refine ⟨_, ?_, h.enter he, rfl, forest_enter_singleton h he⟩
  have hsp : s.spaceOf n.id = .ok n.space := spaceOf_eq h (forest_of_node h hn)
  have hget : (s.space n.space).get n.id = .ok n := by rw [Space.get, hn]
  rw [update, hsp, bind_ok]
  dsimp only
  rw [hget, bind_ok, hcheck, mapError_ok, bind_ok, enter, hentered]
  rfl

theorem of_update (h : s.Agrees) {patch : Patch} {s' : Shelf}
    (hs : s.update id patch now = .ok (m, s')) :
    ∃ n, (s.space n.space).nodes[id]? = some n ∧ (n.patch patch now).check = .ok () := by
  unfold update at hs
  obtain ⟨sp, hsp, hs⟩ := bind_eq_ok_iff.1 hs
  obtain ⟨n, hget, hs⟩ := bind_eq_ok_iff.1 hs
  obtain ⟨u, hcheck, -⟩ := bind_eq_ok_iff.1 hs
  rw [mapError_eq_ok_iff] at hcheck
  have hn := node_of_space_get hget
  obtain rfl : n.space = sp := (h.space sp).own_space hn
  exact ⟨n, hn, hcheck⟩

end Update

/-! ## Removals -/

/-- The shelf without a branch. -/
def without (s : Shelf) (top : Node) : Shelf :=
  { s.putSpace top.space ((s.space top.space).remove top ((s.space top.space).branch top.id)) with
    locator := s.locator.filter fun id _ => id ∉ (s.space top.space).branch top.id }

section Remove

variable {top : Node}

theorem space_without (top : Node) (sp : Uuid) :
    (s.without top).space sp = if top.space = sp then
      (s.space top.space).remove top ((s.space top.space).branch top.id) else s.space sp :=
  space_putSpace s _ _ _

/-- A branch does not leave its space. -/
theorem not_within_of_space (h : s.Agrees) (ho : Rooted s.forest)
    (htop : s.forest top.id = some top.record) {sp id : Uuid} {n : Node}
    (hn : (s.space sp).nodes[id]? = some n) (hsp : top.space ≠ sp) :
    ¬Within s.forest top.id id := by
  intro hw
  have hspace := ho.space_of_within (forest_of_node h hn) htop hw
  rw [Node.record_space, Node.record_space, (h.space sp).own_space hn] at hspace
  exact hsp hspace

theorem getElem?_nodes_without (h : s.Agrees) (ho : Rooted s.forest)
    (htop : s.forest top.id = some top.record) {sp id : Uuid} {n : Node} :
    ((s.without top).space sp).nodes[id]? = some n ↔
      (s.space sp).nodes[id]? = some n ∧ ¬Within s.forest top.id id := by
  have hbranch := mem_branch_iff id h ho htop
  rw [Node.record_space] at hbranch
  rw [space_without]
  split
  · next hsp =>
    subst hsp
    rw [Space.remove, getElem?_filter_eq_some_iff, decide_eq_true_eq, hbranch]
  · next hsp => exact ⟨fun hn => ⟨hn, not_within_of_space h ho htop hn hsp⟩, And.left⟩

/-- A node is out of a branch when it is not the topmost and its parent is out. The index goes by
this, where the table goes by identifiers. -/
theorem place_stays_iff (h : s.Agrees) (ho : Rooted s.forest)
    (htop : s.forest top.id = some top.record) {id : Uuid} {n : Node}
    (hn : (s.space top.space).nodes[id]? = some n) :
    (n.place ≠ top.place ∧ ∀ a ∈ (s.space top.space).branch top.id, n.parent ≠ some a) ↔
      ¬Within s.forest top.id id := by
  have hf := forest_of_node h hn
  have hbranch := fun a => mem_branch_iff a h ho htop
  simp only [Node.record_space] at hbranch
  obtain ⟨path, hpath⟩ := ho.ascent hf
  obtain ⟨t, -, ht, htt⟩ := exists_node h htop
  obtain rfl := Node.record_inj.1 htt
  rw [within_iff_parent hpath hf, not_or, Node.record_parent,
    ← (h.space t.space).place_inj hn ht]
  simp only [hbranch]
  refine and_congr_right fun _ => ⟨?_, fun hnot a ha hp => hnot ⟨a, hp, ha⟩⟩
  rintro hnot ⟨p, hp, hw⟩
  exact hnot p hw hp

/-- What is left of the index is what is left of the nodes. -/
theorem agrees_remove (h : s.Agrees) (ho : Rooted s.forest)
    (htop : s.forest top.id = some top.record) (sp : Uuid) :
    ((s.without top).space sp).Agrees sp := by
  refine ⟨⟨fun {place id} => ?_, fun {id n} hn => ?_⟩, fun {id n} hn => ?_⟩
  -- the places, in the space of the branch and in any other
  · simp only [getElem?_nodes_without h ho htop]
    rw [space_without]
    split
    · next hsp =>
      subst hsp
      simp only [Space.remove, getElem?_filter_eq_some_iff, (h.space _).place_iff,
        decide_eq_true_eq]
      constructor
      · rintro ⟨⟨n, hn, rfl⟩, hstays⟩
        exact ⟨n, ⟨hn, (place_stays_iff h ho htop hn).1 hstays⟩, rfl⟩
      · rintro ⟨n, ⟨hn, hw⟩, rfl⟩
        exact ⟨⟨n, hn, rfl⟩, (place_stays_iff h ho htop hn).2 hw⟩
    · next hsp =>
      rw [(h.space sp).place_iff]
      refine exists_congr fun n => and_congr_left fun _ => ?_
      exact ⟨fun hn => ⟨hn, not_within_of_space h ho htop hn hsp⟩, And.left⟩
  -- the identifiers and the space
  · exact (h.space sp).own_id ((getElem?_nodes_without h ho htop).1 hn).1
  · exact (h.space sp).own_space ((getElem?_nodes_without h ho htop).1 hn).1

theorem agrees_without (h : s.Agrees) (ho : Rooted s.forest)
    (htop : s.forest top.id = some top.record) : (s.without top).Agrees := by
  refine ⟨agrees_remove h ho htop, fun {id sp} => ?_⟩
  simp only [getElem?_nodes_without h ho htop]
  have hbranch := mem_branch_iff id h ho htop
  rw [Node.record_space] at hbranch
  have hloc : (s.without top).locator[id]? = some sp ↔
      s.locator[id]? = some sp ∧ ¬Within s.forest top.id id := by
    rw [without, getElem?_filter_eq_some_iff, decide_eq_true_eq, hbranch]
  rw [hloc, h.locator_iff, exists_and_right]

/-- A removal takes a stored node out of its space with everything below it. -/
theorem delete_eq (h : s.Agrees) (ho : Rooted s.forest)
    (htop : s.forest top.id = some top.record) :
    s.delete top.space top.id = .ok (((s.space top.space).branch top.id).length, s.without top) ∧
      (s.without top).Agrees ∧ Removed s.forest (s.without top).forest top.id := by
  have h' := agrees_without h ho htop
  refine ⟨?_, h', fun id => ?_⟩
  -- the answer
  · obtain ⟨t, hget, htt⟩ := space_get_eq h htop
    obtain rfl := Node.record_inj.1 htt
    rw [Node.record_space] at hget
    rw [delete, hget]
    rfl
  -- what is left
  · have hiff : ∀ r, (s.without top).forest id = some r ↔
        s.forest id = some r ∧ ¬Within s.forest top.id id := by
      intro r
      rw [forest_eq_some_iff h', forest_eq_some_iff h]
      simp only [getElem?_nodes_without h ho htop]
      tauto
    constructor
    · intro hw
      exact Option.eq_none_iff_forall_ne_some.2 fun r hr => ((hiff r).1 hr).2 hw
    · intro hw
      refine Option.ext fun r => ?_
      rw [hiff, and_iff_left hw]

theorem of_delete (h : s.Agrees) {sp id : Uuid} {count : Nat} {s' : Shelf}
    (hs : s.delete sp id = .ok (count, s')) :
    ∃ n : Node, s.forest id = some n.record ∧ n.space = sp ∧ n.id = id := by
  obtain ⟨n, hget, -⟩ := bind_eq_ok_iff.1 hs
  have hn := node_of_space_get hget
  exact ⟨n, forest_of_node h hn, (h.space sp).own_space hn, (h.space sp).own_id hn⟩

end Remove

/-! ## Renumberings -/

section Renumber

variable {group : Group} {members : List Sibling}

theorem regroups_renumber (now : Timestamp) (h : s.Agrees)
    (hm : s.gap.compact ((s.space group.space).siblings group.parent) = .ok members) :
    (s.space group.space).Regroups group.space group.parent members
      ((s.space group.space).rekeyed? now) := by
  have hlist := isListing_siblings h group
  obtain ⟨hids, hasc⟩ := Gap.compact_eq_ok hlist.ascending hm
  -- the members are the same as before
  have hiff : ∀ id, id ∈ members.map (·.id) ↔ ∃ r, s.forest id = some r ∧ r.group = group := by
    intro id
    rw [hids, hlist.id_mem_iff]
  refine ⟨hasc, hids ▸ hlist.nodup, fun {m} hm c hc => ?_, fun {id q} hq hparent => ?_⟩
  · obtain ⟨r, hr, hgroup⟩ := (hiff m.id).1 (List.mem_map_of_mem hm)
    obtain ⟨q, hq, -, hparent⟩ := exists_node_of_group h hr hgroup
    rw [← hparent]
    exact Space.rekeyed?_eq_some (h.space _) hq hc
  · have hgroup : q.record.group = group := by
      simp [Node.group, hparent, (h.space _).own_space hq]
    obtain ⟨m, hm, rfl⟩ := List.mem_map.1 ((hiff id).2 ⟨_, forest_of_node h hq, hgroup⟩)
    exact ⟨m, hm, rfl, fun hnone => Space.sort_of_rekeyed?_eq_none hq hnone⟩

/-- A renumbering that finds keys enters those members that get another one. -/
theorem renumber_entered (now : Timestamp) (h : s.Agrees) {parent : Option Node}
    (hparent : (s.space group.space).getParent group.parent = .ok parent)
    (hm : s.gap.compact ((s.space group.space).siblings group.parent) = .ok members) :
    let changes := members.filterMap ((s.space group.space).rekeyed? now)
    s.Enters group.space changes s.locator ∧
      s.renumber group now =
        .ok (((s.enter group.space changes s.locator).space group.space).children group.parent,
          s.enter group.space changes s.locator) := by
  have hreg := regroups_renumber now h hm
  have hids := (Gap.compact_eq_ok (isListing_siblings h group).ascending hm).1
  have he := Enters.of_stored h hreg fun c hc => by
    obtain ⟨m, hm, hmc⟩ := List.mem_filterMap.1 hc
    obtain ⟨r, hr, hgroup⟩ := (isListing_siblings h group).id_mem_iff.1
      (hids ▸ List.mem_map_of_mem hm)
    obtain ⟨q, hq, -, -⟩ := exists_node_of_group h hr hgroup
    exact ⟨q, (hreg.made hm c hmc).1 ▸ hq⟩
  have hcommit := (Space.commit_eq (h.space group.space).toIndexed group.space he.admits.ids).1
    he.admits
  refine ⟨he, ?_⟩
  rw [renumber, hparent, bind_ok, hm, mapError_ok, bind_ok, hcommit, bind_ok, space_enter,
    if_pos rfl]
  rfl

/-- A renumbering gives the group the keys of the allocator. -/
theorem renumber_eq (now : Timestamp) (h : s.Agrees) {parent : Option Node}
    (hparent : (s.space group.space).getParent group.parent = .ok parent)
    (hm : s.gap.compact ((s.space group.space).siblings group.parent) = .ok members) :
    ∃ s', s.renumber group now = .ok ((s'.space group.space).children group.parent, s') ∧
      s'.Agrees ∧ s'.gap = s.gap ∧ Rekeyed s.forest s'.forest group members now := by
  have hreg := regroups_renumber now h hm
  have hids := (Gap.compact_eq_ok (isListing_siblings h group).ascending hm).1
  obtain ⟨he, hrenumber⟩ := renumber_entered now h hparent hm
  refine ⟨_, hrenumber, h.enter he, rfl, hreg.ascending, hreg.nodup, fun {id} => ?_,
    fun {id r} hr hgroup => ?_, fun {id} hout => ?_⟩
  · rw [hids, (isListing_siblings h group).id_mem_iff]
  -- each member is given its key anew
  · obtain ⟨q, hq, rfl, hparent⟩ := exists_node_of_group h hr hgroup
    obtain ⟨m, hm, rfl, -⟩ := hreg.covered hq hparent
    exact forest_enter_rekeyed h hreg he hm rfl hq
  -- and nobody else is touched
  · have hid : id ∉ members.map (·.id) := by
      rw [hids, (isListing_siblings h group).id_mem_iff]
      rintro ⟨r, hr, hgroup⟩
      exact hout r hr hgroup
    rw [forest_enter h he, hreg.find?_of_not_mem hid]
    rfl

theorem of_renumber {ns : List Node} {s' : Shelf} (hs : s.renumber group now = .ok (ns, s')) :
    ∃ parent members, (s.space group.space).getParent group.parent = .ok parent ∧
      s.gap.compact ((s.space group.space).siblings group.parent) = .ok members := by
  obtain ⟨parent, hparent, hs⟩ := bind_eq_ok_iff.1 hs
  obtain ⟨members, hm, -⟩ := bind_eq_ok_iff.1 hs
  rw [mapError_eq_ok_iff] at hm
  exact ⟨parent, members, hparent, hm⟩

end Renumber

end Shelf

end Outline
