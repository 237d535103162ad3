import Outline.Proofs.Indexed.Place

/-!
# Moves in memory

A placement that the allocator finds is always entered, so a move fails only for what is checked
first or for want of keys. What is checked first is that the node and its parent are stored, that
the parent suits the node, and that the node is not above it.

Main results:

* `Shelf.commit_placed` — entering a placement places the node;
* `Shelf.relocate_blocked` — a move below itself is refused;
* `Shelf.relocate_eq` — any other move under a suitable parent succeeds if there are keys for it;
* `Shelf.of_relocate` — what a successful move has passed.
-/

namespace Outline

namespace Shelf

variable {s : Shelf} {now : Timestamp}

/-! ## Looking up the nodes of a call -/

theorem spaceOf_eq (h : s.Agrees) {id : Uuid} {r : Record Node.Payload Timestamp}
    (hr : s.forest id = some r) : s.spaceOf id = .ok r.space := by
  obtain ⟨n, -, hn, -⟩ := exists_node h hr
  rw [spaceOf, h.locator_iff.2 ⟨n, hn⟩]

theorem spaceOf_eq_error (h : s.Agrees) {id : Uuid} (hid : s.forest id = none) :
    s.spaceOf id = .error (.notFound id) := by
  rw [spaceOf, (locator_eq_none_iff h).2 hid]

theorem space_get_eq (h : s.Agrees) {id : Uuid} {r : Record Node.Payload Timestamp}
    (hr : s.forest id = some r) : ∃ n, (s.space r.space).get id = .ok n ∧ n.record = r := by
  obtain ⟨n, -, hn, hnr⟩ := exists_node h hr
  exact ⟨n, by rw [Space.get, hn], hnr⟩

theorem node_of_space_get {sp id : Uuid} {n : Node} (hn : (s.space sp).get id = .ok n) :
    (s.space sp).nodes[id]? = some n := by
  unfold Space.get at hn
  split at hn
  · next m hm =>
    cases hn
    exact hm
  · cases hn

/-- A suitable parent is found and passes the check. -/
theorem getParent_of_lodged (h : s.Agrees) {r : Record Node.Payload Timestamp}
    (hl : Lodged s.forest r) :
    ∃ parent, (s.space r.space).getParent r.parent = .ok parent ∧
      checkParent r.kind r.space parent = .ok () := by
  unfold Lodged at hl
  split at hl
  · next hp => exact ⟨none, by rw [hp]; rfl, checkParent_eq_ok_iff.2 hl⟩
  · next p hp =>
    obtain ⟨q, hq, hspace, hpage⟩ := hl
    obtain ⟨n, hn, rfl⟩ := space_get_eq h hq
    rw [Node.record_space] at hspace
    refine ⟨some n, ?_, checkParent_eq_ok_iff.2 ⟨hspace, hpage⟩⟩
    rw [hp, ← hspace]
    simpa [Space.getParent, Except.map] using congrArg (Except.map some) hn

/-- A parent that is found and passes the check is suitable. -/
theorem lodged_of_getParent (h : s.Agrees) {r : Record Node.Payload Timestamp}
    {parent : Option Node} (hget : (s.space r.space).getParent r.parent = .ok parent)
    (hcheck : checkParent r.kind r.space parent = .ok ()) : Lodged s.forest r := by
  unfold Lodged
  rw [checkParent_eq_ok_iff] at hcheck
  cases hp : r.parent with
  | none =>
    rw [hp, Space.getParent] at hget
    cases hget
    exact hcheck
  | some p =>
    rw [hp, Space.getParent, map_eq_ok_iff] at hget
    obtain ⟨n, hn, rfl⟩ := hget
    exact ⟨n.record, forest_of_node h (node_of_space_get hn), hcheck⟩

/-! ## Entering a placement -/

section Enter

variable {n : Node} {parent : Option Uuid} {p : Placement} {left right : List Sibling}

/-- What the allocator finds for a node is a placement in its space. -/
theorem placing_of_placeIn (h : s.Agrees) {group : Group} {target : Target}
    (hplace : s.gap.placeIn group ((s.space n.space).siblings parent) n.id target = .ok p) :
    Placing s.forest ⟨n.space, parent⟩ n.id p
      (target.cut (((s.space n.space).siblings parent).filter (·.id ≠ n.id))).1
      (target.cut (((s.space n.space).siblings parent).filter (·.id ≠ n.id))).2 :=
  .of_placeIn (isListing_siblings h ⟨n.space, parent⟩) hplace

/-- A stored node may be placed without a change of the locator. -/
theorem Enters.of_moved (h : s.Agrees) (hn : (s.space n.space).nodes[n.id]? = some n)
    (hp : Placing s.forest ⟨n.space, parent⟩ n.id p left right) (now : Timestamp) :
    s.Enters n.space ((s.space n.space).changesFor n parent now p) s.locator := by
  have hreg := regroups h hp now
  rw [changesFor_eq h hp]
  refine Enters.of_stored h hreg fun c hc => ?_
  -- what changes is the node itself or a member of the group
  obtain ⟨m, hm, hmc⟩ := List.mem_filterMap.1 hc
  rw [(hreg.made hm c hmc).1]
  by_cases hid : m.id = n.id
  · exact ⟨n, hid ▸ hn⟩
  · obtain ⟨q, hq, -⟩ := node_of_mem_settled h hp hm hid
    exact ⟨q, hq⟩

/-- A new node may be placed when the locator gets to know it. -/
theorem Enters.of_new (h : s.Agrees) (hn : s.locator[n.id]? = none)
    (hp : Placing s.forest ⟨n.space, parent⟩ n.id p left right) (now : Timestamp) :
    s.Enters n.space ((s.space n.space).changesFor n parent now p)
      (s.locator.insert n.id n.space) := by
  have hreg := regroups h hp now
  rw [changesFor_eq h hp]
  -- whatever else changes is a member of the group
  have hold : ∀ c ∈ (p.settled left n.id right).filterMap ((s.space n.space).change? n parent now),
      c.id ≠ n.id → s.locator[c.id]? = some n.space := by
    intro c hc hne
    obtain ⟨m, hm, hmc⟩ := List.mem_filterMap.1 hc
    rw [(hreg.made hm c hmc).1] at hne ⊢
    obtain ⟨q, hq, -⟩ := node_of_mem_settled h hp hm hne
    exact h.locator_iff.2 ⟨q, hq⟩
  refine ⟨hreg.admits (h.space _), fun c hc => hreg.space_of_mem hc, fun c hc sp' hsp' => ?_,
    fun id => ?_⟩
  -- it has its home there, and the node has none yet
  · by_cases hid : c.id = n.id
    · rw [hid, hn] at hsp'
      cases hsp'
    · rw [hold c hc hid] at hsp'
      exact (Option.some.inj hsp').symm
  -- the locator learns of the node and of nobody else
  · rw [Std.ExtTreeMap.getElem?_insert]
    by_cases hid : n.id = id
    · obtain ⟨sort, hsort⟩ := hp.exists_key
      have hself : (s.space n.space).change? n parent now ⟨n.id, sort⟩ =
          some (n.moveTo parent sort now) := if_pos rfl
      have hmem := List.mem_filterMap.2 ⟨_, hsort, hself⟩
      rw [if_pos (by simp [hid]), if_pos (List.mem_map.2 ⟨_, hmem, hid⟩)]
    · have hcmp : compare n.id id ≠ .eq := fun hc => hid (Std.LawfulEqCmp.eq_of_compare hc)
      rw [if_neg hcmp]
      split
      · next hmem =>
        obtain ⟨c, hc, rfl⟩ := List.mem_map.1 hmem
        exact hold c hc fun he => hid he.symm
      · rfl

/-- A placement that may be entered is committed, and the node can be read back. -/
theorem commit_placed (h : s.Agrees)
    (hp : Placing s.forest ⟨n.space, parent⟩ n.id p left right)
    {locator : Std.ExtTreeMap Uuid Uuid}
    (he : s.Enters n.space ((s.space n.space).changesFor n parent now p) locator) :
    ∃ m, (s.space n.space).commit n.space ((s.space n.space).changesFor n parent now p) =
        .ok ((s.space n.space).entered ((s.space n.space).changesFor n parent now p)) ∧
      ((s.space n.space).entered ((s.space n.space).changesFor n parent now p)).get n.id = .ok m ∧
      (s.enter n.space ((s.space n.space).changesFor n parent now p) locator).Agrees ∧
      (s.enter n.space ((s.space n.space).changesFor n parent now p) locator).forest n.id =
        some m.record ∧
      Placed s.forest
        (s.enter n.space ((s.space n.space).changesFor n parent now p) locator).forest n.record
        ⟨n.space, parent⟩ (p.settled left n.id right) now := by
  have hcommit := (Space.commit_eq (h.space n.space).toIndexed n.space he.admits.ids).1 he.admits
  have h' := h.enter he
  have hplaced := placed_enter h hp he
  obtain ⟨sort, updated, -, -, hself⟩ := hplaced.self rfl
  obtain ⟨m, -, hm, hmr⟩ := exists_node h' hself
  simp only [Node.record_id, Node.record_space] at hm hself
  rw [space_enter, if_pos rfl] at hm
  exact ⟨m, hcommit, by rw [Space.get, hm], h', by rw [hmr]; exact hself, hplaced⟩

end Enter

/-! ## Moves -/

section Move

variable {id : Uuid} {parent : Option Uuid} {r : Record Node.Payload Timestamp}
  {find : Space → Except StoreError (Option Uuid)}

/-- A move comes to the climb when the node is stored and its new parent suits it. -/
theorem planMove_eq (target : Target) (now : Timestamp) (h : s.Agrees) {n : Node}
    (hn : s.forest id = some n.record)
    (hl : Lodged s.forest { n.record with parent := parent }) :
    (s.space n.space).planMove s.gap id parent target now =
      (match parent with
        | some p => (checkAcyclic (s.space n.space).parentOf id p
            (s.space n.space).nodes.size).mapError .violation
        | none => pure ()) >>= fun _ =>
      (s.gap.placeIn ⟨n.space, parent⟩ ((s.space n.space).siblings parent) id target).map
        ((s.space n.space).changesFor n parent now) := by
  obtain ⟨m, hm, hmn⟩ := space_get_eq h hn
  obtain rfl := Node.record_inj.1 hmn
  obtain ⟨pn, hget, hcheck⟩ := getParent_of_lodged h hl
  simp only [Node.record_space] at hm hget
  simp only [Node.record_space, Node.record_kind] at hcheck
  unfold Space.planMove
  rw [hm, bind_ok, hget, bind_ok, hcheck, mapError_ok, bind_ok]
  cases parent <;> rfl

/-- The climb from a suitable parent that the node is not above finds nothing. -/
theorem climb_eq_ok (h : s.Agrees) (ho : Rooted s.forest) {n : Node}
    (hl : Lodged s.forest { n.record with parent := parent })
    (hclear : ∀ p, parent = some p → ¬Within s.forest id p) :
    (match parent with
      | some p => (checkAcyclic (s.space n.space).parentOf id p
          (s.space n.space).nodes.size).mapError StoreError.violation
      | none => pure ()) = .ok () := by
  cases parent with
  | none => rfl
  | some p =>
    obtain ⟨q, hq, hspace, -⟩ := hl.exists_parent rfl
    have hcheck := (checkAcyclic_eq_ok_iff h ho hq).2 (hclear p rfl)
    rw [hspace, Node.record_space] at hcheck
    simp only [hcheck, mapError_ok]

/-- A move is planned and committed in the space of the node. -/
theorem relocate_eq_bind (target : Target) (now : Timestamp) (h : s.Agrees)
    (hr : s.forest id = some r) (hfind : find (s.space r.space) = .ok parent) :
    s.relocate id find target now =
      (s.space r.space).planMove s.gap id parent target now >>= fun changes =>
        (s.space r.space).commit r.space changes >>= fun space =>
          space.get id >>= fun m => pure (m, s.putSpace r.space space) := by
  rw [relocate, spaceOf_eq h hr, bind_ok]
  dsimp only
  rw [hfind, bind_ok]

theorem relocate_blocked (target : Target) (now : Timestamp) (h : s.Agrees)
    (ho : Rooted s.forest) (hr : s.forest id = some r)
    (hfind : find (s.space r.space) = .ok parent)
    (hl : Lodged s.forest { r with parent := parent }) {p : Uuid} (hp : parent = some p)
    (hw : Within s.forest id p) :
    s.relocate id find target now = .error (.violation (.cycle id p)) := by
  obtain ⟨n, -, -, rfl⟩ := exists_node h hr
  have hplan := planMove_eq target now h hr hl
  obtain ⟨q, hq, hspace, -⟩ := hl.exists_parent hp
  subst hp
  have hcheck : checkAcyclic (s.space n.space).parentOf id p (s.space n.space).nodes.size =
      .error (.cycle id p) := by
    refine checkAcyclic_eq_error fun hclear => ?_
    rw [← Node.record_space, ← hspace] at hclear
    exact (checkAcyclic_eq_ok_iff h ho hq).1 hclear hw
  rw [relocate_eq_bind target now h hr hfind, Node.record_space, hplan]
  simp only [hcheck, mapError_error, bind_error]

/-- A move that is not blocked and finds keys enters its placement. -/
theorem relocate_placed (target : Target) (now : Timestamp) (h : s.Agrees) (ho : Rooted s.forest)
    {n : Node} (hr : s.forest id = some n.record) (hfind : find (s.space n.space) = .ok parent)
    (hl : Lodged s.forest { n.record with parent := parent })
    (hclear : ∀ p, parent = some p → ¬Within s.forest id p) {p : Placement}
    (hplace : s.gap.placeIn ⟨n.space, parent⟩ ((s.space n.space).siblings parent) id target =
      .ok p) :
    ∃ m, s.relocate id find target now =
        .ok (m, s.enter n.space ((s.space n.space).changesFor n parent now p) s.locator) ∧
      s.Enters n.space ((s.space n.space).changesFor n parent now p) s.locator ∧
      (s.enter n.space ((s.space n.space).changesFor n parent now p) s.locator).forest id =
        some m.record := by
  obtain rfl : n.id = id := ho.own_id hr
  obtain ⟨q, -, hn, hq⟩ := exists_node h hr
  obtain rfl := Node.record_inj.1 hq
  have he := Enters.of_moved h hn (placing_of_placeIn h hplace) now
  -- the changes of a placement are always admitted
  obtain ⟨m, hcommit, hget, -, hm, -⟩ := commit_placed h (placing_of_placeIn h hplace) he
  refine ⟨m, ?_, he, hm⟩
  have hplan := planMove_eq target now h hr hl
  rw [climb_eq_ok h ho hl hclear, bind_ok, hplace] at hplan
  rw [relocate_eq_bind target now h hr hfind, Node.record_space, hplan]
  simp only [Except.map, bind_ok, hcommit, hget]
  rfl

/-- A move that is not blocked succeeds exactly when there are keys for it. -/
theorem relocate_eq (target : Target) (now : Timestamp) (h : s.Agrees) (ho : Rooted s.forest)
    (hr : s.forest id = some r)
    (hfind : find (s.space r.space) = .ok parent)
    (hl : Lodged s.forest { r with parent := parent })
    (hclear : ∀ p, parent = some p → ¬Within s.forest id p) :
    match s.gap.placeIn ⟨r.space, parent⟩ ((s.space r.space).siblings parent) id target with
    | .error e => s.relocate id find target now = .error e
    | .ok p => ∃ n s', s.relocate id find target now = .ok (n, s') ∧ s'.Agrees ∧
        s'.gap = s.gap ∧ s'.forest id = some n.record ∧
        Placed s.forest s'.forest r ⟨r.space, parent⟩
          (p.settled (target.cut (((s.space r.space).siblings parent).filter (·.id ≠ id))).1 id
            (target.cut (((s.space r.space).siblings parent).filter (·.id ≠ id))).2) now := by
  obtain ⟨n, -, -, rfl⟩ := exists_node h hr
  obtain rfl : n.id = id := ho.own_id hr
  rw [Node.record_space] at hfind ⊢
  cases hplace :
      s.gap.placeIn ⟨n.space, parent⟩ ((s.space n.space).siblings parent) n.id target with
  | error e =>
    have hplan := planMove_eq target now h hr hl
    rw [climb_eq_ok h ho hl hclear, bind_ok, hplace] at hplan
    rw [relocate_eq_bind target now h hr hfind, Node.record_space, hplan]
    rfl
  | ok p =>
    obtain ⟨m, hrelocate, he, hm⟩ := relocate_placed target now h ho hr hfind hl hclear hplace
    exact ⟨m, _, hrelocate, h.enter he, rfl, hm, placed_enter h (placing_of_placeIn h hplace) he⟩

/-- What a successful move has passed. -/
theorem of_relocate {target : Target} (h : s.Agrees) (ho : Rooted s.forest) {n : Node}
    {s' : Shelf}
    (hs : s.relocate id find target now = .ok (n, s')) :
    ∃ r parent p, s.forest id = some r ∧ find (s.space r.space) = .ok parent ∧
      Lodged s.forest { r with parent := parent } ∧
      (∀ q, parent = some q → ¬Within s.forest id q) ∧
      s.gap.placeIn ⟨r.space, parent⟩ ((s.space r.space).siblings parent) id target = .ok p := by
  obtain ⟨sp, hsp, hs'⟩ := bind_eq_ok_iff.1 hs
  obtain ⟨parent, hfind, hs'⟩ := bind_eq_ok_iff.1 hs'
  obtain ⟨changes, hplan, -⟩ := bind_eq_ok_iff.1 hs'
  obtain ⟨m, hget, hplan⟩ := bind_eq_ok_iff.1 hplan
  obtain ⟨pn, hparent, hplan⟩ := bind_eq_ok_iff.1 hplan
  obtain ⟨u, hcheck, -⟩ := bind_eq_ok_iff.1 hplan
  rw [mapError_eq_ok_iff] at hcheck
  have hm := node_of_space_get hget
  obtain rfl : m.space = sp := (h.space sp).own_space hm
  have hr := forest_of_node h hm
  have hl : Lodged s.forest { m.record with parent := parent } :=
    lodged_of_getParent h (r := { m.record with parent := parent }) hparent hcheck
  -- a parent below the node would have been refused
  have hclear : ∀ q, parent = some q → ¬Within s.forest id q := by
    intro q hq hw
    have hblocked := relocate_blocked target now h ho hr hfind hl hq hw
    rw [hs] at hblocked
    cases hblocked
  have heq := relocate_eq target now h ho hr hfind hl hclear
  split at heq
  · rw [hs] at heq
    cases heq
  · next p hp => exact ⟨_, parent, p, hr, hfind, hl, hclear, hp⟩

end Move

end Shelf

end Outline
