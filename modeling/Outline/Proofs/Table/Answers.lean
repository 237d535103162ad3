import Outline.Proofs.Table.Runs

/-!
# What the table answers

A call on a table is refused for the same few reasons whatever the table holds: a node is missing,
its parent to be does not suit it, it would come to stand below itself, or the keys of its group
are exhausted. A run of unused keys to park rows on is always found in a table of fewer than
`2 ^ 31` rows.

Main results:

* `Table.Holds.writeKeys_of_roomy` — with that few rows new keys are always written;
* `Table.Holds.relocate_eq`, `Table.Holds.exists_createLast`, `Table.Holds.renumber_eq` — a call
  that is not refused changes the table;
* `Table.Holds.countBelow_eq` — a removal counts the nodes that it removes.
-/

namespace Outline

section New

variable {f : Forest Row.Payload String} {l : Line} {left right : List Sibling} {sort : SortKey}

/-- A key that a new record is placed at belongs to no member of the group. -/
theorem sort_ne_of_placing (hnew : f l.id = none)
    (hp : Placing f l.group l.id (.key sort) left right) {q : Line} (hq : f q.id = some q)
    (hgroup : q.group = l.group) : q.sort ≠ sort := by
  intro hsort
  have hne : q.id ≠ l.id := by
    intro heq
    rw [heq, hnew] at hq
    cases hq
  have hin := hp.mem_settled_of_key rfl hne hq hgroup
  have hself : ⟨l.id, sort⟩ ∈ (Placement.key sort).settled left l.id right := by
    simp [Placement.settled]
  exact hne (congrArg Sibling.id (hp.puts.ascending.eq_of_sort hin hself hsort))

/-- Nor does it when the other members have been given new keys. -/
theorem sort_ne_of_settle {members : List Sibling} {stamp : String} (hnew : f l.id = none)
    (hp : Placing f l.group l.id (.respread members) left right)
    (hsort : ⟨l.id, sort⟩ ∈ members) {q : Line}
    (hq : f.settle l.group (members.filter (·.id ≠ l.id)) stamp q.id = some q)
    (hgroup : q.group = l.group) : q.sort ≠ sort := by
  intro heq
  have hr := rewrites_others hnew hp
  by_cases hin : q.id ∈ (members.filter (·.id ≠ l.id)).map (·.id)
  -- a sibling with a new key has another one than the new record
  · obtain ⟨m, hm, hid⟩ := List.mem_map.1 hin
    rw [← hid, hr.settle_of_mem hm, Option.map_eq_some_iff] at hq
    obtain ⟨old, -, rfl⟩ := hq
    obtain ⟨hm, hne⟩ := List.mem_filter.1 hm
    have hsame := hp.puts.ascending.eq_of_sort hm hsort heq
    exact of_decide_eq_true hne (congrArg Sibling.id hsame)
  -- and there is no sibling without one
  · rw [Forest.settle_of_not_mem hin] at hq
    obtain ⟨m, hm, hid⟩ := List.mem_map.1 (hp.id_mem_settled_iff.2 (.inr ⟨q, hq, hgroup⟩))
    have hne : m.id ≠ l.id := by
      intro heq
      rw [← hid, heq, hnew] at hq
      cases hq
    have hmem : m ∈ members.filter (·.id ≠ l.id) := List.mem_filter.2 ⟨hm, decide_eq_true hne⟩
    exact hin (List.mem_map.2 ⟨m, hmem, hid⟩)

end New

namespace Table

/-- Few enough rows to find room for parking them. -/
def Roomy (t : Table) : Prop :=
  t.length < 2 ^ 31

/-- The children of a node, whatever their keys. -/
def below (t : Table) (id : Uuid) : List Uuid :=
  (t.filter (·.parent = some id.toText)).filterMap fun r => Uuid.ofText? r.id

namespace Holds

variable {t : Table} {f : Forest Row.Payload String} (h : t.Holds f)
include h

/-! ## Room for new keys -/

theorem length_members_le (hk : KeysDistinct f) (group : Group) :
    (t.members group).length ≤ t.countSpace group.space := by
  have hlist := h.isListing_members hk group
  have hle := h.length_le_of_space group.space hlist.nodup fun id hid => by
    obtain ⟨l, hl, hin⟩ := hlist.id_mem_iff.1 hid
    exact ⟨l, hl, congrArg Group.space hin⟩
  rwa [List.length_map] at hle

/-- Two groups of a space have no row in common. -/
theorem length_members_add_le (hk : KeysDistinct f) {space : Uuid} {parent parent' : Option Uuid}
    (hne : parent ≠ parent') :
    (t.members ⟨space, parent⟩).length + (t.members ⟨space, parent'⟩).length ≤
      t.countSpace space := by
  have hlist := h.isListing_members hk ⟨space, parent⟩
  have hlist' := h.isListing_members hk ⟨space, parent'⟩
  have hnodup : ((t.members ⟨space, parent⟩ ++ t.members ⟨space, parent'⟩).map (·.id)).Nodup := by
    rw [List.map_append]
    refine List.Nodup.append hlist.nodup hlist'.nodup fun id hid hid' => ?_
    obtain ⟨l, hl, hin⟩ := hlist.id_mem_iff.1 hid
    obtain ⟨l', hl', hin'⟩ := hlist'.id_mem_iff.1 hid'
    rw [hl] at hl'
    obtain rfl := Option.some.inj hl'
    exact hne (congrArg Group.parent (hin.symm.trans hin'))
  have hle := h.length_le_of_space space hnodup fun id hid => by
    rw [List.map_append, List.mem_append] at hid
    rcases hid with hid | hid
    · obtain ⟨l, hl, hin⟩ := hlist.id_mem_iff.1 hid
      exact ⟨l, hl, congrArg Group.space hin⟩
    · obtain ⟨l, hl, hin⟩ := hlist'.id_mem_iff.1 hid
      exact ⟨l, hl, congrArg Group.space hin⟩
  rwa [List.length_map, List.length_append] at hle

theorem length_inUse_le (hk : KeysDistinct f) (group : Group) (keys : List Sibling)
    (mover : Option Mover) :
    (t.inUse group keys mover).length ≤ keys.length + t.countSpace group.space := by
  have hgroup := h.length_members_le hk group
  unfold inUse
  rw [List.length_map, List.length_append, List.length_append]
  cases mover with
  | none =>
    rw [List.length_nil]
    omega
  | some m =>
    dsimp only
    split
    · rw [List.length_nil]
      omega
    · next horigin =>
      have hboth : (t.members group).length + (t.members ⟨group.space, m.origin⟩).length ≤
          t.countSpace group.space := h.length_members_add_le hk (Ne.symm horigin)
      omega

/-- No more keys are given than there are rows in the space. -/
theorem length_keys_le {group : Group} {keys : List Sibling} {mover : Option Mover}
    (hr : Rewrites f group keys mover) : keys.length ≤ t.countSpace group.space := by
  have hle := h.length_le_of_space group.space hr.nodup fun id hid => by
    obtain ⟨m, hm, rfl⟩ := List.mem_map.1 hid
    obtain ⟨l, hl, hspace, -⟩ := hr.stored hm
    exact ⟨l, hl, hspace⟩
  rwa [List.length_map] at hle

/-- In a space with few rows there is always a run of unused keys to park some of them on. -/
theorem exists_freeRun? (hk : KeysDistinct f) {group : Group}
    (hroom : t.countSpace group.space < 2 ^ 31) {keys : List Sibling} {mover : Option Mover}
    (hkeys : keys.length ≤ t.countSpace group.space) (hone : ¬keys.length ≤ 1) :
    ∃ start, freeRun? (t.inUse group keys mover) keys.length = some start := by
  -- no more than twice as many keys are used as there are rows
  have hused := h.length_inUse_le hk group keys mover
  have hfits : ((t.inUse group keys mover).length + 1) * keys.length ≤ 2 ^ 32 * 2 ^ 31 :=
    Nat.mul_le_mul (by omega) (by omega)
  exact freeRun?_isSome (by omega) (by omega) (Nat.le_trans hfits (by decide))

/-- With few rows new keys are always written. -/
theorem writeKeys_of_roomy (hk : KeysDistinct f) (hroom : t.Roomy) {group : Group}
    {keys : List Sibling} {mover : Option Mover} (hr : Rewrites f group keys mover)
    (now : Timestamp) :
    ∃ t', t.writeKeys group keys mover now = .ok t' ∧
      t'.Holds (f.settle group keys now.toOffsetText) := by
  rcases h.writeKeys_eq hk hr now with ⟨t', ht', hh', -⟩ | ⟨hmany, hnone, -⟩
  · exact ⟨t', ht', hh'⟩
  · have hspace : t.countSpace group.space ≤ t.length := List.countP_le_length
    unfold Roomy at hroom
    obtain ⟨start, hstart⟩ := h.exists_freeRun? hk (by omega) (h.length_keys_le hr) (by omega)
    rw [hnone] at hstart
    cases hstart

/-! ## Moves -/

section Move

variable {gap : Gap} {id : Uuid} {parent : Option Uuid} {target : Target} {now : Timestamp}
  {n : Node}

omit h in
theorem relocate_refused (hfetch : t.fetch id = .ok n) {e : StoreError}
    (hcheck : checkFetched n.kind n.space (t.fetchParent parent) = .error e) :
    t.relocate gap id parent target now = .error e := by
  unfold relocate
  rw [hfetch, bind_ok]
  unfold checkFetched at hcheck
  cases hparent : t.fetchParent parent with
  | error e' =>
    rw [hparent, bind_error] at hcheck
    rw [bind_error, Except.error.inj hcheck]
  | ok pn =>
    rw [hparent, bind_ok] at hcheck
    rw [bind_ok, hcheck]
    rfl

variable {l : Line} (hl : f id = some l) (hfetch : t.fetch id = .ok n)
include hl hfetch

/-- A node that was fetched has the place of its record. -/
theorem place_of_fetch : n.space = l.space ∧ n.kind = l.kind ∧ n.parent = l.parent := by
  obtain ⟨q, hq, hnode⟩ := h.of_fetch hfetch
  rw [hl] at hq
  obtain rfl := Option.some.inj hq
  obtain ⟨-, hspace, hkind, hparent, -⟩ := Row.toNode_row_eq_ok_iff.1 hnode
  exact ⟨hspace, hkind, hparent⟩

theorem lodged_of_checkFetched
    (hcheck : checkFetched n.kind n.space (t.fetchParent parent) = .ok ()) :
    Lodged f { l with parent := parent } := by
  obtain ⟨hspace, hkind, -⟩ := h.place_of_fetch hl hfetch
  obtain ⟨pn, hparent, hok⟩ := checkFetched_eq_ok_iff.1 hcheck
  rw [hspace, hkind] at hok
  exact h.lodged_of_fetchParent (l := { l with parent := parent }) hparent hok

theorem relocate_blocked (ho : Rooted f) {p : Uuid}
    (hcheck : checkFetched n.kind n.space (t.fetchParent (some p)) = .ok ()) (hw : Within f id p) :
    t.relocate gap id (some p) target now = .error (.violation (.cycle id p)) := by
  obtain ⟨hspace, -⟩ := h.place_of_fetch hl hfetch
  obtain ⟨q, hq, hqspace, -⟩ := h.lodged_of_checkFetched hl hfetch hcheck
  obtain ⟨pn, hparent, hok⟩ := checkFetched_eq_ok_iff.1 hcheck
  -- the links can all be read, so the climb fails for what it finds
  have hclimb : t.checkClimb n id (some p) = .error (.violation (.cycle id p)) := by
    have hnot : t.checkClimb n id (some p) ≠ .ok () := fun hclear =>
      (h.checkClimb_eq_ok_iff ho hq (hqspace.trans hspace.symm)).1 hclear hw
    obtain ⟨path, hpath⟩ := ho.ascent hq
    have hlen := h.length_le_countSpace ho hq hpath
    rw [hqspace, show ({ l with parent := some p } : Line).space = n.space from hspace.symm] at hlen
    obtain ⟨links, hlinks, -⟩ := h.ancestors_eq hpath (Nat.le_succ_of_le hlen)
    unfold checkClimb at hnot ⊢
    dsimp only at hnot ⊢
    rw [hlinks, bind_ok] at hnot ⊢
    rw [checkAcyclic_eq_error fun hclear => hnot (by rw [hclear, mapError_ok]), mapError_error]
  unfold relocate
  rw [hfetch, bind_ok, hparent, bind_ok, hok, mapError_ok, bind_ok, hclimb]
  rfl

/-- A move that passes its checks comes to its placement, whose keys are written. -/
theorem relocate_eq_bind (hcheck : checkFetched n.kind n.space (t.fetchParent parent) = .ok ())
    (hclimb : t.checkClimb n id parent = .ok ()) (gap : Gap) (target : Target)
    (now : Timestamp) :
    t.relocate gap id parent target now =
      gap.placeIn ⟨l.space, parent⟩ (t.members ⟨l.space, parent⟩) id target >>= fun p =>
        t.writeKeys ⟨l.space, parent⟩ (p.written id) (some ⟨id, l.parent⟩) now >>= fun t' =>
          t'.fetch id >>= fun m => pure (m, t') := by
  obtain ⟨hspace, -, hnparent⟩ := h.place_of_fetch hl hfetch
  obtain ⟨pn, hparent, hok⟩ := checkFetched_eq_ok_iff.1 hcheck
  unfold relocate
  rw [hfetch, bind_ok, hparent, bind_ok, hok, mapError_ok, bind_ok, hclimb, bind_ok, hspace,
    hnparent]
  dsimp only
  rw [h.siblings_eq, bind_ok]
  rfl

/-- A move that is not blocked succeeds exactly when there are keys for it. -/
theorem relocate_eq (ho : IsOutline f) (hroom : t.Roomy)
    (hcheck : checkFetched n.kind n.space (t.fetchParent parent) = .ok ())
    (hclear : ∀ p, parent = some p → ¬Within f id p) (gap : Gap) (target : Target)
    (now : Timestamp) :
    match gap.placeIn ⟨l.space, parent⟩ (t.members ⟨l.space, parent⟩) id target with
    | .error e => t.relocate gap id parent target now = .error e
    | .ok p => ∃ t' : Table, t.relocate gap id parent target now = (t'.fetch id).map (·, t') ∧
        t'.Holds (f.settle ⟨l.space, parent⟩ (p.written id) now.toOffsetText) := by
  obtain ⟨hspace, -⟩ := h.place_of_fetch hl hfetch
  have hlodged := h.lodged_of_checkFetched hl hfetch hcheck
  have hclimb : t.checkClimb n id parent = .ok () := by
    cases parent with
    | none => rfl
    | some p =>
      obtain ⟨q, hq, hqspace, -⟩ := hlodged.exists_parent rfl
      exact (h.checkClimb_eq_ok_iff ho.rooted hq (hqspace.trans hspace.symm)).2 (hclear p rfl)
  have hrel := h.relocate_eq_bind hl hfetch hcheck hclimb gap target now
  cases hplace : gap.placeIn ⟨l.space, parent⟩ (t.members ⟨l.space, parent⟩) id target with
  | error e =>
    rw [hrel, hplace]
    rfl
  | ok p =>
    -- with room for parking, whatever the placement asks for is written
    obtain ⟨rfl, -⟩ := h.line hl
    have hplacing := Placing.of_placeIn (h.isListing_members ho.keys ⟨l.space, parent⟩) hplace
    obtain ⟨t', ht', hh'⟩ :=
      h.writeKeys_of_roomy ho.keys hroom (rewrites_written hl rfl hplacing) now
    refine ⟨t', ?_, hh'⟩
    rw [hrel, hplace, bind_ok, ht', bind_ok]
    cases t'.fetch l.id <;> rfl

end Move

omit h in
/-- Giving a record its place leaves the row of its parent alone. -/
theorem fetchParent_of_placed {t t' : Table} {f g : Forest Row.Payload String} {l : Line}
    {members : List Sibling} {stamp : String} (h : t.Holds f) (h' : t'.Holds g) (ho : Rooted f)
    (hl : Lodged f l) (hself : l.parent ≠ some l.id)
    (hplaced : Placed f g l l.group members stamp) :
    t'.fetchParent l.parent = t.fetchParent l.parent := by
  cases hp : l.parent with
  | none => rfl
  | some q =>
    obtain ⟨r, hr, -⟩ := hl.exists_parent hp
    have hne : q ≠ l.id := by
      rintro rfl
      exact hself hp
    -- the parent is no child of its own
    have hout : ∀ r', f q = some r' → r'.group ≠ l.group := by
      intro r' hr' hgroup
      exact ho.parent_ne_self hr' ((congrArg Group.parent hgroup).trans hp)
    have hsame : g q = some r := (hplaced.frame hne hout).trans hr
    rw [fetchParent, fetchParent, h'.fetch_some hsame, h.fetch_some hr]

/-! ## Creations -/

section Create

variable {gap : Gap} {n : Node} {now : Timestamp}

omit h in
theorem checkNew_eq (hcheck : n.check = .ok ()) :
    t.checkNew n = checkFetched n.kind n.space (t.fetchParent n.parent) := by
  unfold checkNew
  rw [hcheck, mapError_ok, bind_ok]
  rfl

omit h in
theorem createLast_refused {e : StoreError} (hnew : t.checkNew n = .error e) :
    t.createLast gap n now = .error e := by
  unfold createLast
  rw [hnew, bind_error]

theorem exists_insertNode {sort : SortKey} (hid : f n.id = none)
    (hfree : ∀ q, f q.id = some q → q.group = n.group → q.sort ≠ sort) :
    ∃ t', t.insertNode { n with sort := sort } = .ok t' := by
  obtain ⟨ht', -⟩ := h.insert_eq (l := ({ n with sort := sort } : Node).line) hid hfree
  exact ⟨_, by rw [insertNode, ← Node.row_line, ht', mapError_ok]⟩

/-- A key that a member of the group has is refused. -/
theorem insertNode_taken {q : Line} (hq : f q.id = some q) (hgroup : q.group = n.group)
    (hsort : q.sort = n.sort) : t.insertNode n = .error (.duplicateSort n.group n.sort) := by
  have htaken : (t.any fun r => r.slot = n.line.row.slot) = true :=
    List.any_eq_true.2 ⟨q.row, h.mem_iff.2 hq, decide_eq_true (Row.slot_row_eq_iff.2
      ⟨hgroup, hsort⟩)⟩
  rw [insertNode, ← Node.row_line, Table.insert, if_pos htaken]
  rfl

/-- A new node goes in when it passes its checks and there are keys for it. -/
theorem exists_createLast (hk : KeysDistinct f) (hroom : t.Roomy) (hid : f n.id = none)
    (hnew : t.checkNew n = .ok ()) (gap : Gap) (now : Timestamp) :
    match gap.placeIn n.group (t.members n.group) n.id .last with
    | .error e => t.createLast gap n now = .error e
    | .ok _ => ∃ n' t', t.createLast gap n now = .ok (n', t') := by
  cases hplace : gap.placeIn n.group (t.members n.group) n.id .last with
  | error e => exact createLast_of_error now hnew (h.siblings_eq _) hplace
  | ok p =>
    show ∃ n' t', t.createLast gap n now = .ok (n', t')
    have hplacing := Placing.of_placeIn (h.isListing_members hk n.group) hplace
    cases p with
    | key sort =>
      obtain ⟨t₁, ht₁⟩ := h.exists_insertNode hid fun q hq hgroup =>
        sort_ne_of_placing (l := n.line) hid hplacing hq hgroup
      refine ⟨{ n with sort := sort }, t₁, ?_⟩
      rw [createLast_of_key now hnew (h.siblings_eq _) hplace, ht₁]
      rfl
    | respread members =>
      obtain ⟨sort, hsort⟩ := hplacing.exists_key
      -- the others get their keys, and the key of the new node is none of them
      obtain ⟨t₁, ht₁, hh₁⟩ : ∃ t₁, t.writeKeys n.group (members.filter (·.id ≠ n.id)) none now =
          .ok t₁ ∧ t₁.Holds (f.settle n.group (members.filter (·.id ≠ n.id)) now.toOffsetText) :=
        h.writeKeys_of_roomy hk hroom (rewrites_others (l := n.line) hid hplacing) now
      have hgid : f.settle n.group (members.filter (·.id ≠ n.id)) now.toOffsetText n.id = none := by
        rw [Forest.settle_of_not_mem, hid]
        simp
      obtain ⟨t₂, ht₂⟩ := hh₁.exists_insertNode hgid fun q hq hgroup =>
        sort_ne_of_settle (l := n.line) hid hplacing hsort hq hgroup
      refine ⟨{ n with sort := sort }, t₂, ?_⟩
      rw [createLast_of_respread now hnew (h.siblings_eq _) hplace hplacing.nodup_settled hsort,
        ht₁, bind_ok, ht₂]
      rfl

end Create

/-! ## Updates, removals and renumberings -/

omit h in
theorem updateNode_eq {id : Uuid} {n : Node} (hfetch : t.fetch id = .ok n) (patch : Patch)
    (now : Timestamp) :
    match (n.patch patch now).check with
    | .error d => t.updateNode id patch now = .error (.invalidRecord (.defect d))
    | .ok _ => ∃ t', t.updateNode id patch now = .ok (n.patch patch now, t') := by
  unfold updateNode
  rw [hfetch, bind_ok]
  dsimp only
  cases hcheck : (n.patch patch now).check with
  | error d => rfl
  | ok u => exact ⟨_, rfl⟩

omit h in
theorem deleteNode_eq (space : Uuid) {id : Uuid} {n : Node} (hfetch : t.fetch id = .ok n) :
    t.deleteNode space id =
      if n.space ≠ space then .error (.notFound id)
      else
        .ok (t.countBelow (t.countSpace space) [id.toText], t.delete id.toText space.toText) := by
  unfold deleteNode
  rw [hfetch, bind_ok]
  dsimp only
  split <;> rfl

/-- A renumbering writes the keys of the allocator and answers the group as it is then. -/
theorem renumber_eq (hk : KeysDistinct f) (hroom : t.Roomy) {group : Group} {parent : Option Node}
    (hparent : t.fetchParent group.parent = .ok parent) (gap : Gap) (now : Timestamp) :
    match gap.compact (t.members group) with
    | .error e => t.renumber gap group now = .error (.exhausted group e)
    | .ok members => ∃ t' : Table,
        t.renumber gap group now = (t'.fetchChildren group).map (·, t') ∧
        t'.Holds (f.settle group members now.toOffsetText) ∧
        Rekeyed f (f.settle group members now.toOffsetText) group members now.toOffsetText := by
  unfold renumber
  rw [hparent, bind_ok, h.siblings_eq, bind_ok]
  cases hcompact : gap.compact (t.members group) with
  | error e => rfl
  | ok members =>
    obtain ⟨hr, hrekeyed⟩ := rewrites_compact (h.isListing_members hk group) hcompact
      now.toOffsetText
    obtain ⟨t', ht', hh'⟩ := h.writeKeys_of_roomy hk hroom hr now
    refine ⟨t', ?_, hh', hrekeyed⟩
    rw [mapError_ok, bind_ok, ht', bind_ok]
    cases t'.fetchChildren group <;> rfl

/-! ## Counting a branch -/

theorem map_toText_below (id : Uuid) :
    (t.below id).map Uuid.toText = (t.filter (·.parent = some id.toText)).map (·.id) := by
  have hread : ∀ rows : List Row, rows ⊆ t →
      (rows.filterMap fun r => Uuid.ofText? r.id).map Uuid.toText = rows.map (·.id) := by
    intro rows hrows
    induction rows with
    | nil => rfl
    | cons r rest ih =>
      obtain ⟨hr, hrest⟩ := List.cons_subset.1 hrows
      obtain ⟨l, -, rfl⟩ := h.row hr
      have hid : Uuid.ofText? l.row.id = some l.id := Uuid.ofText?_toText l.id
      rw [List.filterMap_cons, hid, List.map_cons, ih hrest]
      rfl
  exact hread _ List.filter_sublist.subset

/-- The rows are counted level by level. -/
theorem countBelow_eq_levels (depth : Nat) (ids : List Uuid) :
    t.countBelow depth (ids.map Uuid.toText) = (levels t.below (depth + 1) ids).length := by
  -- the identifiers of the next level are the texts of the children
  induction depth generalizing ids with
  | zero =>
    cases ids with
    | nil => rfl
    | cons id rest => simp [countBelow, levels]
  | succ depth ih =>
    rw [countBelow, levels]
    by_cases hnil : ids = []
    · simp [hnil]
    · have hnext : ((ids.map Uuid.toText).flatMap fun id =>
          (t.filter (·.parent = some id)).map (·.id)) = (ids.flatMap t.below).map Uuid.toText := by
        rw [List.flatMap_map, List.map_flatMap]
        simp only [h.map_toText_below]
      rw [if_neg (by simpa using hnil), if_neg hnil, hnext, ih, List.length_append,
        List.length_map]

theorem isChildren (top : Uuid) : IsChildren f top t.below where
  mem_iff {id parent} _ := by
    rw [← List.mem_map_of_injective (f := Uuid.toText) fun _ _ => Uuid.toText_inj.1,
      h.map_toText_below, List.mem_map]
    constructor
    · rintro ⟨r, hr, hid⟩
      obtain ⟨hr, hparent⟩ := List.mem_filter.1 hr
      obtain ⟨l, hl, rfl⟩ := h.row hr
      rw [Uuid.toText_inj.1 hid] at hl
      have hp : l.parent.map Uuid.toText = (some parent).map Uuid.toText :=
        of_decide_eq_true hparent
      exact ⟨l, hl, Uuid.map_toText_inj.1 hp⟩
    · rintro ⟨l, hl, hp⟩
      obtain ⟨rfl, hmem⟩ := h.line hl
      exact ⟨l.row, List.mem_filter.2 ⟨hmem, by simp [hp]⟩, rfl⟩
  nodup parent := by
    have hnodup : ((t.below parent).map Uuid.toText).Nodup := by
      rw [h.map_toText_below]
      exact h.nodup.sublist (List.filter_sublist.map _)
    exact hnodup.of_map _

/-- What is counted are the nodes below, each once. -/
theorem countBelow_eq (ho : Rooted f) {top : Uuid} {l : Line} (hl : f top = some l) :
    ∃ ids : List Uuid, ids.Nodup ∧ (∀ id, id ∈ ids ↔ Within f top id) ∧
      t.countBelow (t.countSpace l.space) [top.toText] = ids.length := by
  obtain ⟨path, hpath⟩ := ho.ascent hl
  have hchildren := h.isChildren top
  refine ⟨levels t.below (t.countSpace l.space + 1) [top], levels_nodup hchildren hpath,
    fun id => ?_, h.countBelow_eq_levels _ [top]⟩
  refine mem_levels_iff hchildren hpath fun {a way} hway hmem => ?_
  obtain ⟨q, hq⟩ := hway.stored hway.self_mem
  have hlen := h.length_le_countSpace ho hq hway
  rw [← ho.space_of_within hq hl ⟨way, hway, hmem⟩] at hlen
  omega

end Holds

end Table

end Outline
