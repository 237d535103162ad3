import Outline.Proofs.Indexed.Answers
import Outline.Proofs.Placement.Overflow
import Outline.Proofs.Stored
import Outline.Proofs.Table.Answers

/-!
# Calls that only keys can stop

A call that places a node where it suits, or renumbers a group that there is, fails only when the
keys of the group run out. In memory that needs no more than a sound state. In the table the rows
have to be few enough to find room for parking them, and they have to be read, before the call and
after it. Updates and removals place nothing, so nothing stops them.

Main results:

* `Shelf.insert_overflows`, `Shelf.relocate_overflows`, `Shelf.renumber_overflows` — in memory;
* `Table.Holds.createLast_overflows`, `Table.Holds.relocate_overflows`,
  `Table.Holds.renumber_overflows` — in the table;
* `Shelf.update_accepted`, `Shelf.delete_accepted`, `Table.Holds.update_accepted`,
  `Table.Holds.delete_accepted` — calls that place nothing.
-/

namespace Outline

/-- A change that passed the check of the record leaves its properties an object. -/
theorem Node.isObject_of_check {n : Node} {patch : Patch} {now : Timestamp}
    (h : (n.patch patch now).check = .ok ()) : patch.properties.all Json.isObject = true := by
  have hpatched : (patch.properties.getD n.properties).isObject = true :=
    (check_eq_ok_iff.1 h).2.2.1
  cases hv : patch.properties with
  | none => rfl
  | some v => simpa [hv] using hpatched

/-! ## In memory -/

namespace Shelf

variable {s : Shelf} {now : Timestamp} {e : StoreError}

/-- The parent of a group is looked up in the space of the group. -/
theorem exists_getParent_iff (h : s.Agrees) (group : Group) :
    (∃ parent, (s.space group.space).getParent group.parent = .ok parent) ↔
      ∀ p, group.parent = some p → ∃ r, s.forest p = some r ∧ r.space = group.space := by
  cases hp : group.parent with
  | none =>
    constructor
    · intro _ p hnone
      cases hnone
    · exact fun _ => ⟨none, rfl⟩
  | some p =>
    constructor
    · rintro ⟨parent, hparent⟩ p' hp'
      cases hp'
      obtain ⟨n, hn, -⟩ := map_eq_ok_iff.1 hparent
      have hn := node_of_space_get hn
      exact ⟨n.record, forest_of_node h hn, (h.space _).own_space hn⟩
    · intro hall
      obtain ⟨r, hr, hspace⟩ := hall p rfl
      obtain ⟨n, hn, -⟩ := space_get_eq h hr
      exact ⟨some n, by rw [Space.getParent, ← hspace, hn]; rfl⟩

/-- A new node that suits its parent. -/
theorem insert_overflows (h : s.Sound) {n : Node} (hcheck : n.check = .ok ())
    (hn : s.forest n.id = none) (hl : Lodged s.forest n.record)
    (hs : s.insert n .last now = .error e) : e.Overflows := by
  have heq := insert_last_eq now h.agrees hcheck hn hl
  split at heq
  · next e' hplace =>
    rw [hs] at heq
    cases heq
    exact Gap.overflows_of_placeIn (fun _ _ htarget => by cases htarget) hplace
  · obtain ⟨m, s', stamp, ht, -⟩ := heq
    rw [hs] at ht
    cases ht

/-- A move to a suitable parent that is not below the node itself. -/
theorem relocate_overflows (h : s.Sound) {id : Uuid} {r : Record Node.Payload Timestamp}
    (hr : s.forest id = some r) {find : Space → Except StoreError (Option Uuid)}
    {parent : Option Uuid} (hfind : find (s.space r.space) = .ok parent)
    (hlodged : Lodged s.forest { r with parent := parent })
    (hclear : ∀ p, parent = some p → ¬Within s.forest id p) {target : Target}
    (hanchor : ∀ anchor side, target = .beside anchor side →
      anchor ≠ id ∧ ∃ q, s.forest anchor = some q ∧ q.group = ⟨r.space, parent⟩)
    (hs : s.relocate id find target now = .error e) : e.Overflows := by
  have heq := relocate_eq target now h.agrees h.outline.rooted hr hfind hlodged hclear
  split at heq
  · next e' hplace =>
    rw [hs] at heq
    cases heq
    refine Gap.overflows_of_placeIn (fun anchor side htarget => ?_) hplace
    obtain ⟨hne, q, hq, hgroup⟩ := hanchor anchor side htarget
    exact ⟨hne, (isListing_siblings h.agrees ⟨r.space, parent⟩).id_mem_iff.2 ⟨q, hq, hgroup⟩⟩
  · obtain ⟨m, s', ht, -⟩ := heq
    rw [hs] at ht
    cases ht

/-- A group of a parent that is found. -/
theorem renumber_overflows (h : s.Sound) {group : Group}
    (hparent : ∀ p, group.parent = some p → ∃ r, s.forest p = some r ∧ r.space = group.space)
    (hs : s.renumber group now = .error e) : e.Overflows := by
  obtain ⟨parent, hparent⟩ := (exists_getParent_iff h.agrees group).2 hparent
  cases hm : s.gap.compact ((s.space group.space).siblings group.parent) with
  | error cause =>
    rw [renumber_exhausted hparent hm] at hs
    cases hs
    exact Gap.overflows_of_compact hm
  | ok members =>
    obtain ⟨t, ht, -⟩ := renumber_eq now h.agrees hparent hm
    rw [hs] at ht
    cases ht

/-- A change of a stored node to an object, or one that leaves the properties alone, passes the
check of the record. -/
theorem check_patch (h : s.Sound) (hp : s.Proper) {n : Node} (hn : s.forest n.id = some n.record)
    {patch : Patch} (hobject : patch.properties.all Json.isObject = true) :
    (n.patch patch now).check = .ok () := by
  have hproper := hp hn
  refine Node.check_eq_ok_iff.2 ⟨hproper.id, hproper.space, ?_, fun hparent => ?_⟩
  · show (patch.properties.getD n.properties).isObject = true
    cases hv : patch.properties with
    | none => exact hproper.payload
    | some v => simpa [hv] using hobject
  · exact h.outline.rooted.parent_ne_self hn hparent

/-- An update that keeps the properties an object is accepted. -/
theorem update_accepted (h : s.Sound) (hp : s.Proper) {id : Uuid}
    {r : Record Node.Payload Timestamp} (hr : s.forest id = some r) {patch : Patch}
    (hobject : patch.properties.all Json.isObject = true) (now : Timestamp) :
    ∃ answered, s.update id patch now = .ok answered := by
  obtain ⟨n, -, hn, rfl⟩ := exists_node h.agrees hr
  obtain rfl : n.id = id := h.outline.rooted.own_id hr
  obtain ⟨t, ht, -⟩ := update_eq now h.agrees hn (check_patch h hp hr hobject)
  exact ⟨_, ht⟩

/-- A removal from the space of the node is accepted. -/
theorem delete_accepted (h : s.Sound) {id : Uuid} {r : Record Node.Payload Timestamp}
    (hr : s.forest id = some r) : ∃ answered, s.delete r.space id = .ok answered := by
  obtain ⟨n, -, -, rfl⟩ := exists_node h.agrees hr
  obtain rfl : n.id = id := h.outline.rooted.own_id hr
  exact ⟨_, (delete_eq h.agrees h.outline.rooted hr).1⟩

end Shelf

/-! ## In the table -/

namespace Table.Holds

variable {t t' : Table} {f : Forest Row.Payload String} (h : t.Holds f)
include h

theorem exists_fetchParent_iff (hr : t.Readable) (parent : Option Uuid) :
    (∃ pn, t.fetchParent parent = .ok pn) ↔ ∀ p, parent = some p → ∃ l, f p = some l := by
  cases parent with
  | none =>
    constructor
    · intro _ p hnone
      cases hnone
    · exact fun _ => ⟨none, rfl⟩
  | some p =>
    constructor
    · rintro ⟨pn, hpn⟩ p' hp'
      cases hp'
      obtain ⟨n, hn, -⟩ := map_eq_ok_iff.1 hpn
      obtain ⟨l, hl, -⟩ := h.of_fetch hn
      exact ⟨l, hl⟩
    · intro hall
      obtain ⟨l, hl⟩ := hall p rfl
      obtain ⟨n, hn, -⟩ := h.exists_fetch hr hl
      exact ⟨some n, by rw [fetchParent, hn]; rfl⟩

/-- A suitable parent is read and passes the check. -/
theorem checkFetched_of_lodged (hr : t.Readable) {l : Line} (hl : Lodged f l) :
    checkFetched l.kind l.space (t.fetchParent l.parent) = .ok () := by
  rw [checkFetched_eq_ok_iff]
  cases hp : l.parent with
  | none => exact ⟨none, rfl, checkParent_eq_ok_iff.2 (hl.isPage_of_root hp)⟩
  | some p =>
    obtain ⟨q, hq, hspace, hpage⟩ := hl.exists_parent hp
    obtain ⟨n, hn, hnode⟩ := h.exists_fetch hr hq
    obtain ⟨-, hns, hnk, -⟩ := Row.toNode_row_eq_ok_iff.1 hnode
    refine ⟨some n, by rw [fetchParent, hn]; rfl, checkParent_eq_ok_iff.2 ?_⟩
    show n.space = l.space ∧ (l.kind = .page → n.kind = .page)
    rw [hns, hnk]
    exact ⟨hspace, hpage⟩

/-- After a placement every row can be read if before every row could. -/
theorem readable_of_placed {l : Line} {group : Group} {members : List Sibling}
    {now : Timestamp} {g : Forest Row.Payload String} (hyear : now.HasPlainYear)
    (hr : t.Readable) (hl : f l.id = some l) (hh : t'.Holds g)
    (hg : Placed f g l group members now.toOffsetText) : t'.Readable :=
  hh.readable_iff.2 (hg.all (Record.keeps_legible hyear) (h.readable_iff.1 hr)
    (h.readable_iff.1 hr hl))

section Place

variable (ho : IsOutline f) (hr : t.Readable) (hroom : t.Roomy) {gap : Gap} {now : Timestamp}
  {e : StoreError}
include ho hr hroom

/-- A new node that suits its parent. -/
theorem createLast_overflows {n : Node} (hcheck : n.check = .ok ()) (hn : f n.id = none)
    (hl : Lodged f n.line) (hs : t.createLast gap n now = .error e) : e.Overflows := by
  have hnew : t.checkNew n = .ok () :=
    (checkNew_eq hcheck).trans (h.checkFetched_of_lodged hr hl)
  have heq := h.exists_createLast ho.keys hroom hn hnew gap now
  split at heq
  · next e' hplace =>
    rw [hs] at heq
    cases heq
    exact Gap.overflows_of_placeIn (fun _ _ htarget => by cases htarget) hplace
  · obtain ⟨n', t', ht⟩ := heq
    rw [hs] at ht
    cases ht

variable (hyear : now.HasPlainYear)
include hyear

/-- A move to a suitable parent that is not below the node itself. -/
theorem relocate_overflows {id : Uuid} {l : Line} {parent : Option Uuid} {target : Target}
    (hl : f id = some l) (hlodged : Lodged f { l with parent := parent })
    (hclear : ∀ p, parent = some p → ¬Within f id p)
    (hanchor : ∀ anchor side, target = .beside anchor side →
      anchor ≠ id ∧ ∃ q, f anchor = some q ∧ q.group = ⟨l.space, parent⟩)
    (hs : t.relocate gap id parent target now = .error e) : e.Overflows := by
  obtain ⟨rfl, -⟩ := h.line hl
  obtain ⟨n, hfetch, hnode⟩ := h.exists_fetch hr hl
  have hcheck := h.checkFetched_of_lodged hr hlodged
  obtain ⟨-, hspace, hkind, -⟩ := Row.toNode_row_eq_ok_iff.1 hnode
  have hlist := h.isListing_members ho.keys ⟨l.space, parent⟩
  have heq := h.relocate_eq hl hfetch ho hroom (by rw [hspace, hkind]; exact hcheck) hclear gap
    target now
  split at heq
  · next e' hplace =>
    rw [hs] at heq
    cases heq
    refine Gap.overflows_of_placeIn (fun anchor side htarget => ?_) hplace
    obtain ⟨hne, q, hq, hgroup⟩ := hanchor anchor side htarget
    exact ⟨hne, hlist.id_mem_iff.2 ⟨q, hq, hgroup⟩⟩
  · next p hplace =>
    -- what has been written can be read
    obtain ⟨t', ht, hh'⟩ := heq
    have hplaced := placed_settle hl rfl (Placing.of_placeIn hlist hplace) now.toOffsetText
    have hr' := h.readable_of_placed hyear hr hl hh' hplaced
    obtain ⟨sort, updated, -, -, hself⟩ := hplaced.self rfl
    obtain ⟨m, hm, -⟩ := hh'.exists_fetch hr' hself
    rw [hs, hm] at ht
    cases ht

/-- A group of a parent that is found. -/
theorem renumber_overflows {group : Group}
    (hparent : ∀ p, group.parent = some p → ∃ l, f p = some l)
    (hs : t.renumber gap group now = .error e) : e.Overflows := by
  obtain ⟨parent, hfetch⟩ := (h.exists_fetchParent_iff hr group.parent).2 hparent
  have heq := h.renumber_eq ho.keys hroom hfetch gap now
  cases hm : gap.compact (t.members group) with
  | error cause =>
    rw [hm] at heq
    rw [heq] at hs
    cases hs
    exact Gap.overflows_of_compact hm
  | ok members =>
    rw [hm] at heq
    obtain ⟨t', ht, hholds, hrekeyed⟩ := heq
    have hr' : t'.Readable := hholds.readable_iff.2
      (hrekeyed.all (Record.keeps_legible hyear) (h.readable_iff.1 hr))
    obtain ⟨ns, hns⟩ := hholds.exists_fetchChildren hr' group
    rw [ht, hns] at hs
    cases hs

end Place

omit h in
/-- A change of a stored node to an object, or one that leaves the properties alone, passes the
check of the record. -/
theorem check_patch (ho : IsOutline f) (hp : f.All (Record.Proper Row.Payload.IsObject))
    {now : Timestamp} {l : Line} {n : Node} (hl : f l.id = some l) (hn : l.row.toNode = .ok n)
    {patch : Patch} (hobject : patch.properties.all Json.isObject = true) :
    (n.patch patch now).check = .ok () := by
  obtain ⟨hid, hspace, -, hparent, -, hproperties, -⟩ := Row.toNode_row_eq_ok_iff.1 hn
  have hproper := hp hl
  refine Node.check_eq_ok_iff.2 ⟨?_, ?_, ?_, fun hloop => ?_⟩
  · exact hid ▸ hproper.id
  · exact hspace ▸ hproper.space
  · show (patch.properties.getD n.properties).isObject = true
    cases hv : patch.properties with
    | none => exact hproper.payload _ hproperties
    | some v => simpa [hv] using hobject
  · have hloop : n.parent = some n.id := hloop
    rw [hparent, hid] at hloop
    exact ho.rooted.parent_ne_self hl hloop

/-- An update that keeps the properties an object is accepted. -/
theorem update_accepted (ho : IsOutline f) (hr : t.Readable)
    (hp : f.All (Record.Proper Row.Payload.IsObject)) {id : Uuid} {l : Line}
    (hl : f id = some l) {patch : Patch} (hobject : patch.properties.all Json.isObject = true)
    (now : Timestamp) : ∃ answered, t.updateNode id patch now = .ok answered := by
  obtain ⟨n, hfetch, hnode⟩ := h.exists_fetch hr hl
  have hcheck : (n.patch patch now).check = .ok () :=
    check_patch ho hp (ho.rooted.own_id hl ▸ hl) hnode hobject
  have heq := updateNode_eq hfetch patch now
  rw [hcheck] at heq
  obtain ⟨t', ht'⟩ := heq
  exact ⟨_, ht'⟩

/-- A removal from the space of the node is accepted. -/
theorem delete_accepted (hr : t.Readable) {id : Uuid} {l : Line} (hl : f id = some l) :
    ∃ answered, t.deleteNode l.space id = .ok answered := by
  obtain ⟨n, hfetch, -⟩ := h.exists_fetch hr hl
  have heq := deleteNode_eq l.space hfetch
  rw [if_neg (not_not.2 (h.place_of_fetch hl hfetch).1)] at heq
  exact ⟨_, heq⟩

end Table.Holds

end Outline
