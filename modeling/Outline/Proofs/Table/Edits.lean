import Outline.Proofs.Table.Moves

/-!
# Creations, updates and renumberings in a table

A creation inserts a row, after the siblings have got new keys if the group had to be respread. The
row of a node that exists already would be refused in the end, so a creation that succeeds has been
one of a new node. An update changes the columns of the payload, and a renumbering gives the rows
of a group the keys of the allocator.

Main results:

* `Table.Holds.of_create`, `Table.Holds.of_createLast` — what a successful creation has done;
* `Table.Holds.of_updateNode`, `Table.Holds.of_renumber` — and the other calls.
-/

namespace Outline

open Sibling (Ascending)

namespace Node

/-- The record of a node as its row shows it. -/
def line (n : Node) : Line where
  id := n.id
  space := n.space
  kind := n.kind
  parent := n.parent
  sort := n.sort
  payload := ⟨n.title, n.properties.text, if n.archived then 1 else 0, n.created.toOffsetText⟩
  updated := n.updated.toOffsetText

@[simp] theorem line_id (n : Node) : n.line.id = n.id := rfl
@[simp] theorem line_group (n : Node) : n.line.group = n.group := rfl
@[simp] theorem line_sort (n : Node) : n.line.sort = n.sort := rfl

theorem row_line (n : Node) : n.line.row = Row.ofNode n := rfl

end Node

/-! ## New rows -/

section New

variable {f : Forest Row.Payload String} {l : Line} {left right : List Sibling}

/-- Putting a new record with a key of its own places it. -/
theorem placed_put {sort : SortKey} (hp : Placing f l.group l.id (.key sort) left right)
    (stamp : String) :
    Placed f (Forest.put f { l with sort := sort }) l l.group
      ((Placement.key sort).settled left l.id right) stamp := by
  have hother : ∀ {id}, id ≠ l.id → Forest.put f { l with sort := sort } id = f id :=
    fun hne => Forest.put_of_ne f hne
  refine Placed.of_placing rfl hp ⟨sort, l.updated, by simp [Placement.settled], .inl rfl, ?_⟩
    (fun id q hne hq hgroup => ?_) fun id hne _ => hother hne
  · exact Forest.put_self f { l with sort := sort }
  · exact ⟨q.sort, q.updated, hp.mem_settled_of_key rfl hne hq hgroup, .inl rfl,
      by rw [hother hne, hq]⟩

/-- The members whose rows get a key when the new node `id` is placed. -/
def Placement.writtenOthers (p : Placement) (id : Uuid) : List Sibling :=
  match p with
  | .key _ => []
  | .respread members => members.filter (·.id ≠ id)

variable {members : List Sibling}

/-- The members of a respread group other than a new one may be given their keys. -/
theorem rewrites_others (hnew : f l.id = none)
    (hp : Placing f l.group l.id (.respread members) left right) :
    Rewrites f l.group (members.filter (·.id ≠ l.id)) none := by
  have hids : ∀ {m}, m ∈ members → m.id ≠ l.id → ∃ q, f m.id = some q ∧ q.group = l.group :=
    fun hm hne => (hp.id_mem_settled_iff.1 (List.mem_map_of_mem hm)).resolve_left hne
  refine ⟨(hp.puts.ascending.filter _).nodup_sorts,
    hp.nodup_settled.sublist (List.Sublist.map _ List.filter_sublist),
    fun {m} hm => ?_, fun {m q} hm hq hgroup hid => ?_⟩
  · obtain ⟨hm, hne⟩ := List.mem_filter.1 hm
    obtain ⟨q, hq, hgroup⟩ := hids hm (of_decide_eq_true hne)
    exact ⟨q, hq, congrArg Group.space hgroup, .inl (congrArg Group.parent hgroup)⟩
  -- every stored member is among them
  · obtain ⟨m', hm', hid'⟩ := List.mem_map.1 (hp.id_mem_settled_iff.2 (.inr ⟨q, hq, hgroup⟩))
    have hne : m'.id ≠ l.id := by
      intro heq
      rw [← hid', heq, hnew] at hq
      cases hq
    have hmem : m' ∈ members.filter (·.id ≠ l.id) :=
      List.mem_filter.2 ⟨hm', decide_eq_true hne⟩
    exact absurd (List.mem_map.2 ⟨m', hmem, hid'⟩) hid

/-- Settling the others and putting a new record places it in a respread group. -/
theorem placed_settle_put (hnew : f l.id = none)
    (hp : Placing f l.group l.id (.respread members) left right) {sort : SortKey}
    (hsort : ⟨l.id, sort⟩ ∈ members) (stamp : String) :
    Placed f (Forest.put (f.settle l.group (members.filter (·.id ≠ l.id)) stamp)
      { l with sort := sort }) l l.group members stamp := by
  have hr := rewrites_others hnew hp
  refine Placed.of_placing (p := .respread members) rfl hp
    ⟨sort, l.updated, hsort, .inl rfl, Forest.put_self _ { l with sort := sort }⟩
    (fun id q hne hq hgroup => ?_) fun id hne hout => ?_
  -- a sibling has been settled
  · obtain ⟨m, hm, rfl⟩ := List.mem_map.1 (hp.id_mem_settled_iff.2 (.inr ⟨q, hq, hgroup⟩))
    have hmem : m ∈ members.filter (·.id ≠ l.id) :=
      List.mem_filter.2 ⟨hm, decide_eq_true hne⟩
    refine ⟨m.sort, stamp, hm, .inr rfl, ?_⟩
    rw [Forest.put_of_ne _ (show m.id ≠ ({ l with sort := sort } : Line).id from hne),
      hr.settle_of_mem hmem, hq, Option.map_some, settledLine, ← congrArg Group.parent hgroup]
    rfl
  -- and nobody else has
  · rw [Forest.put_of_ne _ (show id ≠ ({ l with sort := sort } : Line).id from hne)]
    refine Forest.settle_of_not_mem fun hin => ?_
    obtain ⟨m, hm, rfl⟩ := List.mem_map.1 hin
    obtain ⟨hm, -⟩ := List.mem_filter.1 hm
    obtain ⟨q, hq, hgroup⟩ :=
      (hp.id_mem_settled_iff.1 (List.mem_map_of_mem hm)).resolve_left hne
    exact hout q hq hgroup

end New

/-- All members of a group may be given the keys of the allocator. -/
theorem rewrites_compact {f : Forest Row.Payload String} {group : Group}
    {listed members : List Sibling} {gap : Gap} (hlist : IsListing f group listed)
    (hm : gap.compact listed = .ok members) (stamp : String) :
    Rewrites f group members none ∧
      Rekeyed f (f.settle group members stamp) group members stamp := by
  obtain ⟨hids, hasc⟩ := Gap.compact_eq_ok hlist.ascending hm
  have hnodup : (members.map (·.id)).Nodup := hids ▸ hlist.nodup
  have hmem : ∀ {id}, id ∈ members.map (·.id) ↔ ∃ l, f id = some l ∧ l.group = group := by
    intro id
    rw [hids, hlist.id_mem_iff]
  have hr : Rewrites f group members none := by
    refine ⟨hasc.nodup_sorts, hnodup, fun {m} hm => ?_, fun {m q} _ hq hgroup hid => ?_⟩
    · obtain ⟨l, hl, hgroup⟩ := hmem.1 (List.mem_map_of_mem hm)
      exact ⟨l, hl, congrArg Group.space hgroup, .inl (congrArg Group.parent hgroup)⟩
    · exact absurd (hmem.2 ⟨q, hq, hgroup⟩) hid
  refine ⟨hr, hasc, hnodup, hmem, fun {id l} hl hgroup => ?_, fun {id} hout => ?_⟩
  -- each member gets its key, and nobody else is among them
  · obtain ⟨m, hm, rfl⟩ := List.mem_map.1 (hmem.2 ⟨l, hl, hgroup⟩)
    refine ⟨m.sort, stamp, hm, .inr rfl, ?_⟩
    rw [hr.settle_of_mem hm, hl, Option.map_some, settledLine, ← congrArg Group.parent hgroup]
    rfl
  · refine Forest.settle_of_not_mem fun hid => ?_
    obtain ⟨l, hl, hgroup⟩ := hmem.1 hid
    exact hout l hl hgroup

/-- The record of a row whose payload is changed to that of a node. -/
def patchedLine (n : Node) (l : Line) : Line :=
  { l with
    payload := ⟨n.title, n.properties.text, if n.archived then 1 else 0, l.payload.created⟩
    updated := n.updated.toOffsetText }

namespace Table

theorem map_id_write {group : Group} {ws : List KeyWrite} {t t' : Table}
    (h : t.write group ws = .ok t') : t'.map (·.id) = t.map (·.id) := by
  induction ws generalizing t with
  | nil =>
    cases h
    rfl
  | cons w ws ih =>
    unfold write at h
    split at h
    · next t₁ hupdate =>
      rw [ih h]
      -- an update changes no identifier
      unfold update? at hupdate
      split at hupdate
      · cases hupdate
        rfl
      · split at hupdate
        · cases hupdate
        · cases hupdate
          unfold edit
          rw [List.map_map]
          refine List.map_congr_left fun r _ => ?_
          simp only [Function.comp_apply]
          split <;> rfl
    · cases h

namespace Holds

variable {t t' : Table} {f : Forest Row.Payload String} (h : t.Holds f)
include h

/-! ## Creations -/

section Create

variable {n n' : Node}

omit h in
theorem not_mem_of_insertNode (hs : t.insertNode n = .ok t') : n.id.toText ∉ t.map (·.id) := by
  intro hmem
  obtain ⟨r, hr, hid⟩ := List.mem_map.1 hmem
  have hstored : (t.any fun r => r.id = n.line.row.id) = true :=
    List.any_eq_true.2 ⟨r, hr, decide_eq_true hid⟩
  rw [insertNode, mapError_eq_ok_iff, ← Node.row_line] at hs
  unfold Table.insert at hs
  split at hs
  · cases hs
  · cases hs

/-- A row that goes in is new and has a slot of its own. -/
theorem of_insertNode (hs : t.insertNode n = .ok t') :
    f n.id = none ∧ (∀ q, f q.id = some q → q.group = n.group → q.sort ≠ n.sort) ∧
      t'.Holds (f.put n.line) := by
  -- a stored node or a taken slot would have stopped the insertion
  have hnew : f n.id = none := by
    refine Option.eq_none_iff_forall_ne_some.2 fun l hl => ?_
    obtain ⟨hid, hmem⟩ := h.line hl
    exact not_mem_of_insertNode hs (List.mem_map.2 ⟨l.row, hmem, congrArg Uuid.toText hid⟩)
  rw [insertNode, mapError_eq_ok_iff, ← Node.row_line] at hs
  have hfree : ∀ q, f q.id = some q → q.group = n.group → q.sort ≠ n.sort := by
    intro q hq hgroup hsort
    have htaken : (t.any fun r => r.slot = n.line.row.slot) = true := by
      refine List.any_eq_true.2 ⟨q.row, h.mem_iff.2 hq, decide_eq_true ?_⟩
      exact Row.slot_row_eq_iff.2 ⟨hgroup, hsort⟩
    rw [Table.insert, if_pos htaken] at hs
    cases hs
  obtain ⟨hinsert, hholds⟩ := h.insert_eq (l := n.line) hnew hfree
  rw [hinsert] at hs
  obtain rfl := Except.ok.inj hs
  exact ⟨hnew, hfree, hholds⟩

theorem of_checkNew (hs : t.checkNew n = .ok ()) :
    n.check = .ok () ∧ Lodged f n.line := by
  obtain ⟨u, hcheck, hs⟩ := bind_eq_ok_iff.1 hs
  obtain ⟨parent, hparent, hs⟩ := bind_eq_ok_iff.1 hs
  rw [mapError_eq_ok_iff] at hcheck hs
  exact ⟨hcheck, h.lodged_of_fetchParent (l := n.line) hparent hs⟩

omit h in
/-- A creation that passes its checks and finds a lone key inserts the row with it. -/
theorem createLast_of_key {gap : Gap} {siblings : List Sibling} {sort : SortKey} (now : Timestamp)
    (hnew : t.checkNew n = .ok ()) (hsiblings : t.siblings n.group = .ok siblings)
    (hplace : gap.placeIn n.group siblings n.id .last = .ok (.key sort)) :
    t.createLast gap n now =
      (t.insertNode { n with sort := sort }).map ({ n with sort := sort }, ·) := by
  unfold createLast
  rw [hnew, bind_ok, hsiblings, bind_ok, hplace, bind_ok]
  change (pure t >>= fun t₁ => t₁.insertNode { n with sort := sort } >>= fun t₂ =>
    (pure ({ n with sort := sort }, t₂) : Except StoreError (Node × Table))) = _
  rw [pure_bind]
  cases t.insertNode { n with sort := sort } <;> rfl

omit h in
theorem createLast_of_error {gap : Gap} {siblings : List Sibling} {e : StoreError} (now : Timestamp)
    (hnew : t.checkNew n = .ok ()) (hsiblings : t.siblings n.group = .ok siblings)
    (hplace : gap.placeIn n.group siblings n.id .last = .error e) :
    t.createLast gap n now = .error e := by
  unfold createLast
  rw [hnew, bind_ok, hsiblings, bind_ok, hplace, bind_error]

omit h in
/-- Where the group has to be respread, the others get their keys first. -/
theorem createLast_of_respread {gap : Gap} {siblings members : List Sibling} {sort : SortKey}
    (now : Timestamp) (hnew : t.checkNew n = .ok ())
    (hsiblings : t.siblings n.group = .ok siblings)
    (hplace : gap.placeIn n.group siblings n.id .last = .ok (.respread members))
    (hnodup : (members.map (·.id)).Nodup) (hsort : ⟨n.id, sort⟩ ∈ members) :
    t.createLast gap n now =
      t.writeKeys n.group (members.filter (·.id ≠ n.id)) none now >>= fun t =>
        (t.insertNode { n with sort := sort }).map ({ n with sort := sort }, ·) := by
  have hkey : (Placement.respread members).keyFor? n.id = some sort := by
    have hfind : members.find? (fun m => decide (m.id = n.id)) = some ⟨n.id, sort⟩ :=
      find?_of_nodup hnodup hsort
    rw [Placement.keyFor?, hfind, Option.map_some]
  unfold createLast
  rw [hnew, bind_ok, hsiblings, bind_ok, hplace, bind_ok]
  dsimp only
  rw [hkey, Option.getD_some]
  refine congrArg _ (funext fun t₁ => ?_)
  cases t₁.insertNode { n with sort := sort } <;> rfl

/-- A creation at its own key puts the node where its key says. -/
theorem of_create (hk : KeysDistinct f) (hs : t.create n = .ok (n', t')) :
    n' = n ∧ Lodged f n.line ∧ f n.id = none ∧ t'.Holds (f.put n.line) ∧
      Placing f n.group n.id (.key n.sort)
        ((Target.at n.sort).cut ((t.members n.group).filter (·.id ≠ n.id))).1
        ((Target.at n.sort).cut ((t.members n.group).filter (·.id ≠ n.id))).2 := by
  obtain ⟨u, hnew, hs⟩ := bind_eq_ok_iff.1 hs
  obtain ⟨t₁, hinsert, hs⟩ := bind_eq_ok_iff.1 hs
  cases hs
  obtain ⟨-, hlodged⟩ := h.of_checkNew hnew
  obtain ⟨hn, hfree, hholds⟩ := h.of_insertNode hinsert
  refine ⟨rfl, hlodged, hn, hholds, ?_⟩
  have hlist := h.isListing_members hk n.group
  refine .of_free hlist fun m hm _ => ?_
  obtain ⟨q, hq, hgroup, hsort⟩ := hlist.mem_iff.1 hm
  rw [← hsort]
  exact hfree q (by rw [(h.line hq).1, hq]) hgroup

/-- A creation at the end of a group writes the keys of the others, if the group has to be respread,
and then the row of the node. -/
theorem createLast_settled (hk : KeysDistinct f) {gap : Gap} {now : Timestamp}
    (hs : t.createLast gap n now = .ok (n', t')) :
    ∃ p sort, Lodged f n.line ∧ f n.id = none ∧
      gap.placeIn n.group (t.members n.group) n.id .last = .ok p ∧
      n' = { n with sort := sort } ∧ ⟨n.id, sort⟩ ∈ p.written n.id ∧
      t'.Holds ((f.settle n.group (p.writtenOthers n.id) now.toOffsetText).put n'.line) := by
  obtain ⟨u, hnew, hrest⟩ := bind_eq_ok_iff.1 hs
  obtain ⟨siblings, hsiblings, hrest⟩ := bind_eq_ok_iff.1 hrest
  obtain ⟨p, hplace, -⟩ := bind_eq_ok_iff.1 hrest
  rw [h.siblings_eq] at hsiblings
  obtain rfl := Except.ok.inj hsiblings
  obtain ⟨-, hlodged⟩ := h.of_checkNew hnew
  have hplacing := Placing.of_placeIn (h.isListing_members hk n.group) hplace
  cases p with
  | key sort =>
    rw [createLast_of_key now hnew (h.siblings_eq _) hplace] at hs
    obtain ⟨t₁, hinsert, heq⟩ := map_eq_ok_iff.1 hs
    cases heq
    obtain ⟨hn, -, hholds⟩ := h.of_insertNode (n := { n with sort := sort }) hinsert
    exact ⟨_, sort, hlodged, hn, hplace, rfl, List.mem_singleton_self _, hholds⟩
  | respread members =>
    obtain ⟨sort, hsort⟩ := hplacing.exists_key
    rw [createLast_of_respread now hnew (h.siblings_eq _) hplace hplacing.nodup_settled hsort] at hs
    obtain ⟨t₁, hwrite, hs⟩ := bind_eq_ok_iff.1 hs
    obtain ⟨t₂, hinsert, heq⟩ := map_eq_ok_iff.1 hs
    cases heq
    -- no row of the node is there after the keys are written, so none was there before
    have hn : f n.id = none := by
      refine Option.eq_none_iff_forall_ne_some.2 fun l hl => ?_
      obtain ⟨hid, hmem⟩ := h.line hl
      refine not_mem_of_insertNode hinsert ?_
      obtain ⟨ws, -, hwrite⟩ := bind_eq_ok_iff.1 hwrite
      rw [map_id_write hwrite]
      exact List.mem_map.2 ⟨l.row, hmem, congrArg Uuid.toText hid⟩
    have hr := rewrites_others (l := n.line) hn hplacing
    rcases h.writeKeys_eq hk hr now with ⟨t₃, ht₃, hh₃, -⟩ | ⟨-, -, herror⟩
    · have heq := hwrite.symm.trans ht₃
      obtain rfl := Except.ok.inj heq
      obtain ⟨-, -, hholds⟩ := hh₃.of_insertNode hinsert
      exact ⟨_, sort, hlodged, hn, hplace, rfl, hsort, hholds⟩
    · have heq := hwrite.symm.trans herror
      cases heq

/-- A creation at the end of a group puts the new node there, with the key that is answered. -/
theorem of_createLast (hk : KeysDistinct f) {gap : Gap} {now : Timestamp}
    (hs : t.createLast gap n now = .ok (n', t')) :
    ∃ p sort g, Lodged f n.line ∧ f n.id = none ∧
      gap.placeIn n.group (t.members n.group) n.id .last = .ok p ∧
      n' = { n with sort := sort } ∧ t'.Holds g ∧ g n.id = some n'.line ∧
      Placed f g n.line n.group
        (p.settled (Target.last.cut ((t.members n.group).filter (·.id ≠ n.id))).1 n.id
          (Target.last.cut ((t.members n.group).filter (·.id ≠ n.id))).2) now.toOffsetText := by
  obtain ⟨p, sort, hlodged, hn, hplace, rfl, hsort, hholds⟩ := h.createLast_settled hk hs
  have hplacing := Placing.of_placeIn (h.isListing_members hk n.group) hplace
  refine ⟨p, sort, _, hlodged, hn, hplace, rfl, hholds, Forest.put_self _ _, ?_⟩
  cases p with
  | key sort' =>
    obtain rfl : sort = sort' := congrArg Sibling.sort (List.mem_singleton.1 hsort)
    exact placed_put (l := n.line) hplacing _
  | respread members => exact placed_settle_put (l := n.line) hn hplacing hsort _

theorem create_evolves (hk : KeysDistinct f) (hs : t.create n = .ok (n', t')) :
    ∃ g, t'.Holds g ∧ Evolves f g := by
  obtain ⟨rfl, hlodged, hnew, hholds, hplacing⟩ := h.of_create hk hs
  exact ⟨_, hholds, .created (placed_put (l := n'.line) hplacing n'.line.updated) hnew rfl hlodged⟩

theorem createLast_evolves (hk : KeysDistinct f) {gap : Gap} {now : Timestamp}
    (hs : t.createLast gap n now = .ok (n', t')) : ∃ g, t'.Holds g ∧ Evolves f g := by
  obtain ⟨p, sort, g, hlodged, hnew, -, -, hholds, -, hplaced⟩ := h.of_createLast hk hs
  exact ⟨g, hholds, .created hplaced hnew rfl hlodged⟩

end Create

/-! ## Updates -/

theorem of_updateNode {id : Uuid} {patch : Patch} {now : Timestamp} {n' : Node}
    (hs : t.updateNode id patch now = .ok (n', t')) :
    ∃ l n, f id = some l ∧ l.row.toNode = .ok n ∧ n' = n.patch patch now ∧ n'.check = .ok () ∧
      t'.Holds (f.put (patchedLine n' l)) := by
  obtain ⟨n, hfetch, hs⟩ := bind_eq_ok_iff.1 hs
  obtain ⟨u, hcheck, hs⟩ := bind_eq_ok_iff.1 hs
  rw [mapError_eq_ok_iff] at hcheck
  cases hs
  obtain ⟨l, hl, hnode⟩ := h.of_fetch hfetch
  refine ⟨l, n, hl, hnode, rfl, hcheck, ?_⟩
  have hid : (patchedLine (n.patch patch now) l).id = id := (h.line hl).1
  have hput : f.alter id (patchedLine (n.patch patch now)) =
      f.put (patchedLine (n.patch patch now) l) := by
    funext a
    by_cases ha : a = id
    · rw [Forest.alter, if_pos ha, ha, hl, Forest.put, if_pos hid.symm, Option.map_some]
    · rw [Forest.alter, if_neg ha, Forest.put, if_neg fun heq => ha (heq.trans hid)]
  rw [← hput]
  exact h.edit (fun _ => rfl) fun _ => rfl

theorem updateNode_evolves {id : Uuid} {patch : Patch} {now : Timestamp} {n' : Node}
    (hs : t.updateNode id patch now = .ok (n', t')) : ∃ g, t'.Holds g ∧ Evolves f g := by
  obtain ⟨l, n, hl, -, -, -, hholds⟩ := h.of_updateNode hs
  have hl' : f (patchedLine n' l).id = some l := by rw [← hl]; exact congrArg f (h.line hl).1
  exact ⟨_, hholds, .payload hl' rfl rfl rfl⟩

/-! ## Renumberings -/

theorem of_renumber (hk : KeysDistinct f) {gap : Gap} {group : Group} {now : Timestamp}
    {ns : List Node} (hs : t.renumber gap group now = .ok (ns, t')) :
    ∃ parent members, t.fetchParent group.parent = .ok parent ∧
      gap.compact (t.members group) = .ok members ∧
      t'.Holds (f.settle group members now.toOffsetText) ∧ t'.fetchChildren group = .ok ns ∧
      Rekeyed f (f.settle group members now.toOffsetText) group members now.toOffsetText := by
  obtain ⟨parent, hparent, hs⟩ := bind_eq_ok_iff.1 hs
  obtain ⟨siblings, hsiblings, hs⟩ := bind_eq_ok_iff.1 hs
  obtain ⟨members, hcompact, hs⟩ := bind_eq_ok_iff.1 hs
  obtain ⟨t₁, hwrite, hs⟩ := bind_eq_ok_iff.1 hs
  obtain ⟨children, hchildren, hs⟩ := bind_eq_ok_iff.1 hs
  cases hs
  rw [h.siblings_eq] at hsiblings
  obtain rfl := Except.ok.inj hsiblings
  rw [mapError_eq_ok_iff] at hcompact
  obtain ⟨hr, hrekeyed⟩ := rewrites_compact (h.isListing_members hk group) hcompact
    now.toOffsetText
  refine ⟨parent, members, hparent, hcompact, ?_, hchildren, hrekeyed⟩
  -- keys that could not be parked would have ended the call
  rcases h.writeKeys_eq hk hr now with ⟨t₂, ht₂, hh₂, -⟩ | ⟨-, -, herror⟩
  · rw [ht₂] at hwrite
    obtain rfl := Except.ok.inj hwrite
    exact hh₂
  · rw [herror] at hwrite
    cases hwrite

theorem renumber_evolves (hk : KeysDistinct f) {gap : Gap} {group : Group} {now : Timestamp}
    {ns : List Node} (hs : t.renumber gap group now = .ok (ns, t')) :
    ∃ g, t'.Holds g ∧ Evolves f g := by
  obtain ⟨parent, members, -, -, hholds, -, hrekeyed⟩ := h.of_renumber hk hs
  exact ⟨_, hholds, .rekeyed hrekeyed⟩

end Holds

end Table

end Outline
