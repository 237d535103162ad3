import Outline.Proofs.Agreement.Mirror
import Outline.Proofs.Agreement.Programs
import Outline.Proofs.Indexed.Answers
import Outline.Proofs.Table.Answers

/-!
# Two stores that give the same answers

The store in memory and the store with a table are twins when both are sound, use one gap, and the
rows mirror the nodes. A call is answered alike by twins, the times apart, or refused for the same
reason by both, and leaves twins behind.

Two kinds of calls are told apart by the stores when the service would not make them. A parent in
another space is missing for the one and breaks a rule for the other, so the calls that are given a
parent are compared for a parent of their own space. And the two check a new node in a different
order when its identifier is stored already.

Main results:

* `Twins.relocate`, `Twins.createLast`, `Twins.update`, `Twins.delete`, `Twins.renumber` — calls
  that write;
* `Twins.fetch_some`, `Twins.list` — calls that read.
-/

namespace Outline

/-- Two stores that hold the same nodes, the times apart. -/
structure Twins (s : Shelf) (db : Database) : Prop where
  shelf   : s.Sound
  table   : db.Sound
  gap     : s.gap = db.gap
  mirrors : Mirrors s.forest db.rows.forest

namespace Twins

variable {s : Shelf} {db : Database}

theorem empty (gap : Gap) : Twins (.empty gap) (.empty gap) where
  shelf := Shelf.sound_empty gap
  table := Database.sound_empty gap
  gap := rfl
  mirrors := mirrors_of_empty (fun _ => rfl) (fun _ => rfl)

variable (h : Twins s db)
include h

/-! ## Looking for nodes -/

theorem fetch_none {id : Uuid} (hid : s.forest id = none) :
    s.get id = .error (.notFound id) ∧ db.rows.fetch id = .error (.notFound id) :=
  ⟨Shelf.get_eq_error hid, h.table.holds.fetch_none (h.mirrors.none_iff.1 hid)⟩

theorem fetch_some {id : Uuid} {n : Node} (hn : s.forest id = some n.record) :
    s.get id = .ok n ∧ ∃ m, db.rows.fetch id = .ok m ∧ n.Alike m := by
  obtain ⟨l, hl, hnl⟩ := h.mirrors.of_some hn
  obtain ⟨m, hm, hnm⟩ := Node.exists_toNode hnl
  refine ⟨Shelf.get_of_forest h.shelf.agrees hn, m, ?_, hnm⟩
  rw [h.table.holds.fetch_some hl, StoreError.ofFault, hm, mapError_ok]

theorem stored_or_not (id : Uuid) :
    s.forest id = none ∨ ∃ n : Node, s.forest id = some n.record := by
  cases hr : s.forest id with
  | none => exact .inl rfl
  | some r =>
    obtain ⟨n, -, -, rfl⟩ := Shelf.exists_node h.shelf.agrees hr
    exact .inr ⟨n, rfl⟩

/-- A parent is found by both, or missing for both, or only the table finds it in another space. -/
theorem parent_cases (parent : Option Uuid) (sp : Uuid) :
    (∃ a b, (s.space sp).getParent parent = .ok a ∧ db.rows.fetchParent parent = .ok b ∧
        Option.Rel Node.Alike a b ∧ ∀ m, b = some m → m.space = sp) ∨
      ∃ p, parent = some p ∧ (s.space sp).getParent parent = .error (.notFound p) ∧
        (db.rows.fetchParent parent = .error (.notFound p) ∨
          ∃ n m : Node, s.forest p = some n.record ∧ n.space ≠ sp ∧
            db.rows.fetchParent parent = .ok (some m) ∧ n.Alike m) := by
  cases parent with
  | none => exact .inl ⟨none, none, rfl, rfl, .none, fun m hm => by cases hm⟩
  | some p =>
    rcases h.stored_or_not p with hp | ⟨n, hn⟩
    · have hget : (s.space sp).get p = .error (.notFound p) :=
        Shelf.space_get_eq_error h.shelf.agrees (Shelf.outside_of_none hp)
      refine .inr ⟨p, rfl, ?_, .inl ?_⟩
      · rw [Space.getParent, hget]
        rfl
      · rw [Table.fetchParent, (h.fetch_none hp).2]
        rfl
    · obtain ⟨-, m, hm, hnm⟩ := h.fetch_some hn
      have hfetch : db.rows.fetchParent (some p) = .ok (some m) := by
        rw [Table.fetchParent, hm]
        rfl
      by_cases hspace : n.space = sp
      · subst hspace
        refine .inl ⟨some n, some m, ?_, hfetch, .some hnm, fun q hq => ?_⟩
        · rw [Space.getParent, Shelf.space_get_of_forest h.shelf.agrees hn]
          rfl
        · rw [← Option.some.inj hq]
          exact hnm.place.2.1
      -- the index of the space knows only its own nodes, the table all of them
      · have hget : (s.space sp).get p = .error (.notFound p) :=
          Shelf.space_get_eq_error h.shelf.agrees (Shelf.outside_of_space hn hspace)
        refine .inr ⟨p, rfl, ?_, .inr ⟨n, m, hn, hspace, hfetch, hnm⟩⟩
        rw [Space.getParent, hget]
        rfl

/-- A parent of the space is looked up and checked alike. -/
theorem checkFetched_eq {parent : Option Uuid} {sp : Uuid}
    (hspace : ∀ p q, parent = some p → s.forest p = some q → q.space = sp) (kind : Kind) :
    checkFetched kind sp ((s.space sp).getParent parent) =
      checkFetched kind sp (db.rows.fetchParent parent) := by
  rcases h.parent_cases parent sp with ⟨a, b, hget, hfetch, hab, -⟩ | ⟨p, hp, hget, hmissing⟩
  · rw [hget, hfetch]
    cases hab with
    | none => rfl
    | some hnm =>
      unfold checkFetched
      rw [bind_ok, bind_ok, hnm.checkParent_eq]
  · rcases hmissing with hfetch | ⟨n, m, hn, hne, -⟩
    · rw [hget, hfetch]
    · exact absurd (hspace p _ hp hn) hne

/-- The members of a group are the same. -/
theorem members_eq (group : Group) :
    db.rows.members group = (s.space group.space).siblings group.parent :=
  (h.table.holds.isListing_members h.table.outline.keys group).eq
    (h.mirrors.isListing (Shelf.isListing_siblings h.shelf.agrees group))

/-- A table that holds a changed forest, beside the store in memory after the same change. -/
theorem of_holds {s' : Shelf} {t' : Table} {g : Forest Row.Payload String} (hs' : s'.Sound)
    (hgap : s'.gap = s.gap) (hh : t'.Holds g) (ho : IsOutline g) (hm : Mirrors s'.forest g) :
    Twins s' { db with rows := t' } where
  shelf := hs'
  table := .of_holds hh ho
  gap := hgap.trans h.gap
  mirrors := by
    rw [show ({ db with rows := t' } : Database).rows.forest = t'.forest from rfl, hh.forest_eq]
    exact hm

/-! ## Moves -/

section Move

variable (hroom : db.rows.Roomy) {now now' : Timestamp} (hyear : now'.HasPlainYear) {id : Uuid}
  (find : Space → Except StoreError (Option Uuid)) {parent : Option Uuid}
include hroom hyear

/-- A move to a parent that both have found and checked, and that the node is not above. -/
theorem relocate_of_clear {n m : Node} (hn : s.forest id = some n.record)
    (hm : db.rows.fetch id = .ok m) (hfind : find (s.space n.space) = .ok parent)
    (hlodged : Lodged s.forest { n.record with parent := parent })
    (hcheck : checkFetched m.kind m.space (db.rows.fetchParent parent) = .ok ())
    (hclear : ∀ p, parent = some p → ¬Within s.forest id p) (target : Target) :
    Matched Twins Node.Alike (s.relocate id find target now)
      (db.writing (db.rows.relocate db.gap id parent target now')) := by
  have hh := h.table.holds
  obtain ⟨l, hl, hnl⟩ := h.mirrors.of_some hn
  have hspace : l.space = n.space := hnl.place.2.1
  have hclear' : ∀ p, parent = some p → ¬Within db.rows.forest id p :=
    fun p hp hw => hclear p hp (h.mirrors.sameShape.within_iff.2 hw)
  obtain rfl : l.id = id := (hh.line hl).1
  -- both ask the allocator for the same place among the same siblings
  have hmoved := Shelf.relocate_eq target now h.shelf.agrees h.shelf.outline.rooted hn hfind
    hlodged hclear
  have hmoved' := hh.relocate_eq hl hm h.table.outline hroom hcheck hclear' db.gap target now'
  rw [hspace, h.members_eq, ← h.gap] at hmoved'
  dsimp only [Node.record_space] at hmoved
  cases hplace : s.gap.placeIn ⟨n.space, parent⟩ ((s.space n.space).siblings parent) l.id
      target with
  | error e =>
    rw [hplace] at hmoved hmoved'
    rw [hmoved, ← h.gap, hmoved']
    exact .refused
  | ok p =>
    rw [hplace] at hmoved hmoved'
    obtain ⟨n', s', hs', -, hgap, hn', hplaced⟩ := hmoved
    obtain ⟨t', ht', hh'⟩ := hmoved'
    have hlist := hh.isListing_members h.table.outline.keys ⟨n.space, parent⟩
    rw [h.members_eq] at hlist
    -- and both have placed the node there
    have hplaced' := placed_settle hl hspace (Placing.of_placeIn hlist hplace) now'.toOffsetText
    have hsound : s'.Sound := h.shelf.of_evolves (Shelf.relocate_evolves h.shelf hs')
    have hevolves' : Evolves db.rows.forest _ :=
      .moved hplaced' hl hspace (hh.lodged_of_checkFetched hl hm hcheck) hclear'
    have htwins : Twins s' { db with rows := t' } :=
      h.of_holds hsound hgap hh' (hevolves'.isOutline h.table.outline)
        (h.mirrors.placed hnl hplaced hplaced' (isTimeText_toOffsetText hyear))
    -- the row that is read at last is that of the moved node
    obtain ⟨-, m', hm', hnm'⟩ := htwins.fetch_some hn'
    have hfetch : t'.fetch l.id = .ok m' := hm'
    rw [hs', ← h.gap, ht', hfetch]
    exact .answered hnm' htwins

/-- A move to a parent that, if it is stored, is in the space of the node. -/
theorem relocate
    (hfind : ∀ n : Node, s.forest id = some n.record → find (s.space n.space) = .ok parent)
    (hspace : ∀ (n : Node) p q, s.forest id = some n.record → parent = some p →
      s.forest p = some q → q.space = n.space) (target : Target) :
    Matched Twins Node.Alike (s.relocate id find target now)
      (db.writing (db.rows.relocate db.gap id parent target now')) := by
  have ha := h.shelf.agrees
  have hh := h.table.holds
  rcases h.stored_or_not id with hid | ⟨n, hn⟩
  · have htable : db.rows.relocate db.gap id parent target now' = .error (.notFound id) := by
      rw [Table.relocate, (h.fetch_none hid).2, bind_error]
    rw [Shelf.relocate_none ha hid, htable]
    exact .refused
  obtain ⟨-, m, hm, hnm⟩ := h.fetch_some hn
  obtain ⟨-, hmspace, hmkind, -⟩ := hnm.place
  have hsame := h.checkFetched_eq (hspace n · · hn) n.kind
  -- both check the parent alike, then the way up from it
  cases hcheck : checkFetched n.kind n.space ((s.space n.space).getParent parent) with
  | error e =>
    rw [hcheck, ← hmspace, ← hmkind] at hsame
    rw [Shelf.relocate_refused ha hn (hfind n hn) hcheck,
      Table.Holds.relocate_refused hm hsame.symm]
    exact .refused
  | ok u =>
    obtain ⟨pn, hget, hok⟩ := checkFetched_eq_ok_iff.1 hcheck
    have hlodged : Lodged s.forest { n.record with parent := parent } :=
      Shelf.lodged_of_getParent ha (r := { n.record with parent := parent }) hget hok
    rw [hcheck, ← hmspace, ← hmkind] at hsame
    by_cases hblocked : ∃ p, parent = some p ∧ Within s.forest id p
    · obtain ⟨p, rfl, hw⟩ := hblocked
      obtain ⟨l, hl, -⟩ := h.mirrors.of_some hn
      have hw' : Within db.rows.forest id p := h.mirrors.sameShape.within_iff.1 hw
      rw [Shelf.relocate_blocked target now ha h.shelf.outline.rooted hn (hfind n hn) hlodged rfl
          hw, hh.relocate_blocked hl hm h.table.outline.rooted hsame.symm hw']
      exact .refused
    · exact h.relocate_of_clear hroom hyear find hn hm (hfind n hn) hlodged hsame.symm
        (fun p hp hw => hblocked ⟨p, hp, hw⟩) target

end Move

/-- The parent of a stored node is in its space. -/
theorem parent_space {id : Uuid} {n : Node} (hn : s.forest id = some n.record) :
    ∀ p q, n.parent = some p → s.forest p = some q → q.space = n.space := by
  intro p q hp hq
  obtain ⟨q', hq', hspace, -⟩ := (h.shelf.outline.rooted.lodged hn).exists_parent hp
  rw [hq] at hq'
  rw [Option.some.inj hq']
  exact hspace

/-- A node is moved in its own group. -/
theorem reorder (hroom : db.rows.Roomy) {now now' : Timestamp} (hyear : now'.HasPlainYear)
    (id : Uuid) (sort : SortKey) :
    Matched Twins Node.Alike (Shelf.store.serve (.reorder id sort) now s)
      (db.writing (db.rows.reorder db.gap id sort now')) := by
  show Matched Twins Node.Alike
    (s.relocate id (fun space => (space.get id).map (·.parent)) (.at sort) now) _
  rcases h.stored_or_not id with hid | ⟨n, hn⟩
  · rw [Shelf.relocate_none h.shelf.agrees hid, Table.reorder, (h.fetch_none hid).2, bind_error]
    exact .refused
  · obtain ⟨-, m, hm, hnm⟩ := h.fetch_some hn
    rw [Table.reorder, hm, bind_ok, hnm.place.2.2.2]
    refine h.relocate hroom hyear _ (fun n' hn' => ?_) (fun n' p q hn' => ?_) (.at sort)
    · obtain rfl : n = n' := Node.record_inj.1 (Option.some.inj (hn.symm.trans hn'))
      rw [Shelf.space_get_of_forest h.shelf.agrees hn]
      rfl
    · obtain rfl : n = n' := Node.record_inj.1 (Option.some.inj (hn.symm.trans hn'))
      exact h.parent_space hn p q

/-- A node is moved beside an anchor, which both look for in the space of the node. -/
theorem moveBeside (hroom : db.rows.Roomy) {now now' : Timestamp} (hyear : now'.HasPlainYear)
    (id anchor : Uuid) (side : Side) :
    Matched Twins Node.Alike (s.moveBeside id anchor side now)
      (db.writing (db.rows.moveBeside db.gap id anchor side now')) := by
  unfold Shelf.moveBeside Table.moveBeside
  dsimp only
  by_cases hself : anchor = id
  · rw [if_pos hself, if_pos hself]
    exact .refused
  rw [if_neg hself, if_neg hself]
  rcases h.stored_or_not id with hid | ⟨n, hn⟩
  · rw [Shelf.relocate_none h.shelf.agrees hid, (h.fetch_none hid).2, bind_error]
    exact .refused
  obtain ⟨-, m, hm, hnm⟩ := h.fetch_some hn
  rw [hm, bind_ok]
  -- an anchor in another space is none for either
  have hmissing : s.Outside n.space anchor →
      s.relocate id (fun space => (space.get anchor).map (·.parent)) (.beside anchor side) now =
        .error (.notFound anchor) := by
    intro hout
    refine Shelf.relocate_unfound h.shelf.agrees hn ?_
    rw [Shelf.space_get_eq_error h.shelf.agrees hout]
    rfl
  rcases h.stored_or_not anchor with hanchor | ⟨a, ha⟩
  · rw [hmissing (Shelf.outside_of_none hanchor), (h.fetch_none hanchor).2, bind_error]
    exact .refused
  obtain ⟨-, b, hb, hab⟩ := h.fetch_some ha
  rw [hb, bind_ok, hab.place.2.1, hnm.place.2.1]
  by_cases hspace : a.space = n.space
  -- the anchor's parent is in the anchor's space, which is that of the node
  · rw [if_neg (not_not.2 hspace), hab.place.2.2.2]
    refine h.relocate hroom hyear _ (fun n' hn' => ?_) (fun n' p q hn' hp hq => ?_)
      (.beside anchor side)
    · obtain rfl : n = n' := Node.record_inj.1 (Option.some.inj (hn.symm.trans hn'))
      rw [← hspace, Shelf.space_get_of_forest h.shelf.agrees ha]
      rfl
    · obtain rfl : n = n' := Node.record_inj.1 (Option.some.inj (hn.symm.trans hn'))
      exact (h.parent_space ha p q hp hq).trans hspace
  · rw [hmissing (Shelf.outside_of_space ha hspace), if_pos hspace]
    exact .refused

/-! ## Creations -/

section Create

variable {now now' : Timestamp} {n m : Node} (hnm : n.Alike m) (hnew : s.forest n.id = none)
include hnm hnew

omit hnew in
/-- A creation that both have carried out leaves twins, if the new row can be read. -/
theorem of_created {s' : Shelf} {t' : Table} {g : Forest Row.Payload String} {n' m' : Node}
    {group : Group} {members members' : List Sibling} {stamp : Timestamp} {text : String}
    (hs' : s'.Sound)
    (hgap : s'.gap = s.gap) (hn' : s'.forest n.id = some n'.record)
    (hplaced : Placed s.forest s'.forest n.record n.group members stamp) (hh' : t'.Holds g)
    (hm' : g m.id = some m'.line) (hm'm : ∃ sort, m' = { m with sort := sort })
    (hplaced' : Placed db.rows.forest g m.line group members' text) (hgroup : group = n.group)
    (hmembers : members' = members) (ho : IsOutline g) :
    n'.Alike m' ∧
      (m.Writable → IsTimeText text → Twins s' { db with rows := t' }) := by
  obtain ⟨hid, hspace, hkind, hparent, htitle, hprops, -, harchived⟩ := Node.undated_eq_iff.1 hnm
  obtain ⟨sort', rfl⟩ := hm'm
  subst hgroup hmembers
  -- both have put it at the key that the group as it is to be has for it
  obtain ⟨sort, updated, hin, -, hself⟩ := hplaced.self rfl
  obtain ⟨sort₁, updated₁, hin', -, hself'⟩ := hplaced'.self hspace
  obtain rfl : n' = { n with sort := sort, updated := updated } :=
    Node.record_inj.1 (Option.some.inj (hn'.symm.trans hself))
  have hline := Option.some.inj (hm'.symm.trans hself')
  obtain rfl : sort' = sort₁ := congrArg Record.sort hline
  have hsame : (⟨n.id, sort⟩ : Sibling) = ⟨m.id, sort'⟩ :=
    List.inj_on_of_nodup_map hplaced.nodup hin hin' hid.symm
  refine ⟨Node.undated_eq_iff.2 ⟨hid, hspace, hkind, hparent, htitle, hprops,
    (congrArg Sibling.sort hsame).symm, harchived⟩, fun hw htext => ?_⟩
  have hproperties : n.properties.IsText := hprops ▸ hw.properties
  exact h.of_holds hs' hgap hh' ho (h.mirrors.placed
    (Node.mirrors_line hnm hproperties hw.created hw.updated) hplaced hplaced' htext)

/-- Whatever is created, both check it alike: on its own first, then under its parent. -/
theorem checkNew_eq (now : Timestamp)
    (hspace : n.check = .ok () → ∀ p q, n.parent = some p → s.forest p = some q →
      q.space = n.space)
    (entry : Shelf.Entry) :
    (∃ e, s.insert n entry now = .error e ∧ db.rows.checkNew m = .error e) ∨
      (n.check = .ok () ∧ Lodged s.forest n.record ∧ db.rows.checkNew m = .ok ()) := by
  have ha := h.shelf.agrees
  obtain ⟨-, hmspace, hmkind, hmparent⟩ := hnm.place
  cases hcheck : n.check with
  | error d =>
    refine .inl ⟨_, Shelf.insert_defect hcheck, ?_⟩
    rw [Table.checkNew, hnm.check_eq, hcheck]
    rfl
  | ok u =>
    have hmnew := Table.Holds.checkNew_eq (t := db.rows) (hnm.check_eq.trans hcheck)
    rw [hmkind, hmspace, hmparent, ← h.checkFetched_eq (hspace hcheck) n.kind] at hmnew
    cases hparent : checkFetched n.kind n.space ((s.space n.space).getParent n.parent) with
    | error e => exact .inl ⟨e, Shelf.insert_refused ha hcheck hnew hparent, hmnew.trans hparent⟩
    | ok u =>
      obtain ⟨pn, hget, hok⟩ := checkFetched_eq_ok_iff.1 hparent
      exact .inr ⟨rfl, Shelf.lodged_of_getParent ha hget hok, hmnew.trans hparent⟩

theorem forest_new : db.rows.forest m.id = none := by
  rw [hnm.place.1, ← h.mirrors.none_iff, hnew]

/-- The outline that a creation leaves in the table. -/
theorem isOutline_created {g : Forest Row.Payload String} {group : Group} {members : List Sibling}
    {text : String} (hlodged : Lodged db.rows.forest m.line)
    (hplaced : Placed db.rows.forest g m.line group members text) (hgroup : group = n.group) :
    IsOutline g := by
  subst hgroup
  obtain ⟨-, hmspace, -, hmparent⟩ := hnm.place
  have hevolves : Evolves db.rows.forest g :=
    .created hplaced (h.forest_new hnm hnew) (show m.space = n.group.space from hmspace)
      (by rwa [show n.group.parent = m.line.parent from hmparent.symm])
  exact hevolves.isOutline h.table.outline

/-- A new node at the end of its group. Unless it has a defect, its parent is in its space if it is
stored. -/
theorem createLast (hroom : db.rows.Roomy)
    (hspace : n.check = .ok () → ∀ p q, n.parent = some p → s.forest p = some q →
      q.space = n.space) :
    Matched (fun s' db' => m.Writable → now'.HasPlainYear → Twins s' db') Node.Alike
      (s.insert n .last now) (db.writing (db.rows.createLast db.gap m now')) := by
  have hh := h.table.holds
  -- both stores refuse the node alike or accept it
  rcases h.checkNew_eq hnm hnew now hspace .last with
    ⟨e, hs, hmnew⟩ | ⟨hcheck, hlodged, hmnew⟩
  · rw [hs, Table.Holds.createLast_refused hmnew]
    exact .refused
  have hid : m.id = n.id := hnm.place.1
  have hgroup := hnm.group
  have hin := Shelf.insert_last_eq now h.shelf.agrees hcheck hnew hlodged
  have hin' := hh.exists_createLast h.table.outline.keys hroom (h.forest_new hnm hnew) hmnew db.gap
    now'
  rw [hgroup, h.members_eq, hid, ← h.gap] at hin'
  dsimp only [Node.group] at hin hin'
  -- both place it among the same siblings
  cases hplace : s.gap.placeIn ⟨n.space, n.parent⟩ ((s.space n.space).siblings n.parent) n.id
      .last with
  | error e =>
    rw [hplace] at hin hin'
    rw [hin, ← h.gap, hin']
    exact .refused
  | ok p =>
    rw [hplace] at hin hin'
    obtain ⟨n', s', stamp, hs', -, hgap, hn', hplaced⟩ := hin
    obtain ⟨m', t', ht'⟩ := hin'
    obtain ⟨p', sort, g, hmlodged, -, hplace', hm', hh', hgm, hplaced'⟩ :=
      hh.of_createLast h.table.outline.keys ht'
    rw [hgroup, h.members_eq, hid] at hplace' hplaced'
    -- the table has used the placement that the shelf has
    obtain rfl : p' = p := Except.ok.inj (hplace'.symm.trans hplace)
    have hsound : s'.Sound := h.shelf.of_evolves (Shelf.insert_evolves h.shelf hs')
    obtain ⟨halike, htwins⟩ := h.of_created hnm hsound hgap hn' hplaced hh' hgm ⟨sort, hm'⟩
      hplaced' rfl rfl (h.isOutline_created hnm hnew hmlodged hplaced' rfl)
    rw [hs', ← h.gap, ht']
    exact .answered halike fun hw hyear => h.gap ▸ htwins hw (isTimeText_toOffsetText hyear)

/-- A new node at a key of its own. -/
theorem create (hsort : m.sort = n.sort)
    (hspace : n.check = .ok () → ∀ p q, n.parent = some p → s.forest p = some q →
      q.space = n.space) :
    Matched (fun s' db' => m.Writable → Twins s' db') Node.Alike (s.insert n .own now)
      (db.writing (db.rows.create m)) := by
  have ha := h.shelf.agrees
  have hh := h.table.holds
  rcases h.checkNew_eq hnm hnew now hspace .own with
    ⟨e, hs, hmnew⟩ | ⟨hcheck, hlodged, hmnew⟩
  · rw [hs, Table.create, hmnew]
    exact .refused
  have hid : m.id = n.id := hnm.place.1
  have hgroup := hnm.group
  have hlist := hh.isListing_members h.table.outline.keys n.group
  rw [h.members_eq] at hlist
  by_cases hfree : s.KeyFree n
  · obtain ⟨n', s', stamp, hs', -, hgap, hn', hplaced⟩ :=
      Shelf.insert_own_eq now ha hcheck hnew hlodged hfree
    have hfree' : ∀ q, db.rows.forest q.id = some q → q.group = m.group → q.sort ≠ m.sort := by
      intro q hq hqgroup
      rw [hsort]
      exact hfree ⟨q.id, q.sort⟩ (hlist.mem_iff.2 ⟨q, hq, hqgroup.trans hgroup, rfl⟩)
    obtain ⟨t', ht'⟩ : ∃ t', db.rows.create m = .ok (m, t') := by
      obtain ⟨t', ht'⟩ := hh.exists_insertNode (h.forest_new hnm hnew) hfree'
      have hinsert : db.rows.insertNode m = .ok t' := ht'
      exact ⟨t', by rw [Table.create, hmnew, bind_ok, hinsert]; rfl⟩
    obtain ⟨-, hmlodged, -, hh', hplacing⟩ := hh.of_create h.table.outline.keys ht'
    have hplaced' := placed_put (l := m.line) hplacing m.line.updated
    have hsound : s'.Sound := h.shelf.of_evolves (Shelf.insert_evolves h.shelf hs')
    obtain ⟨halike, htwins⟩ := h.of_created hnm hsound hgap hn' hplaced hh'
      (Forest.put_self _ m.line) ⟨m.sort, rfl⟩ hplaced' hgroup (by
        rw [hgroup, h.members_eq, show m.line.id = n.id from hid, hid, hsort]
        rfl) (h.isOutline_created hnm hnew hmlodged hplaced' hgroup)
    rw [hs', ht']
    exact .answered halike fun hw => htwins hw (isTimeText_toOffsetText hw.updated)
  -- the key is that of a member, which both know
  · obtain ⟨x, hx, hxsort⟩ : ∃ x ∈ (s.space n.space).siblings n.parent, x.sort = n.sort := by
      simpa [Shelf.KeyFree] using hfree
    obtain ⟨q, hq, hqgroup, hqsort⟩ := (hlist.mem_iff (m := x)).1 hx
    have hqid : db.rows.forest q.id = some q := by rw [(hh.line hq).1, hq]
    have htaken := hh.insertNode_taken (n := m) hqid (hqgroup.trans hgroup.symm)
      ((hqsort.trans hxsort).trans hsort.symm)
    rw [Shelf.insert_own_taken ha hcheck hnew hlodged hfree, Table.create, hmnew, bind_ok, htaken,
      hgroup, hsort]
    exact .refused

end Create

/-! ## Updates and removals -/

/-- The same payload on both sides, which leaves twins if it can be read back. -/
theorem update {now now' : Timestamp} (id : Uuid) (patch : Patch) :
    Matched (fun s' db' => (∀ v, patch.properties = some v → v.IsText) → now'.HasPlainYear →
      Twins s' db') Node.Alike (s.update id patch now)
      (db.writing (db.rows.updateNode id patch now')) := by
  have ha := h.shelf.agrees
  have hh := h.table.holds
  rcases h.stored_or_not id with hid | ⟨n, hn⟩
  · have htable : db.rows.updateNode id patch now' = .error (.notFound id) := by
      rw [Table.updateNode, (h.fetch_none hid).2, bind_error]
    rw [Shelf.update_none ha hid, htable]
    exact .refused
  obtain ⟨-, m, hm, hnm⟩ := h.fetch_some hn
  -- the patched node is checked alike, and nothing else can go wrong
  have hpatched := hnm.patch patch now now'
  have htable := Table.Holds.updateNode_eq hm patch now'
  cases hcheck : (n.patch patch now).check with
  | error d =>
    rw [hpatched.check_eq, hcheck] at htable
    rw [Shelf.update_defect ha hn hcheck, htable]
    exact .refused
  | ok u =>
    rw [hpatched.check_eq, hcheck] at htable
    obtain ⟨t', ht'⟩ := htable
    obtain ⟨s', hs', -, hgap, hf⟩ := Shelf.update_eq now ha
      (Shelf.node_of_space_get (Shelf.space_get_of_forest ha hn)) hcheck
    obtain ⟨l, -, hl, -, -, -, hh'⟩ := hh.of_updateNode ht'
    obtain ⟨q, hq, hnl⟩ := h.mirrors.of_some hn
    obtain rfl : l = q := Option.some.inj (hl.symm.trans hq)
    have hsound : s'.Sound := h.shelf.of_evolves (Shelf.update_evolves h.shelf hs')
    have houtline : IsOutline (db.rows.forest.put (patchedLine (m.patch patch now') l)) := by
      have hlid : db.rows.forest l.id = some l := by rw [(hh.line hl).1, hl]
      exact h.table.outline.put_payload hlid rfl rfl
    rw [hs', ht']
    refine .answered hpatched fun hproperties hyear =>
      h.of_holds hsound hgap hh' houtline ?_
    rw [hf]
    exact h.mirrors.put (Node.mirrors_patched hnl hnm hproperties now hyear)

/-- Both count the nodes that they remove. -/
theorem delete (space id : Uuid) :
    Matched Twins (· = ·) (s.delete space id) (db.writing (db.rows.deleteNode space id)) := by
  have ha := h.shelf.agrees
  have hh := h.table.holds
  rcases h.stored_or_not id with hid | ⟨n, hn⟩
  · have htable : db.rows.deleteNode space id = .error (.notFound id) := by
      rw [Table.deleteNode, (h.fetch_none hid).2, bind_error]
    have hshelf : s.delete space id = .error (.notFound id) :=
      Shelf.delete_refused ha (Shelf.outside_of_none hid)
    rw [hshelf, htable]
    exact .refused
  obtain ⟨-, m, hm, hnm⟩ := h.fetch_some hn
  have htable := Table.Holds.deleteNode_eq space hm
  obtain ⟨-, hmspace, -⟩ := hnm.place
  by_cases hspace : n.space = space
  · obtain ⟨l, hl, hnl⟩ := h.mirrors.of_some hn
    have hnid : n.id = id := h.shelf.outline.rooted.own_id hn
    subst hnid
    subst hspace
    obtain ⟨hs', hagrees, hremoved⟩ := Shelf.delete_eq ha h.shelf.outline.rooted hn
    obtain ⟨-, hlspace, -⟩ := hnl.place
    obtain ⟨g, hh', hremoved'⟩ := hh.removed_delete h.table.outline.rooted hl
    obtain ⟨ids, hnodup, hmem, hcount⟩ := hh.countBelow_eq h.table.outline.rooted hl
    rw [hlspace] at hh' hcount
    rw [if_neg (not_not.2 hmspace)] at htable
    rw [hs', htable]
    refine .answered ?_ (h.of_holds ⟨hagrees, hremoved.isOutline h.shelf.outline⟩ rfl hh'
      (hremoved'.isOutline h.table.outline) (h.mirrors.removed hremoved hremoved'))
    -- the branch in the index and the rows counted are the same nodes, each once
    have hperm : ((s.space n.space).branch n.id).Perm ids := by
      refine (List.perm_ext_iff_of_nodup
        (Shelf.nodup_branch ha h.shelf.outline.rooted hn) hnodup).2 fun a => ?_
      rw [hmem, ← h.mirrors.sameShape.within_iff]
      exact Shelf.mem_branch_iff a ha h.shelf.outline.rooted hn
    exact hperm.length_eq.trans hcount.symm
  · have hshelf : s.delete space id = .error (.notFound id) :=
      Shelf.delete_refused ha (Shelf.outside_of_space hn hspace)
    rw [if_pos (by rwa [hmspace])] at htable
    rw [hshelf, htable]
    exact .refused

/-! ## Groups -/

/-- The rows of a group can be read, and are its nodes in the same order. -/
theorem children (group : Group) :
    ∃ ms, db.rows.fetchChildren group = .ok ms ∧
      Node.ListedAlike ((s.space group.space).children group.parent) ms := by
  have ha := h.shelf.agrees
  have hh := h.table.holds
  have hread : ∀ r ∈ db.rows.select group, ∃ m, StoreError.ofFault r.toNode = .ok m := by
    intro r hr
    obtain ⟨l, hl, -, rfl⟩ := hh.mem_select_iff.1 hr
    obtain ⟨q, hq, hql⟩ := h.mirrors.of_line hl
    obtain ⟨n, -, -, rfl⟩ := Shelf.exists_node ha hq
    obtain ⟨m, hm, -⟩ := Node.exists_toNode hql
    exact ⟨m, by rw [StoreError.ofFault, hm, mapError_ok]⟩
  obtain ⟨ms, hms⟩ := exists_mapM_eq_ok hread
  refine ⟨ms, hms, ?_⟩
  have hkeys : ms.map Node.sibling =
      ((s.space group.space).children group.parent).map Node.sibling := by
    rw [hh.map_sibling_of_fetchChildren hms, Space.map_sibling_children (ha.space _),
      h.members_eq]
  refine map_eq_map_of_key hkeys fun m hm n hn hid => ?_
  have hid' : m.id = n.id := congrArg Sibling.id hid
  -- a row of the list is the row of its identifier
  obtain ⟨r, hr, hrm⟩ := exists_of_mem_mapM hms hm
  obtain ⟨l, hl, -, rfl⟩ := hh.mem_select_iff.1 hr
  rw [StoreError.ofFault, mapError_eq_ok_iff] at hrm
  have hnode := Shelf.forest_of_node ha ((Space.mem_children (ha.space _)).1 hn).1
  obtain ⟨-, m', hm', hnm⟩ := h.fetch_some hnode
  rw [← hid', (Row.toNode_row_eq_ok_iff.1 hrm).1, hh.fetch_some hl, StoreError.ofFault,
    hrm, mapError_ok] at hm'
  obtain rfl := Except.ok.inj hm'
  exact hnm

/-- A group is listed by both or by neither. -/
theorem list (group : Group) :
    (∃ p, s.list group = .error (.notFound p) ∧ db.rows.list group = .error (.notFound p)) ∨
      ∃ ns ms, s.list group = .ok ns ∧ db.rows.list group = .ok ms ∧
        Node.ListedAlike ns ms := by
  obtain ⟨ms, hms, halike⟩ := h.children group
  rcases h.parent_cases group.parent group.space with
    ⟨a, b, hget, hfetch, -, hspace⟩ | ⟨p, -, hget, hmissing⟩
  · refine .inr ⟨_, ms, Shelf.list_eq hget, ?_, halike⟩
    unfold Table.list
    rw [hfetch, bind_ok]
    cases b with
    | none => exact hms
    | some m =>
      dsimp only
      rw [if_neg (not_not.2 (hspace m rfl))]
      exact hms
  · refine .inl ⟨p, ?_, ?_⟩
    · unfold Shelf.list
      dsimp only
      rw [hget, bind_error]
    · unfold Table.list
      rcases hmissing with hfetch | ⟨n, m, hn, hne, hfetch, hnm⟩
      · rw [hfetch, bind_error]
      -- the table finds the parent, but in another space
      · obtain ⟨hmid, hmspace, -⟩ := hnm.place
        have hid : m.id = p := hmid.trans (h.shelf.outline.rooted.own_id hn)
        rw [hfetch, bind_ok]
        dsimp only
        rw [if_pos (hmspace ▸ hne), hid]
        rfl

/-- The key of the next member. No parent is looked for. -/
theorem nextSort (group : Group) : db.rows.nextSort db.gap group = s.nextSort group := by
  have hrows : (db.rows.select group).map (·.sort) =
      ((s.space group.space).siblings group.parent).map (·.sort) := by
    rw [← h.members_eq, h.table.holds.map_sort_members]
  have hlength := congrArg List.length hrows
  rw [List.length_map, List.length_map] at hlength
  have hlast := congrArg List.getLast? hrows
  rw [List.getLast?_map, List.getLast?_map] at hlast
  unfold Table.nextSort Shelf.nextSort
  dsimp only
  rw [hlast, hlength]
  exact h.gap ▸ rfl

/-- A group under a parent that, if it is stored, is in its space. -/
theorem renumber (hroom : db.rows.Roomy) {now now' : Timestamp} (hyear : now'.HasPlainYear)
    {group : Group}
    (hspace : ∀ p q, group.parent = some p → s.forest p = some q → q.space = group.space) :
    Matched Twins Node.ListedAlike (s.renumber group now)
      (db.writing (db.rows.renumber db.gap group now')) := by
  have ha := h.shelf.agrees
  have hh := h.table.holds
  rcases h.parent_cases group.parent group.space with
    ⟨a, b, hget, hfetch, -⟩ | ⟨p, hp, hget, hfetch | ⟨n, m, hn, hne, -⟩⟩
  -- the keys of the allocator are the same, and the group is listed alike afterwards
  · have htable := hh.renumber_eq h.table.outline.keys hroom hfetch db.gap now'
    rw [h.members_eq, ← h.gap] at htable
    cases hcompact : s.gap.compact ((s.space group.space).siblings group.parent) with
    | error e =>
      rw [hcompact] at htable
      rw [Shelf.renumber_exhausted hget hcompact, ← h.gap, htable]
      exact .refused
    | ok members =>
      rw [hcompact] at htable
      obtain ⟨t', ht', hh', hrekeyed'⟩ := htable
      obtain ⟨s', hs', hagrees, hgap, hrekeyed⟩ := Shelf.renumber_eq now ha hget hcompact
      have htwins : Twins s' { db with rows := t' } :=
        h.of_holds ⟨hagrees, hrekeyed.isOutline h.shelf.outline⟩ hgap hh'
          (hrekeyed'.isOutline h.table.outline)
          (h.mirrors.rekeyed hrekeyed hrekeyed' (isTimeText_toOffsetText hyear))
      obtain ⟨ms, hms, halike⟩ := htwins.children group
      have hms' : t'.fetchChildren group = .ok ms := hms
      rw [hs', ← h.gap, ht', hms']
      exact .answered halike htwins
  · have hshelf : s.renumber group now = .error (.notFound p) := by
      unfold Shelf.renumber
      dsimp only
      rw [hget, bind_error]
    have htable : db.rows.renumber db.gap group now' = .error (.notFound p) := by
      rw [Table.renumber, hfetch, bind_error]
    rw [hshelf, htable]
    exact .refused
  · exact absurd (hspace p _ hp hn) hne

end Twins

end Outline
