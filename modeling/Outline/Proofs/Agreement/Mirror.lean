import Outline.Proofs.Indexed.Runs
import Outline.Proofs.Json.Text
import Outline.Proofs.Table.Runs
import Outline.Proofs.Timestamp.Text
import Outline.Proofs.Undated

/-!
# Two forests that say the same

A table mirrors what is held in memory when each row reads as the node of the same identifier, the
times apart: those are taken from two clocks. A row has to be readable for that, so its properties
are a text that reads as those in memory, and its times are texts of times.

Each change of a forest can be made on both sides. New keys and removals are determined by what was
asked, so they leave mirrored forests mirrored.

Main results:

* `Mirrors.isListing` — a group has one listing on both sides;
* `Mirrors.rekeyed`, `Mirrors.placed`, `Mirrors.removed` — the changes keep the mirror.
-/

namespace Outline

/-! ## Records -/

/-- A text that reads as a time. -/
def IsTimeText (s : String) : Prop :=
  ∃ t, Timestamp.ofText? s = some t

theorem isTimeText_toOffsetText {t : Timestamp} (h : t.HasPlainYear) :
    IsTimeText t.toOffsetText :=
  ⟨t, Timestamp.ofText?_toOffsetText h⟩

/-- Properties that read back from their text. -/
def Json.IsText (v : Json) : Prop :=
  Json.ofText? v.text = some v

/-- The row of the node reads as the node. -/
structure Node.Writable (n : Node) : Prop where
  properties : n.properties.IsText
  created    : n.created.HasPlainYear
  updated    : n.updated.HasPlainYear

/-- A row says what a record in memory says, the times apart, and can be read. -/
structure Record.Mirrors (r : Record Node.Payload Timestamp) (l : Line) : Prop where
  shape      : l.shape = r.shape
  sort       : l.sort = r.sort
  title      : l.payload.title = r.payload.title
  properties : Json.ofText? l.payload.properties = some r.payload.properties
  archived   : decide (l.payload.archived ≠ 0) = r.payload.archived
  created    : IsTimeText l.payload.created
  updated    : IsTimeText l.updated

namespace Record.Mirrors

variable {r : Record Node.Payload Timestamp} {l : Line} (h : r.Mirrors l)
include h

theorem place : l.id = r.id ∧ l.space = r.space ∧ l.kind = r.kind ∧ l.parent = r.parent := by
  have hshape := h.shape
  simpa [Record.shape] using hshape

theorem group : l.group = r.group := by
  obtain ⟨-, hspace, -, hparent⟩ := h.place
  rw [Record.group, Record.group, hspace, hparent]

/-- The same new key on both sides, and perhaps another time of change on each. -/
theorem rekeyed (sort : SortKey) (now : Timestamp) {updated : String}
    (hupdated : IsTimeText updated) :
    Record.Mirrors { r with sort := sort, updated := now }
      { l with sort := sort, updated := updated } :=
  ⟨h.shape, rfl, h.title, h.properties, h.archived, h.created, hupdated⟩

/-- The same new parent on both sides. -/
theorem under (parent : Option Uuid) :
    Record.Mirrors { r with parent := parent } { l with parent := parent } := by
  obtain ⟨hid, hspace, hkind, -⟩ := h.place
  exact ⟨by simp [Record.shape, hid, hspace, hkind], h.sort, h.title, h.properties, h.archived,
    h.created, h.updated⟩

end Record.Mirrors

/-- The row of a mirrored node reads as the node, the times apart. -/
theorem Node.exists_toNode {n : Node} {l : Line} (h : n.record.Mirrors l) :
    ∃ m, l.row.toNode = .ok m ∧ m.undated = n.undated := by
  obtain ⟨hid, hspace, hkind, hparent⟩ := h.place
  have hproperties : Json.ofText? l.payload.properties = some n.properties := h.properties
  obtain ⟨m, hm⟩ := Row.exists_toNode_iff.2 ⟨⟨_, hproperties⟩, h.created, h.updated⟩
  refine ⟨m, hm, Node.undated_eq_iff.2 ?_⟩
  obtain ⟨h1, h2, h3, h4, h5, h6, h7, h8, -⟩ := Row.toNode_row_eq_ok_iff.1 hm
  rw [hproperties] at h6
  exact ⟨h1.trans hid, h2.trans hspace, h3.trans hkind, h4.trans hparent, h5.trans h.title,
    (Option.some.inj h6).symm, h7.trans h.sort, h8.trans h.archived⟩

/-- A row that reads as a node mirrors it. -/
theorem Node.mirrors_of_toNode {n m : Node} {l : Line} (hm : l.row.toNode = .ok m)
    (h : m.undated = n.undated) : n.record.Mirrors l := by
  obtain ⟨h1, h2, h3, h4, h5, h6, h7, h8, h9, h10⟩ := Row.toNode_row_eq_ok_iff.1 hm
  obtain ⟨hid, hspace, hkind, hparent, htitle, hprops, hsort, harchived⟩ := Node.undated_eq_iff.1 h
  rw [hprops] at h6
  refine ⟨?_, h7.symm.trans hsort, h5.symm.trans htitle, h6, h8.symm.trans harchived,
    ⟨_, h9⟩, ⟨_, h10⟩⟩
  simp [Record.shape, ← h1, ← h2, ← h3, ← h4, hid, hspace, hkind, hparent]

/-- What is written of a node mirrors it. -/
theorem Node.mirrors_line {n m : Node} (h : m.undated = n.undated)
    (hproperties : n.properties.IsText) (hcreated : m.created.HasPlainYear)
    (hupdated : m.updated.HasPlainYear) :
    n.record.Mirrors m.line := by
  obtain ⟨hid, hspace, hkind, hparent, htitle, hprops, hsort, harchived⟩ := Node.undated_eq_iff.1 h
  refine ⟨by simp [Record.shape, Node.line, hid, hspace, hkind, hparent], hsort, htitle, ?_, ?_,
    isTimeText_toOffsetText hcreated, isTimeText_toOffsetText hupdated⟩
  · rw [show m.line.payload.properties = m.properties.text from rfl, hprops]
    exact hproperties
  rw [← show m.archived = n.record.payload.archived from harchived]
  cases ha : m.archived <;> simp [Node.line, ha]

/-- The same patch on both sides. -/
theorem Node.mirrors_patched {n m : Node} {l : Line} (h : n.record.Mirrors l)
    (hnm : m.undated = n.undated) {patch : Patch}
    (hproperties : ∀ v, patch.properties = some v → v.IsText) (now : Timestamp) {now' : Timestamp}
    (hyear : now'.HasPlainYear) :
    (n.patch patch now).record.Mirrors (patchedLine (m.patch patch now') l) := by
  obtain ⟨-, -, -, -, htitle, hprops, -, harchived⟩ := Node.undated_eq_iff.1 hnm
  refine ⟨h.shape, h.sort, congrArg patch.title.getD htitle, ?_, ?_, h.created,
    isTimeText_toOffsetText hyear⟩
  · show Json.ofText? (patch.properties.getD m.properties).text =
      some (patch.properties.getD n.properties)
    rw [hprops]
    -- properties that are left alone have been read, so they can be written and read again
    cases hp : patch.properties with
    | none => exact (Json.fits_of_ofText? h.properties).ofText?_text
    | some v => exact hproperties v hp
  · have hflag : (m.patch patch now').archived = (n.patch patch now).archived :=
      congrArg patch.archived.getD harchived
    rw [show (n.patch patch now).record.payload.archived = (m.patch patch now').archived from
      hflag.symm, patchedLine]
    cases (m.patch patch now').archived <;> rfl

/-! ## Forests -/

/-- Each row mirrors the node of its identifier, and there are no others. -/
def Mirrors (f : Forest Node.Payload Timestamp) (g : Forest Row.Payload String) : Prop :=
  ∀ id, Option.Rel Record.Mirrors (f id) (g id)

theorem mirrors_of_empty {f : Forest Node.Payload Timestamp} {g : Forest Row.Payload String}
    (hf : ∀ id, f id = none) (hg : ∀ id, g id = none) : Mirrors f g := by
  intro id
  rw [hf, hg]
  exact .none

namespace Mirrors

variable {f f' : Forest Node.Payload Timestamp} {g g' : Forest Row.Payload String}
  {r : Record Node.Payload Timestamp} {l : Line}

section Read

variable (h : Mirrors f g)
include h

theorem of_some {id : Uuid} (hr : f id = some r) : ∃ l, g id = some l ∧ r.Mirrors l := by
  have hid := h id
  rw [hr] at hid
  cases hl : g id with
  | none =>
    rw [hl] at hid
    cases hid
  | some l =>
    rw [hl] at hid
    cases hid with
    | some hrl => exact ⟨l, rfl, hrl⟩

theorem of_line {id : Uuid} (hl : g id = some l) : ∃ r, f id = some r ∧ r.Mirrors l := by
  have hid := h id
  rw [hl] at hid
  cases hr : f id with
  | none =>
    rw [hr] at hid
    cases hid
  | some r =>
    rw [hr] at hid
    cases hid with
    | some hrl => exact ⟨r, rfl, hrl⟩

theorem none_iff {id : Uuid} : f id = none ↔ g id = none := by
  constructor
  · intro hid
    refine Option.eq_none_iff_forall_ne_some.2 fun l hl => ?_
    obtain ⟨r, hr, -⟩ := h.of_line hl
    rw [hid] at hr
    cases hr
  · intro hid
    refine Option.eq_none_iff_forall_ne_some.2 fun r hr => ?_
    obtain ⟨l, hl, -⟩ := h.of_some hr
    rw [hid] at hl
    cases hl

theorem sameShape : SameShape f g := by
  intro id
  cases hr : f id with
  | none => rw [h.none_iff.1 hr, Option.map_none, Option.map_none]
  | some r =>
    obtain ⟨l, hl, hrl⟩ := h.of_some hr
    rw [hl, Option.map_some, Option.map_some, hrl.shape]

/-- A group has one listing on both sides. -/
theorem isListing {group : Group} {members : List Sibling} (hm : IsListing f group members) :
    IsListing g group members := by
  refine ⟨hm.ascending, fun {m} => ?_⟩
  rw [hm.mem_iff]
  constructor
  · rintro ⟨r, hr, hgroup, hsort⟩
    obtain ⟨l, hl, hrl⟩ := h.of_some hr
    exact ⟨l, hl, hrl.group.trans hgroup, hrl.sort.trans hsort⟩
  · rintro ⟨l, hl, hgroup, hsort⟩
    obtain ⟨r, hr, hrl⟩ := h.of_line hl
    exact ⟨r, hr, hrl.group.symm.trans hgroup, hrl.sort.symm.trans hsort⟩

end Read

/-! ## Changes on both sides -/

theorem put (h : Mirrors f g) (hrl : r.Mirrors l) : Mirrors (f.put r) (g.put l) := by
  intro id
  obtain ⟨hid, -⟩ := hrl.place
  by_cases hne : id = r.id
  · rw [hne, Forest.put_self, ← hid, Forest.put_self]
    exact .some hrl
  · rw [Forest.put_of_ne _ hne, Forest.put_of_ne _ (hid ▸ hne)]
    exact h id

variable {group : Group} {members : List Sibling} {stamp : Timestamp} {text : String}

/-- The same new keys in a group. Which of its nodes got a new time may differ. -/
theorem rekeyed (h : Mirrors f g) (hf : Rekeyed f f' group members stamp)
    (hg : Rekeyed g g' group members text) (htext : IsTimeText text) : Mirrors f' g' := by
  intro id
  have hout : f id = none → f' id = none ∧ g' id = none := by
    intro hr
    have hl := h.none_iff.1 hr
    constructor
    · rw [hf.frame fun q hq => ?_, hr]
      rw [hr] at hq
      cases hq
    · rw [hg.frame fun q hq => ?_, hl]
      rw [hl] at hq
      cases hq
  cases hr : f id with
  | none =>
    obtain ⟨hr', hl'⟩ := hout hr
    rw [hr', hl']
    exact .none
  | some r =>
    obtain ⟨l, hl, hrl⟩ := h.of_some hr
    by_cases hin : r.group = group
    · obtain ⟨sort, updated, hm, -, hr'⟩ := hf.member hr hin
      obtain ⟨sort', updated', hm', hor, hl'⟩ := hg.member hl (hrl.group.trans hin)
      -- a member is listed once, so both sides give it one key
      have hsame : (⟨id, sort⟩ : Sibling) = ⟨id, sort'⟩ :=
        List.inj_on_of_nodup_map hf.nodup hm hm' rfl
      obtain rfl : sort = sort' := congrArg Sibling.sort hsame
      have hupdated : IsTimeText updated' := by
        rcases hor with rfl | rfl
        · exact hrl.updated
        · exact htext
      rw [hr', hl']
      exact .some (hrl.rekeyed sort updated hupdated)
    -- in other groups both sides have what they had
    · have hf' : f' id = f id := hf.frame fun q hq => by
        rw [hr] at hq
        exact Option.some.inj hq ▸ hin
      have hg' : g' id = g id := hg.frame fun q hq => by
        rw [hl] at hq
        rw [← Option.some.inj hq, hrl.group]
        exact hin
      rw [hf', hg']
      exact h id

/-- The same node at the same place. -/
theorem placed (h : Mirrors f g) (hrl : r.Mirrors l) (hf : Placed f f' r group members stamp)
    (hg : Placed g g' l group members text) (htext : IsTimeText text) : Mirrors f' g' :=
  (h.put (hrl.under group.parent)).rekeyed hf hg htext

theorem removed (h : Mirrors f g) {top : Uuid} (hf : Removed f f' top) (hg : Removed g g' top) :
    Mirrors f' g' := by
  intro id
  obtain ⟨hgone, hstays⟩ := hf id
  obtain ⟨hgone', hstays'⟩ := hg id
  -- ways up are the same on both sides
  by_cases hw : Within f top id
  · rw [hgone hw, hgone' (h.sameShape.within_iff.1 hw)]
    exact .none
  · rw [hstays hw, hstays' fun hw' => hw (h.sameShape.within_iff.2 hw')]
    exact h id

end Mirrors

end Outline
