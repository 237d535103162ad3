import Mathlib.Data.List.Sort
import Mathlib.Data.List.Perm.Subperm
import Outline.Proofs.Forest.Branch
import Outline.Proofs.Keyed
import Outline.Store.Database

/-!
# The forest in a table

The columns that decide where a node stands always hold written forms of their values, whatever
stands in the others. So a table is looked at as a forest whose payload is what the other columns
hold as text: a row may be unreadable as a node and still has its place.

Main results:

* `Table.Holds.find_eq` — a row is found under its identifier;
* `Table.Holds.isListing_members` — the rows of a group are selected in key order;
* `Table.Holds.checkClimb_eq_ok_iff` — the check of a move finds exactly the moves below itself.
-/

namespace Outline

open Sibling (Ascending)

/-! ## Rows and what they say -/

/-- What a row holds beside its place, as it is written. -/
structure Row.Payload where
  title : String
  properties : String
  archived : Int
  created : String

/-- The record in a row, its payload and its time left as text. -/
abbrev Line : Type := Record Row.Payload String

namespace Record

/-- The row that a record is written to. -/
def row (l : Line) : Row where
  id := l.id.toText
  space := l.space.toText
  kind := l.kind.name
  parent := l.parent.map Uuid.toText
  title := l.payload.title
  properties := l.payload.properties
  sort := l.sort
  archived := l.payload.archived
  created := l.payload.created
  updated := l.updated

@[simp] theorem row_id (l : Line) : l.row.id = l.id.toText := rfl
@[simp] theorem row_space (l : Line) : l.row.space = l.space.toText := rfl
@[simp] theorem row_parent (l : Line) : l.row.parent = l.parent.map Uuid.toText := rfl
@[simp] theorem row_sort (l : Line) : l.row.sort = l.sort := rfl

end Record

theorem Uuid.map_toText_inj {a b : Option Uuid} :
    a.map Uuid.toText = b.map Uuid.toText ↔ a = b :=
  (Option.map_injective fun _ _ => Uuid.toText_inj.1).eq_iff

theorem Uuid.toText_ne_empty (id : Uuid) : id.toText ≠ "" := by
  intro h
  have := congrArg (fun s : String => s.toList.length) h
  simp [Uuid.toText] at this

namespace Row

/-- The record in a row whose place can be read. -/
def record? (r : Row) : Option Line := do
  return {
    id := ← Uuid.ofText? r.id
    space := ← Uuid.ofText? r.space
    kind := ← Kind.ofName? r.kind
    parent := ← match r.parent with
      | none => some none
      | some text => (Uuid.ofText? text).map some
    sort := r.sort
    payload := ⟨r.title, r.properties, r.archived, r.created⟩
    updated := r.updated }

@[simp] theorem record?_row (l : Line) : l.row.record? = some l := by
  cases hp : l.parent <;> simp [record?, Record.row, Kind.ofName?_name, hp] <;> rw [← hp]

theorem row_inj {a b : Line} : a.row = b.row ↔ a = b := by
  refine ⟨fun h => ?_, congrArg _⟩
  have := congrArg record? h
  simpa using this

/-- Rows clash exactly when their records have one group and one key. -/
theorem slot_row_eq_iff {a b : Line} :
    a.row.slot = b.row.slot ↔ a.group = b.group ∧ a.sort = b.sort := by
  have hparent : (a.parent.map Uuid.toText).getD "" = (b.parent.map Uuid.toText).getD "" ↔
      a.parent = b.parent := by
    cases a.parent <;> cases b.parent <;>
      simp [Uuid.toText_inj, Uuid.toText_ne_empty, Ne.symm (Uuid.toText_ne_empty _)]
  simp only [slot, Record.row, Slot.mk.injEq, Uuid.toText_inj, hparent, Record.group,
    Group.mk.injEq, and_assoc]

/-- The place of a row can always be read; the other columns decide whether it is a node. -/
theorem toNode_row (l : Line) :
    l.row.toNode = do
      let properties ← l.row.readProperties
      let created ← column Timestamp.ofText? "created_at" l.payload.created
      let updated ← column Timestamp.ofText? "updated_at" l.updated
      return ⟨l.id, l.space, l.kind, l.parent, l.payload.title, properties, l.sort,
        decide (l.payload.archived ≠ 0), created, updated⟩ := by
  have hid : l.row.readId = .ok l.id := by simp [readId, column]
  have hspace : column Uuid.ofText? "space_id" l.row.space = .ok l.space := by simp [column]
  have hkind : (Kind.parse l.row.kind).mapError RecordFault.defect = .ok l.kind := by
    simp [Record.row, Kind.parse_name]
  have hparent : l.row.readParent = .ok l.parent := by
    cases hp : l.parent <;> simp [readParent, column, hp, Except.map]
  unfold toNode
  rw [hid, hspace, hkind, hparent]
  rfl

theorem toNode_row_eq_ok_iff {l : Line} {n : Node} :
    l.row.toNode = .ok n ↔ n.id = l.id ∧ n.space = l.space ∧ n.kind = l.kind ∧
      n.parent = l.parent ∧ n.title = l.payload.title ∧
      Json.ofText? l.payload.properties = some n.properties ∧ n.sort = l.sort ∧
      n.archived = decide (l.payload.archived ≠ 0) ∧
      Timestamp.ofText? l.payload.created = some n.created ∧
      Timestamp.ofText? l.updated = some n.updated := by
  rw [toNode_row]
  unfold readProperties column
  rw [show l.row.properties = l.payload.properties from rfl]
  cases Json.ofText? l.payload.properties with
  | none => simp
  | some properties =>
    cases Timestamp.ofText? l.payload.created with
    | none => simp
    | some created =>
      cases Timestamp.ofText? l.updated with
      | none => simp
      | some updated =>
        cases n
        simp only [bind_ok, pure_eq_ok_iff, Node.mk.injEq, Option.some.injEq]
        grind

/-- A row can be read when its properties and its two times can. -/
theorem exists_toNode_iff {l : Line} :
    (∃ n, l.row.toNode = .ok n) ↔
      (∃ v, Json.ofText? l.payload.properties = some v) ∧
        (∃ created, Timestamp.ofText? l.payload.created = some created) ∧
        ∃ updated, Timestamp.ofText? l.updated = some updated := by
  constructor
  · rintro ⟨n, hn⟩
    obtain ⟨-, -, -, -, -, hproperties, -, -, hcreated, hupdated⟩ := toNode_row_eq_ok_iff.1 hn
    exact ⟨⟨_, hproperties⟩, ⟨_, hcreated⟩, ⟨_, hupdated⟩⟩
  · rintro ⟨⟨properties, hproperties⟩, ⟨created, hcreated⟩, updated, hupdated⟩
    exact ⟨⟨l.id, l.space, l.kind, l.parent, l.payload.title, properties, l.sort,
      decide (l.payload.archived ≠ 0), created, updated⟩, toNode_row_eq_ok_iff.2
      ⟨rfl, rfl, rfl, rfl, rfl, hproperties, rfl, rfl, hcreated, hupdated⟩⟩

end Row

/-! ## Tables and their forests -/

namespace Table

/-- The record of the row with an identifier. -/
def forest (t : Table) : Forest Row.Payload String := fun id =>
  (t.find id.toText).bind Row.record?

/-- The rows of a table are those of the records of a forest. -/
structure Holds (t : Table) (f : Forest Row.Payload String) : Prop where
  row   : ∀ {r}, r ∈ t → ∃ l, f l.id = some l ∧ l.row = r
  line  : ∀ {id l}, f id = some l → l.id = id ∧ l.row ∈ t
  nodup : (t.map (·.id)).Nodup

/-- Every row can be read as a node. -/
def Readable (t : Table) : Prop :=
  ∀ r ∈ t, ∃ n, r.toNode = .ok n

theorem holds_nil : Holds [] fun _ => none :=
  ⟨by simp, by simp, by simp⟩

/-- The members of a group with their keys, as far as their identifiers can be read. -/
def members (t : Table) (group : Group) : List Sibling :=
  (t.select group).filterMap fun r => (Uuid.ofText? r.id).map (⟨·, r.sort⟩)

namespace Holds

variable {t : Table} {f : Forest Row.Payload String} (h : t.Holds f)
include h

theorem find_eq (id : Uuid) : t.find id.toText = (f id).map Record.row := by
  cases hl : f id with
  | none =>
    rw [Option.map_none]
    refine List.find?_eq_none.2 fun r hr hid => ?_
    obtain ⟨l, hl', rfl⟩ := h.row hr
    have htext : l.row.id = id.toText := of_decide_eq_true hid
    rw [Uuid.toText_inj.1 htext, hl] at hl'
    cases hl'
  | some l =>
    obtain ⟨rfl, hmem⟩ := h.line hl
    have hfind : t.find? (fun r => decide (r.id = l.row.id)) = some l.row :=
      find?_of_nodup h.nodup hmem
    exact hfind

/-- The forest that a table holds is the one that it shows. -/
theorem forest_eq : t.forest = f := by
  funext id
  rw [forest, h.find_eq]
  cases f id <;> simp

theorem mem_iff {l : Line} : l.row ∈ t ↔ f l.id = some l := by
  refine ⟨fun hl => ?_, fun hl => (h.line hl).2⟩
  obtain ⟨q, hq, hrow⟩ := h.row hl
  rwa [Row.row_inj.1 hrow] at hq

theorem find_none {id : Uuid} (hid : f id = none) : t.find id.toText = none := by
  rw [h.find_eq, hid, Option.map_none]

theorem find_some {id : Uuid} {l : Line} (hl : f id = some l) : t.find id.toText = some l.row := by
  rw [h.find_eq, hl, Option.map_some]

/-! ## Single nodes -/

theorem fetch_none {id : Uuid} (hid : f id = none) : t.fetch id = .error (.notFound id) := by
  rw [fetch, h.find_none hid]

theorem fetch_some {id : Uuid} {l : Line} (hl : f id = some l) :
    t.fetch id = StoreError.ofFault l.row.toNode := by
  rw [fetch, h.find_some hl]

/-- A node that is fetched is that of a record. -/
theorem of_fetch {id : Uuid} {n : Node} (hn : t.fetch id = .ok n) :
    ∃ l, f id = some l ∧ l.row.toNode = .ok n := by
  cases hl : f id with
  | none =>
    rw [h.fetch_none hl] at hn
    cases hn
  | some l =>
    rw [h.fetch_some hl, StoreError.ofFault, mapError_eq_ok_iff] at hn
    exact ⟨l, rfl, hn⟩

/-! ## Groups -/

/-- A row is selected when its record is in the group. -/
theorem mem_select_iff {group : Group} {r : Row} :
    r ∈ t.select group ↔ ∃ l, f l.id = some l ∧ l.group = group ∧ l.row = r := by
  unfold select
  rw [List.mem_mergeSort, List.mem_filter]
  have hgroup : ∀ l : Line, (l.row.space = group.space.toText ∧
      l.row.parent = group.parent.map Uuid.toText) ↔ l.group = group := by
    intro l
    rw [Record.row_space, Record.row_parent, Uuid.toText_inj, Uuid.map_toText_inj]
    cases group
    simp [Record.group]
  constructor
  · rintro ⟨hr, hwhere⟩
    obtain ⟨l, hl, rfl⟩ := h.row hr
    exact ⟨l, hl, (hgroup l).1 (of_decide_eq_true hwhere), rfl⟩
  · rintro ⟨l, hl, hin, rfl⟩
    exact ⟨h.mem_iff.2 hl, decide_eq_true ((hgroup l).2 hin)⟩

/-- Selected rows have ascending keys, since those of a group are distinct. -/
theorem ascending_select (hk : KeysDistinct f) (group : Group) :
    (t.select group).Pairwise (·.sort.val < ·.sort.val) := by
  have hle : (t.select group).Pairwise fun a b => a.sort.val ≤ b.sort.val := by
    have hsorted : (t.select group).Pairwise fun a b =>
        decide (a.sort.val ≤ b.sort.val) = true :=
      List.pairwise_mergeSort (by simp only [decide_eq_true_eq]; omega)
        (by simp only [Bool.or_eq_true, decide_eq_true_eq]; omega) _
    simpa using hsorted
  have hids : (t.select group).Pairwise fun a b => a.id ≠ b.id := by
    have hnodup := (List.pairwise_map.1 h.nodup).filter
      (fun r => r.space = group.space.toText ∧ r.parent = group.parent.map Uuid.toText)
    exact (List.mergeSort_perm _ _).symm.pairwise hnodup fun hab => Ne.symm hab
  refine List.Pairwise.imp_of_mem (fun {a b} ha hb hab => ?_) (hle.and hids)
  obtain ⟨l, hl, hlg, rfl⟩ := h.mem_select_iff.1 ha
  obtain ⟨q, hq, hqg, rfl⟩ := h.mem_select_iff.1 hb
  obtain ⟨hle, hne⟩ := hab
  rcases Int.lt_or_eq_of_le hle with hlt | heq
  · exact hlt
  -- two records of the group with one key would be one
  · have hid := hk hl hq (hlg.trans hqg.symm) (SortKey.ext_val heq)
    exact absurd (congrArg Uuid.toText hid) hne

theorem isListing_members (hk : KeysDistinct f) (group : Group) :
    IsListing f group (t.members group) := by
  unfold members
  refine ⟨List.Pairwise.filterMap _ (fun {a b} hab m hm m' hm' => ?_) (h.ascending_select hk group),
    fun {m} => ?_⟩
  -- the keys are those of the rows
  · obtain ⟨i, -, rfl⟩ := Option.map_eq_some_iff.1 hm
    obtain ⟨j, -, rfl⟩ := Option.map_eq_some_iff.1 hm'
    exact hab
  -- the identifiers of the rows can be read
  · rw [List.mem_filterMap]
    constructor
    · rintro ⟨r, hr, hm⟩
      obtain ⟨l, hl, hin, rfl⟩ := h.mem_select_iff.1 hr
      rw [Record.row_id, Uuid.ofText?_toText, Option.map_some, Option.some.injEq] at hm
      subst hm
      exact ⟨l, hl, hin, rfl⟩
    · rintro ⟨l, hl, hin, hsort⟩
      obtain ⟨hid, -⟩ := h.line hl
      refine ⟨l.row, h.mem_select_iff.2 ⟨l, hid ▸ hl, hin, rfl⟩, ?_⟩
      rw [Record.row_id, Uuid.ofText?_toText, Option.map_some, Record.row_sort, hid, hsort]

/-- No row of a group is left out, so their keys are those of the members. -/
theorem map_sort_members (group : Group) :
    (t.members group).map (·.sort) = (t.select group).map (·.sort) := by
  rw [members, List.map_filterMap]
  refine List.filterMap_eq_map_iff_forall_eq_some.2 fun r hr => ?_
  obtain ⟨l, -, -, rfl⟩ := h.mem_select_iff.1 hr
  rw [Record.row_id, Uuid.ofText?_toText]
  rfl

/-- The identifiers of a group can always be read. -/
theorem siblings_eq (group : Group) : t.siblings group = .ok (t.members group) := by
  have hread : ∀ rows : List Row, rows ⊆ t.select group →
      (rows.mapM fun r => (StoreError.ofFault r.readId).map (⟨·, r.sort⟩ : Uuid → Sibling)) =
        .ok (rows.filterMap fun r => (Uuid.ofText? r.id).map (⟨·, r.sort⟩)) := by
    intro rows hrows
    induction rows with
    | nil => rfl
    | cons r rest ih =>
      obtain ⟨hr, hrest⟩ := List.cons_subset.1 hrows
      obtain ⟨l, -, -, rfl⟩ := h.mem_select_iff.1 hr
      have hid : l.row.readId = .ok l.id := by simp [Row.readId, Row.column]
      rw [List.mapM_cons, ih hrest, hid]
      simp [StoreError.ofFault, Except.map, pure, Except.pure]
  exact hread _ (List.Subset.refl _)

/-- The nodes of a group, when its rows can be read, are its members one by one. -/
theorem map_sibling_of_fetchChildren {group : Group} {ns : List Node}
    (hns : t.fetchChildren group = .ok ns) : ns.map Node.sibling = t.members group := by
  -- the induction is on the rows, of which each is that of a stored node
  have hread : ∀ (rows : List Row) (ns : List Node), rows ⊆ t.select group →
      rows.mapM (fun r => StoreError.ofFault r.toNode) = .ok ns →
        ns.map Node.sibling =
          rows.filterMap fun r => (Uuid.ofText? r.id).map (⟨·, r.sort⟩) := by
    intro rows
    induction rows with
    | nil =>
      intro ns _ hns
      cases hns
      rfl
    | cons r rest ih =>
      intro ns hrows hns
      obtain ⟨hr, hrest⟩ := List.cons_subset.1 hrows
      rw [List.mapM_cons] at hns
      obtain ⟨n, hn, hns⟩ := bind_eq_ok_iff.1 hns
      obtain ⟨ns', hns', hns⟩ := bind_eq_ok_iff.1 hns
      cases hns
      obtain ⟨l, -, -, rfl⟩ := h.mem_select_iff.1 hr
      rw [StoreError.ofFault, mapError_eq_ok_iff] at hn
      obtain ⟨hid, -, -, -, -, -, hsort, -⟩ := Row.toNode_row_eq_ok_iff.1 hn
      have htext : (Uuid.ofText? l.row.id).map (⟨·, l.row.sort⟩ : Uuid → Sibling) =
          some n.sibling := by
        rw [Record.row_id, Uuid.ofText?_toText, Option.map_some, Record.row_sort, Node.sibling,
          hid, hsort]
      rw [List.map_cons, ih ns' hrest hns']
      simp only [List.filterMap_cons, htext]
  exact hread _ ns (List.Subset.refl _) hns

omit h in
theorem fetchChildren_of_list {group : Group} {ns : List Node} (hns : t.list group = .ok ns) :
    t.fetchChildren group = .ok ns := by
  obtain ⟨parent, -, hns⟩ := bind_eq_ok_iff.1 hns
  cases parent with
  | none => exact hns
  | some parent =>
    dsimp only at hns
    split at hns
    · cases hns
    · exact hns

/-- What a listing answers is the listing of the group. -/
theorem isListing_of_list (hk : KeysDistinct f) {group : Group} {ns : List Node}
    (hns : t.list group = .ok ns) : IsListing f group (ns.map Node.sibling) := by
  rw [h.map_sibling_of_fetchChildren (fetchChildren_of_list hns)]
  exact h.isListing_members hk group

/-- The nodes of a group can be read when all rows can. -/
theorem exists_fetchChildren (hr : Readable t) (group : Group) :
    ∃ ns, t.fetchChildren group = .ok ns := by
  refine exists_mapM_eq_ok fun r hr' => ?_
  obtain ⟨l, hl, -, rfl⟩ := h.mem_select_iff.1 hr'
  obtain ⟨n, hn⟩ := hr _ (h.mem_iff.2 hl)
  exact ⟨n, by rw [StoreError.ofFault, hn, mapError_ok]⟩

/-- So can any stored node. -/
theorem exists_fetch (hr : Readable t) {id : Uuid} {l : Line} (hl : f id = some l) :
    ∃ n, t.fetch id = .ok n ∧ l.row.toNode = .ok n := by
  obtain ⟨n, hn⟩ := hr _ (h.line hl).2
  exact ⟨n, by rw [h.fetch_some hl, StoreError.ofFault, hn, mapError_ok], hn⟩

/-- A group is listed when its parent is in its space and the rows can be read. -/
theorem list_of_readable (hr : Readable t) {group : Group}
    (hparent : ∀ p, group.parent = some p → ∃ l, f p = some l ∧ l.space = group.space) :
    ∃ ns, t.list group = .ok ns := by
  obtain ⟨ns, hns⟩ := h.exists_fetchChildren hr group
  refine ⟨ns, ?_⟩
  unfold list
  cases hp : group.parent with
  | none => exact hns
  | some p =>
    obtain ⟨l, hl, hspace⟩ := hparent p hp
    obtain ⟨n, hget, hn⟩ := h.exists_fetch hr hl
    have hns' : n.space = group.space := (Row.toNode_row_eq_ok_iff.1 hn).2.1.trans hspace
    have hfetch : t.fetchParent (some p) = .ok (some n) := by
      rw [fetchParent, hget]
      rfl
    rw [hfetch, bind_ok]
    dsimp only
    rw [if_neg (not_not.2 hns')]
    exact hns

/-! ## Ways up -/

/-- Different nodes of a space are no more than it has rows. -/
theorem length_le_of_space {ids : List Uuid} (space : Uuid) (hnodup : ids.Nodup)
    (hstored : ∀ id ∈ ids, ∃ l, f id = some l ∧ l.space = space) :
    ids.length ≤ t.countSpace space := by
  have hsub : ids.map Uuid.toText ⊆
      (t.filter fun r => decide (r.space = space.toText)).map (·.id) := by
    intro text htext
    obtain ⟨a, ha, rfl⟩ := List.mem_map.1 htext
    obtain ⟨q, hq, hspace⟩ := hstored a ha
    obtain ⟨rfl, hmem⟩ := h.line hq
    exact List.mem_map.2 ⟨q.row, List.mem_filter.2 ⟨hmem, by simp [hspace]⟩, rfl⟩
  have hnodup' : (ids.map Uuid.toText).Nodup := hnodup.map fun _ _ => Uuid.toText_inj.1
  have hlen := (List.Nodup.subperm hnodup' hsub).length_le
  rwa [List.length_map, List.length_map, ← List.countP_eq_length_filter] at hlen

/-- A way up has no more nodes than the space has rows. -/
theorem length_le_countSpace (ho : Rooted f) {id : Uuid} {path : List Uuid} {l : Line}
    (hl : f id = some l) (hpath : Ascent f id path) : path.length ≤ t.countSpace l.space :=
  h.length_le_of_space l.space hpath.nodup (ho.space_of_ascent hl hpath)

/-- Climbing over the rows follows the way up. -/
theorem chain_eq {id : Uuid} {path : List Uuid} (hpath : Ascent f id path) {depth : Nat}
    (hdepth : path.length ≤ depth + 1) :
    ∃ lines : List Line, t.chain id.toText depth = lines.map Record.row ∧
      lines.map (·.id) = path ∧ ∀ l ∈ lines, f l.id = some l := by
  -- a step of the recursion for each node on the way
  induction hpath generalizing depth with
  | @root id l hl hp =>
    obtain ⟨rfl, -⟩ := h.line hl
    refine ⟨[l], ?_, rfl, by simpa using hl⟩
    cases depth with
    | zero => rw [chain, h.find_some hl]; rfl
    | succ depth =>
      rw [chain, h.find_some hl]
      simp only [Record.row_parent, hp, Option.map_none, List.map_singleton]
  | @step id parent l path hl hp _ ih =>
    obtain ⟨rfl, -⟩ := h.line hl
    cases depth with
    | zero =>
      -- the way of the parent is not empty, so the depth would be too small
      cases path with
      | nil => rename_i htail; cases htail
      | cons => simp at hdepth
    | succ depth =>
      obtain ⟨lines, hchain, hids, hlines⟩ := ih (by simpa using hdepth)
      refine ⟨l :: lines, ?_, by simp [hids], ?_⟩
      · rw [chain, h.find_some hl]
        simp only [Record.row_parent, hp, Option.map_some, hchain, List.map_cons]
      · intro q hq
        rcases List.mem_cons.1 hq with rfl | hq
        · exact hl
        · exact hlines q hq

/-- The links that are read on a climb give each node on the way its parent. -/
theorem ancestors_eq {id : Uuid} {path : List Uuid} (hpath : Ascent f id path) {depth : Nat}
    (hdepth : path.length ≤ depth + 1) :
    ∃ links, t.ancestors id depth = .ok links ∧
      ∀ a ∈ path, ∀ l, f a = some l → parentIn links a = l.parent := by
  obtain ⟨lines, hchain, hids, hlines⟩ := h.chain_eq hpath hdepth
  refine ⟨lines.map fun l => (l.id, l.parent), ?_, fun a ha l hl => ?_⟩
  · rw [ancestors, hchain, List.mapM_map]
    refine mapM_eq_ok_of_forall fun l _ => ?_
    have hid : l.row.readId = .ok l.id := by simp [Row.readId, Row.column]
    have hparent : l.row.readParent = .ok l.parent := by
      cases hp : l.parent <;> simp [Row.readParent, Row.column, hp, Except.map]
    simp [readLink, hid, hparent, StoreError.ofFault, pure, Except.pure]
  -- no link is overwritten by a later one, since the way is free of repetition
  · rw [← hids] at ha
    obtain ⟨q, hq, rfl⟩ := List.mem_map.1 ha
    rw [hlines q hq] at hl
    obtain rfl := Option.some.inj hl
    have hnodup : ((lines.map fun l => (l.id, l.parent)).map Prod.fst).Nodup := by
      rw [List.map_map]
      exact hids ▸ hpath.nodup
    rw [parentIn, lookup_reverse_of_nodup hnodup (List.mem_map.2 ⟨q, hq, rfl⟩)]
    rfl

/-- A node may be put under a parent of its space that it is not above. -/
theorem checkClimb_eq_ok_iff (ho : Rooted f) {n : Node} {id parent : Uuid} {l : Line}
    (hl : f parent = some l) (hspace : l.space = n.space) :
    t.checkClimb n id (some parent) = .ok () ↔ ¬Within f id parent := by
  obtain ⟨path, hpath⟩ := ho.ascent hl
  have hlen := h.length_le_countSpace ho hl hpath
  rw [hspace] at hlen
  obtain ⟨links, hlinks, hparents⟩ := h.ancestors_eq hpath (Nat.le_succ_of_le hlen)
  unfold checkClimb
  dsimp only
  rw [hlinks, bind_ok, mapError_eq_ok_iff]
  exact checkAcyclic_eq_ok_iff hpath hparents hlen

end Holds

end Table

end Outline
