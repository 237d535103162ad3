import Outline.Proofs.Excerpt.Basic
import Outline.Proofs.Json.Text
import Outline.Proofs.Table.Write
import Outline.Proofs.Timestamp.Text

/-!
# Excerpts of tables

What is shown of a row has the identifier, the place and the key of the row, so it is found by the
same queries and has the same slot. What is shown of a table are the rows of the spaces that are
seen. A query that looks for such rows finds what is shown of them, and a statement that changes
them changes what is shown of them.

A row that another refers to is in the same space, so the way up from a row that is shown and all
that is below it are shown as well.

Main results:

* `toNode_row` — the node in what is shown of a row;
* `find_table`, `select_table`, `Divides.chain_table` — queries;
* `write_table`, `insert_table`, `Divides.delete_table` — statements that change rows.
-/

namespace Outline

/-- The update with its time, if it has one, blanked out. -/
def KeyWrite.undated (w : KeyWrite) : KeyWrite :=
  { w with updated := w.updated.map fun _ => .epoch }

namespace Excerpt

variable (e : Excerpt)

/-! ## Rows -/

/-- What is shown of a row. -/
def row (r : Row) : Row :=
  { r with
    title := if e.payload then r.title else ""
    properties := if e.payload then r.properties else Json.emptyObject.text
    archived := if e.payload then r.archived else 0
    created := Timestamp.epoch.toOffsetText
    updated := Timestamp.epoch.toOffsetText }

/-- The row of what is shown of a node is what is shown of its row. -/
theorem row_ofNode (n : Node) : e.row (.ofNode n) = .ofNode (e.node n) := by
  unfold row node
  cases e.payload <;> rfl

/-- What the excerpt does not show of a row can be read. -/
def Reads (r : Row) : Prop :=
  (e.payload = true ∨ ∃ v, Json.ofText? r.properties = some v) ∧
    (∃ created, Timestamp.ofText? r.created = some created) ∧
    ∃ updated, Timestamp.ofText? r.updated = some updated

/-- A time that can be read is shown as the epoch. -/
theorem column_epoch (name : String) {text : String} (h : ∃ t, Timestamp.ofText? text = some t) :
    Row.column Timestamp.ofText? name Timestamp.epoch.toOffsetText =
      (Row.column Timestamp.ofText? name text).map fun _ => .epoch := by
  obtain ⟨t, ht⟩ := h
  rw [Row.column, Timestamp.ofText?_toOffsetText (by decide), Row.column, ht]
  rfl

/-- Properties that are hidden read as the empty object, if they could be read at all. -/
theorem readProperties_row {r : Row}
    (h : e.payload = true ∨ ∃ v, Json.ofText? r.properties = some v) :
    (e.row r).readProperties =
      r.readProperties.map fun v => if e.payload then v else .emptyObject := by
  unfold Row.readProperties row
  dsimp only
  cases he : e.payload with
  | true =>
    simp only [if_true]
    cases Json.ofText? r.properties <;> rfl
  -- what is shown always reads as an object, so what is stored has to read as something
  | false =>
    obtain ⟨v, hv⟩ := h.resolve_left (by rw [he]; exact Bool.false_ne_true)
    have hempty : Json.ofText? Json.emptyObject.text = some .emptyObject :=
      Json.ofText?_text (.obj .nil fun m hm => by cases hm)
    rw [if_neg Bool.false_ne_true, hempty, hv]
    rfl

/-- So the node in what is shown is what is shown of the node in the row. -/
theorem toNode_row {r : Row} (h : e.Reads r) : (e.row r).toNode = r.toNode.map e.node := by
  obtain ⟨hproperties, hcreated, hupdated⟩ := h
  unfold Row.toNode
  refine bind_eq_map_of_same fun id _ => bind_eq_map_of_same fun space _ => ?_
  refine bind_eq_map_of_same fun kind _ => bind_eq_map_of_same fun parent _ => ?_
  refine bind_eq_map (e.readProperties_row hproperties) fun v _ => ?_
  refine bind_eq_map (column_epoch _ hcreated) fun _ _ => ?_
  refine bind_eq_map (column_epoch _ hupdated) fun _ _ => congrArg Except.ok ?_
  unfold node row
  cases e.payload <;> rfl

/-! ## Queries -/

/-- The row is in a space that is seen. -/
def keeps (r : Row) : Bool :=
  (Uuid.ofText? r.space).any e.sees

/-- What is shown of a table. -/
def table (t : Table) : Table :=
  (t.filter e.keeps).map e.row

/-- A row is kept when the space that it spells is seen. -/
theorem keeps_of_space {r : Row} {sp : Uuid} (h : r.space = sp.toText) :
    e.keeps r = e.sees sp := by
  rw [keeps, h, Uuid.ofText?_toText]
  rfl

variable {e} {t : Table}

/-- The rows of the excerpt are what is shown of the rows that are kept. -/
theorem mem_table_iff {r : Row} : r ∈ e.table t ↔ ∃ q ∈ t, e.keeps q = true ∧ e.row q = r := by
  simp [table, and_assoc]

section Query

variable {p : Row → Bool} (hp : ∀ r, p (e.row r) = p r)
  (hkeeps : ∀ r ∈ t, p r = true → e.keeps r = true)
include hp hkeeps

/-- Rows of seen spaces are found where payload and times are not looked at. -/
theorem filter_table : (e.table t).filter p = (t.filter p).map e.row := by
  rw [table, List.filter_map, List.filter_filter]
  refine congrArg (List.map e.row) (List.filter_congr fun r hr => ?_)
  rw [Function.comp_apply, hp]
  cases hpr : p r with
  | true => exact hkeeps r hr hpr
  | false => rfl

/-- A search that only kept rows can end finds the same row. -/
theorem find?_table : (e.table t).find? p = (t.find? p).map e.row := by
  rw [← List.head?_filter, filter_table hp hkeeps, List.head?_map, List.head?_filter]

/-- A condition that only kept rows can meet is met by one of them. -/
theorem any_table : (e.table t).any p = t.any p := by
  rw [← List.isSome_find?, find?_table hp hkeeps, Option.isSome_map, List.isSome_find?]

/-- Kept rows are counted alike, and no others are. -/
theorem countP_table : (e.table t).countP p = t.countP p := by
  rw [List.countP_eq_length_filter, filter_table hp hkeeps, List.length_map,
    List.countP_eq_length_filter]

end Query

variable (e t) in
/-- Rows with the identifier are in spaces that are seen. -/
def CoversRow (x : String) : Prop :=
  ∀ r ∈ t, r.id = x → e.keeps r = true

/-- A row is found by its identifier when the excerpt covers it. -/
theorem find_table {x : String} (hx : e.CoversRow t x) :
    (e.table t).find x = (t.find x).map e.row :=
  find?_table (fun _ => rfl) fun r hr hid => hx r hr (of_decide_eq_true hid)

/-- A group of a space that is seen is selected in the same order. -/
theorem select_table {group : Group} (hsp : e.sees group.space = true) :
    (e.table t).select group = (t.select group).map e.row := by
  unfold Table.select
  rw [filter_table (fun _ => rfl) fun r _ hr => ?_]
  · refine (List.map_mergeSort ?_).symm
    exact fun _ _ _ _ => rfl
  · rw [e.keeps_of_space (of_decide_eq_true hr).1, hsp]

/-- A space that is seen has as many rows as before. -/
theorem countSpace_table {sp : Uuid} (hsp : e.sees sp = true) :
    (e.table t).countSpace sp = t.countSpace sp :=
  countP_table (fun _ => rfl) fun r _ hr => by
    rw [e.keeps_of_space (of_decide_eq_true hr), hsp]

/-- The members of a group with their keys, which are not hidden. -/
theorem siblings_table {group : Group} (hsp : e.sees group.space = true) :
    (e.table t).siblings group = t.siblings group := by
  rw [Table.siblings, select_table hsp, List.mapM_map]
  rfl

/-- What is fetched is what is shown of the node, and a missing or bad row is refused alike. -/
theorem fetch_table {id : Uuid} (hid : e.CoversRow t id.toText) (hreads : ∀ r ∈ t, e.Reads r) :
    (e.table t).fetch id = (t.fetch id).map e.node := by
  unfold Table.fetch
  rw [find_table hid]
  cases hr : t.find id.toText with
  | none => rfl
  | some r =>
    dsimp only [Option.map_some]
    rw [e.toNode_row (hreads r (List.mem_of_find?_eq_some hr))]
    cases r.toNode <;> rfl

/-- The parent of a request, if it has one. -/
theorem fetchParent_table {parent : Option Uuid}
    (hparent : ∀ p, parent = some p → e.CoversRow t p.toText) (hreads : ∀ r ∈ t, e.Reads r) :
    (e.table t).fetchParent parent = (t.fetchParent parent).map (Option.map e.node) := by
  cases parent with
  | none => rfl
  | some p =>
    rw [Table.fetchParent, fetch_table (hparent p rfl) hreads, Table.fetchParent]
    cases t.fetch p <;> rfl

/-- The nodes of a group one by one, each as it is shown. -/
theorem fetchChildren_table {group : Group} (hsp : e.sees group.space = true)
    (hreads : ∀ r ∈ t, e.Reads r) :
    (e.table t).fetchChildren group = (t.fetchChildren group).map (List.map e.node) := by
  unfold Table.fetchChildren
  rw [select_table hsp]
  refine mapM_eq_map fun r hr => ?_
  have hmem : r ∈ t := List.mem_of_mem_filter ((List.mergeSort_perm _ _).mem_iff.1 hr)
  rw [e.toNode_row (hreads r hmem)]
  cases r.toNode <;> rfl

/-! ## Ways up and down -/

variable (e t) in
/-- Rows that belong together are in spaces of one kind: those with one identifier, and a row and
its parent. -/
structure Divides : Prop where
  same  : ∀ r ∈ t, ∀ q ∈ t, q.id = r.id → e.keeps q = e.keeps r
  below : ∀ r ∈ t, ∀ q ∈ t, q.parent = some r.id → e.keeps q = e.keeps r

namespace Divides

variable (h : e.Divides t)
include h

/-- Some of the rows of a table are divided like all of them. -/
theorem of_subset {u : Table} (hu : ∀ r ∈ u, r ∈ t) : e.Divides u where
  same r hr q hq := h.same r (hu r hr) q (hu q hq)
  below r hr q hq := h.below r (hu r hr) q (hu q hq)

/-- A row that is kept is found by its own identifier. -/
theorem coversRow {r : Row} (hr : r ∈ t) (hkeeps : e.keeps r = true) : e.CoversRow t r.id :=
  fun q hq hid => (h.same r hr q hq hid).trans hkeeps

/-- And so is the row that it names as its parent, since that is in the same space. -/
theorem coversRow_parent {r : Row} (hr : r ∈ t) (hkeeps : e.keeps r = true) {p : String}
    (hp : r.parent = some p) : e.CoversRow t p := by
  intro q hq hid
  rw [← h.below q hq r hr (hid ▸ hp), hkeeps]

/-- The rows on the way up from a covered row are covered themselves, however many. -/
theorem chain_table {x : String} (hx : e.CoversRow t x) (depth : Nat) :
    (e.table t).chain x depth = (t.chain x depth).map e.row := by
  induction depth generalizing x with
  | zero =>
    rw [Table.chain, find_table hx, Table.chain]
    cases t.find x <;> rfl
  | succ depth ih =>
    -- the row above is in the space of the row, so it is shown as well
    rw [Table.chain, find_table hx, Table.chain]
    cases hr : t.find x with
    | none => rfl
    | some r =>
      have hmem : r ∈ t := List.mem_of_find?_eq_some hr
      have hid : r.id = x := of_decide_eq_true (List.find?_some (p := fun q : Row => q.id = x) hr)
      show e.row r :: _ = e.row r :: _
      refine congrArg (e.row r :: ·) ?_
      cases hp : r.parent with
      | none =>
        have hp' : (e.row r).parent = none := hp
        rw [hp']
        rfl
      | some p =>
        have hp' : (e.row r).parent = some p := hp
        rw [hp']
        exact ih (h.coversRow_parent hmem (hx r hmem hid) hp)

/-- So the links that a climb follows are read alike. -/
theorem ancestors_table {id : Uuid} (hid : e.CoversRow t id.toText) (depth : Nat) :
    (e.table t).ancestors id depth = t.ancestors id depth := by
  rw [Table.ancestors, h.chain_table hid, List.mapM_map]
  rfl

/-- And a climb comes to the same verdict. -/
theorem checkClimb_table {n : Node} (hsp : e.sees n.space = true) {parent : Option Uuid}
    (hparent : ∀ p, parent = some p → e.CoversRow t p.toText) (id : Uuid) :
    (e.table t).checkClimb (e.node n) id parent = t.checkClimb n id parent := by
  cases parent with
  | none => rfl
  | some p =>
    unfold Table.checkClimb
    dsimp only
    rw [node_space, countSpace_table hsp, h.ancestors_table (hparent p rfl)]

/-- What is below kept rows is kept, level by level, and counted alike. -/
theorem countBelow_table {ids : List String}
    (hids : ∀ x ∈ ids, ∀ r ∈ t, r.parent = some x → e.keeps r = true) (depth : Nat) :
    (e.table t).countBelow depth ids = t.countBelow depth ids := by
  induction depth generalizing ids with
  | zero => rfl
  | succ depth ih =>
    have hlevel : (ids.flatMap fun x => ((e.table t).filter (·.parent = some x)).map (·.id)) =
        ids.flatMap fun x => (t.filter (·.parent = some x)).map (·.id) := by
      refine List.flatMap_congr fun x hx => ?_
      rw [filter_table (fun _ => rfl) fun r hr hp => hids x hx r hr (of_decide_eq_true hp),
        List.map_map]
      rfl
    -- the rows of the next level are below rows that are shown
    rw [Table.countBelow, Table.countBelow, hlevel, ih fun y hy q hq hp => ?_]
    obtain ⟨x, hx, hy⟩ := List.mem_flatMap.1 hy
    obtain ⟨r, hr, rfl⟩ := List.mem_map.1 hy
    obtain ⟨hr, hrp⟩ := List.mem_filter.1 hr
    rw [h.below r hr q hq hp]
    exact hids x hx r hr (of_decide_eq_true hrp)

end Divides

/-! ## Statements that change rows -/

section Change

variable {x : String} {change change' : Row → Row}
  (hchange : ∀ r, e.row (change r) = change' (e.row r)) (hspace : ∀ r, (change r).space = r.space)
include hchange hspace

/-- Rows that are changed where they stand, once before and once after hiding. -/
theorem table_edit : e.table (t.edit x change) = (e.table t).edit x change' := by
  have hkeeps : ∀ r, e.keeps (change r) = e.keeps r := fun r => by rw [keeps, hspace, keeps]
  rw [table, Table.edit, List.filter_map, table, Table.edit, List.map_map, List.map_map]
  refine congrArg₂ List.map (funext fun r => ?_) (List.filter_congr fun r _ => ?_)
  · show e.row (if r.id = x then change r else r) =
      if r.id = x then change' (e.row r) else e.row r
    split
    · exact hchange r
    · rfl
  · show e.keeps (if r.id = x then change r else r) = e.keeps r
    split
    · exact hkeeps r
    · rfl

/-- An update meets a free slot, or a taken one, alike. -/
theorem update?_table (hx : e.CoversRow t x) :
    (e.table t).update? x change' = (t.update? x change).map e.table := by
  have hfind := find_table hx
  unfold Table.find at hfind
  unfold Table.update?
  rw [hfind]
  cases hr : t.find? (·.id = x) with
  | none => rfl
  | some r =>
    have hkeeps : e.keeps r = true := hx r (List.mem_of_find?_eq_some hr)
      (of_decide_eq_true (List.find?_some (p := fun q : Row => q.id = x) hr))
    have hslot : (change' (e.row r)).slot = (change r).slot := by
      rw [← hchange]
      rfl
    -- whoever has the slot is in the space of the row
    have hany : (e.table t).any (fun q => q.id ≠ x ∧ q.slot = (change' (e.row r)).slot) =
        t.any fun q => q.id ≠ x ∧ q.slot = (change r).slot := by
      rw [hslot]
      refine any_table (fun _ => rfl) fun q _ hq => ?_
      have hq' : q.space = r.space :=
        (congrArg Slot.space (of_decide_eq_true hq).2).trans (hspace r)
      rw [← hkeeps, keeps, hq', keeps]
    dsimp only [Option.map_some]
    rw [hany, ← table_edit hchange hspace]
    split <;> rfl

end Change

/-- A row that is kept goes in, or is refused, alike. -/
theorem insert_table {r : Row} (hr : e.keeps r = true) (hid : e.CoversRow t r.id) :
    (e.table t).insert (e.row r) = (t.insert r).map e.table := by
  unfold Table.insert
  -- both constraints are about rows that are shown: of the space of the row, or of its identifier
  have hslot : (e.table t).any (·.slot = (e.row r).slot) = t.any (·.slot = r.slot) := by
    refine any_table (fun _ => rfl) fun q _ hq => ?_
    have hq' : q.space = r.space := congrArg Slot.space (of_decide_eq_true hq)
    rw [← hr, keeps, hq', keeps]
  have hids : (e.table t).any (·.id = (e.row r).id) = t.any (·.id = r.id) :=
    any_table (fun _ => rfl) fun q hq hqid => hid q hq (of_decide_eq_true hqid)
  rw [hslot, hids]
  split
  · rfl
  split
  · rfl
  · refine congrArg Except.ok ?_
    rw [table, table, List.filter_append, List.map_append]
    simp [hr]

/-! ## Removals -/

/-- As many rounds as there are rows are enough. -/
theorem cascade_enough {ids : List String} {n m : Nat} (hn : t.length < n) (hm : t.length < m)
    (hhit : ∃ r ∈ t, r.id ∈ ids) : Table.cascade n ids t = Table.cascade m ids t := by
  -- a round removes a row, and another round is made only if it will remove one as well
  induction n generalizing ids t m with
  | zero => exact absurd hn (Nat.not_lt_zero _)
  | succ n ih =>
    obtain ⟨m, rfl⟩ := Nat.exists_eq_succ_of_ne_zero (Nat.ne_of_gt (Nat.zero_lt_of_lt hm))
    obtain ⟨r, hr, hid⟩ := hhit
    have hless : (t.filter fun r => r.id ∉ ids).length < t.length := by
      refine List.length_filter_lt_length_iff_exists.2 ⟨r, hr, by simpa using hid⟩
    unfold Table.cascade
    dsimp only
    split
    · rfl
    · next hnext =>
      refine ih (by omega) (by omega) ?_
      obtain ⟨x, hx⟩ := List.exists_mem_of_ne_nil _ hnext
      obtain ⟨q, hq, rfl⟩ := List.mem_map.1 hx
      exact ⟨q, List.mem_of_mem_filter hq, hx⟩

/-- A round of a removal passes on to rows in spaces of the same kind. -/
theorem Divides.orphans (h : e.Divides t) {ids : List String} {seen : Bool}
    (hbelow : ∀ x ∈ ids, ∀ r ∈ t, r.parent = some x → e.keeps r = seen) {x : String}
    (hx : x ∈ ((t.filter fun r => r.id ∉ ids).filter fun r => r.parent.any (· ∈ ids)).map (·.id)) :
    (∀ q ∈ t, q.id = x → e.keeps q = seen) ∧ ∀ q ∈ t, q.parent = some x → e.keeps q = seen := by
  obtain ⟨r, hr, rfl⟩ := List.mem_map.1 hx
  obtain ⟨hr, hp⟩ := List.mem_filter.1 hr
  obtain ⟨y, hy, hmem⟩ := (Option.any_eq_true _ _).1 hp
  have hr' : r ∈ t := List.mem_of_mem_filter hr
  have hseen : e.keeps r = seen := hbelow y (of_decide_eq_true hmem) r hr' hy
  exact ⟨fun q hq hid => (h.same r hr' q hq hid).trans hseen,
    fun q hq hparent => (h.below r hr' q hq hparent).trans hseen⟩

/-- Whatever is removed along with kept rows is kept as well. -/
theorem Divides.cascade_table (h : e.Divides t) {ids : List String}
    (hids : ∀ x ∈ ids, e.CoversRow t x)
    (hbelow : ∀ x ∈ ids, ∀ r ∈ t, r.parent = some x → e.keeps r = true) (rounds : Nat) :
    Table.cascade rounds ids (e.table t) = e.table (Table.cascade rounds ids t) := by
  induction rounds generalizing ids t with
  | zero => rfl
  | succ rounds ih =>
    have hrest : (e.table t).filter (fun r => r.id ∉ ids) =
        e.table (t.filter fun r => r.id ∉ ids) := by
      rw [table, List.filter_map, List.filter_filter, table, List.filter_filter]
      refine congrArg (List.map e.row) (List.filter_congr fun r _ => ?_)
      exact Bool.and_comm _ _
    have hsub : ∀ r ∈ t.filter (fun r => r.id ∉ ids), r ∈ t := fun r hr => List.mem_of_mem_filter hr
    -- the rows left without a parent were below rows that are shown, so none is overlooked
    have horphans : ((e.table (t.filter fun r => r.id ∉ ids)).filter
          fun r => r.parent.any (· ∈ ids)).map (·.id) =
        ((t.filter fun r => r.id ∉ ids).filter fun r => r.parent.any (· ∈ ids)).map (·.id) := by
      rw [filter_table (fun _ => rfl) fun r hr hp => ?_, List.map_map]
      · rfl
      · obtain ⟨x, hx, hmem⟩ := (Option.any_eq_true _ _).1 hp
        exact hbelow x (of_decide_eq_true hmem) r (hsub r hr) hx
    unfold Table.cascade
    dsimp only
    rw [hrest, horphans]
    split
    · rfl
    · refine ih (h.of_subset hsub) (fun x hx q hq => ?_) fun x hx q hq => ?_
      · exact (h.orphans hbelow hx).1 q (hsub q hq)
      · exact (h.orphans hbelow hx).2 q (hsub q hq)

/-- So a removal is the same before and after hiding. -/
theorem Divides.delete_table (h : e.Divides t) {sp : Uuid} (hsp : e.sees sp = true) (x : String) :
    (e.table t).delete x sp.toText = e.table (t.delete x sp.toText) := by
  have hkeeps : ∀ r ∈ t, r.id = x ∧ r.space = sp.toText → e.keeps r = true := fun r _ hr => by
    rw [e.keeps_of_space hr.2, hsp]
  have hany : (e.table t).any (fun r => r.id = x ∧ r.space = sp.toText) =
      t.any fun r => r.id = x ∧ r.space = sp.toText :=
    any_table (fun _ => rfl) fun r hr hp => hkeeps r hr (of_decide_eq_true hp)
  unfold Table.delete
  rw [hany]
  split
  · next hhit =>
    obtain ⟨r, hr, hrx⟩ := List.any_eq_true.1 hhit
    obtain ⟨rfl, hspace⟩ := of_decide_eq_true hrx
    have hr' : e.keeps r = true := hkeeps r hr ⟨rfl, hspace⟩
    have hlength : (e.table t).length ≤ t.length := by
      rw [table, List.length_map]
      exact List.length_filter_le _ _
    -- the excerpt has fewer rows and makes fewer rounds, but enough of them
    have hrounds : Table.cascade ((e.table t).length + 1) [r.id] (e.table t) =
        Table.cascade (t.length + 1) [r.id] (e.table t) :=
      cascade_enough (Nat.lt_succ_self _) (by omega)
        ⟨e.row r, mem_table_iff.2 ⟨r, hr, hr', rfl⟩, List.mem_singleton.2 rfl⟩
    rw [hrounds]
    refine h.cascade_table (fun x hx => ?_) (fun x hx q hq hqx => ?_) _
    · rw [List.mem_singleton.1 hx]
      exact h.coversRow hr hr'
    · rw [List.mem_singleton.1 hx] at hqx
      rw [h.below r hr q hq hqx, hr']
  · rfl

/-! ## Writing keys -/

/-- A row that gets a key and is then hidden, or the other way round. -/
theorem row_change (w : KeyWrite) (r : Row) :
    e.row (w.change r) = w.undated.change (e.row r) := by
  unfold KeyWrite.change row KeyWrite.undated
  cases w.updated <;> rfl

/-- A property of rows that an update keeps holds of all rows after it. -/
theorem forall_of_update? {P : Row → Prop} {x : String} {w : KeyWrite} {u : Table}
    (hP : ∀ r, P r → P (w.change r)) (ht : ∀ r ∈ t, P r) (hu : t.update? x w.change = some u) :
    ∀ r ∈ u, P r := by
  intro r hr
  unfold Table.update? at hu
  split at hu
  · cases hu
    exact ht r hr
  · split at hu
    · cases hu
    · cases hu
      obtain ⟨q, hq, rfl⟩ := List.mem_map.1 hr
      split
      · exact hP q (ht q hq)
      · exact ht q hq

/-- What no single update spoils, a list of updates does not spoil. -/
theorem forall_of_write {P : Row → Prop} {group : Group} {ws : List KeyWrite} {u : Table}
    (hP : ∀ w ∈ ws, ∀ r, P r → P (w.change r)) (ht : ∀ r ∈ t, P r)
    (hu : t.write group ws = .ok u) : ∀ r ∈ u, P r := by
  induction ws generalizing t with
  | nil =>
    cases hu
    exact ht
  | cons w rest ih =>
    rw [Table.write] at hu
    split at hu
    · next v hv =>
      exact ih (fun w' hw' => hP w' (by simp [hw'])) (forall_of_update? (hP w (by simp)) ht hv) hu
    · cases hu

/-- A list of updates of covered rows, up to the first that meets a taken slot. -/
theorem write_table (group : Group) {ws : List KeyWrite}
    (hws : ∀ w ∈ ws, e.CoversRow t w.id.toText) :
    (e.table t).write group (ws.map KeyWrite.undated) = (t.write group ws).map e.table := by
  induction ws generalizing t with
  | nil => rfl
  | cons w rest ih =>
    rw [List.map_cons, Table.write, Table.write]
    have hupdate : (e.table t).update? w.undated.id.toText w.undated.change =
        (t.update? w.id.toText w.change).map e.table :=
      update?_table (row_change w) (fun _ => rfl) (hws w (by simp))
    rw [hupdate]
    cases hu : t.update? w.id.toText w.change with
    | none => rfl
    | some u =>
      -- identifiers and spaces are as before
      refine ih fun v hv => ?_
      exact forall_of_update? (P := fun r => r.id = v.id.toText → e.keeps r = true)
        (fun _ hr => hr) (hws v (by simp [hv])) hu

/-- The identifiers in updates of keys are those of the members that get keys. -/
theorem exists_of_mem_parking {start : SortKey} {keys : List Sibling} {w : KeyWrite}
    (hw : w ∈ Table.parking start keys) : ∃ m ∈ keys, w.id = m.id ∧ w.updated = none := by
  obtain ⟨i, m, hm, -, heq⟩ := Table.mem_parking.1 hw
  rw [heq]
  exact ⟨m, List.mem_of_getElem? hm, rfl, rfl⟩

/-- The last updates of a rewriting are of the listed members, and stamp them. -/
theorem exists_of_mem_settling {group : Group} {keys : List Sibling} {mover : Option Mover}
    {now : Timestamp} {w : KeyWrite} (hw : w ∈ Table.settling group keys mover now) :
    ∃ m ∈ keys, w.id = m.id ∧ w.updated = some now := by
  obtain ⟨m, hm, rfl⟩ := List.mem_map.1 hw
  exact ⟨m, hm, rfl, rfl⟩

/-- Each update gives a key to one of the members, and the time of the writing if any. -/
theorem exists_of_mem_writes {group : Group} {keys : List Sibling} {mover : Option Mover}
    {now : Timestamp} {ws : List KeyWrite} (hws : t.writes group keys mover now = .ok ws)
    {w : KeyWrite} (hw : w ∈ ws) :
    ∃ m ∈ keys, w.id = m.id ∧ (w.updated = none ∨ w.updated = some now) := by
  have hsettling : w ∈ Table.settling group keys mover now →
      ∃ m ∈ keys, w.id = m.id ∧ (w.updated = none ∨ w.updated = some now) := fun h => by
    obtain ⟨m, hm, hid, hupdated⟩ := exists_of_mem_settling h
    exact ⟨m, hm, hid, .inr hupdated⟩
  unfold Table.writes at hws
  split at hws
  · cases hws
    exact hsettling hw
  · obtain ⟨used, -, hws⟩ := bind_eq_ok_iff.1 hws
    split at hws
    · cases hws
      rcases List.mem_append.1 hw with hw | hw
      · obtain ⟨m, hm, hid, hupdated⟩ := exists_of_mem_parking hw
        exact ⟨m, hm, hid, .inl hupdated⟩
      · exact hsettling hw
    · cases hws

/-- The updates of a rewriting are chosen by what is not hidden, apart from their time. -/
theorem writes_table {group : Group} (hsp : e.sees group.space = true) (keys : List Sibling)
    (mover : Option Mover) (now : Timestamp) :
    (e.table t).writes group keys mover .epoch =
      (t.writes group keys mover now).map (List.map KeyWrite.undated) := by
  -- the time is in the second pass only; parking leaves the times alone
  have hsettling : (Table.settling group keys mover now).map KeyWrite.undated =
      Table.settling group keys mover .epoch := by
    rw [Table.settling, List.map_map]
    rfl
  have hparking : ∀ start, (Table.parking start keys).map KeyWrite.undated =
      Table.parking start keys := by
    intro start
    rw [Table.parking, List.map_filterMap]
    congr 1
    funext entry
    obtain ⟨m, i⟩ := entry
    show Option.map _ (Option.map _ _) = Option.map _ _
    rw [Option.map_map]
    rfl
  have hused : (e.table t).usedKeys group keys mover = t.usedKeys group keys mover := by
    unfold Table.usedKeys
    rw [siblings_table hsp]
    cases mover with
    | none => rfl
    | some m =>
      have horigin : (e.table t).siblings ⟨group.space, m.origin⟩ =
          t.siblings ⟨group.space, m.origin⟩ := siblings_table hsp
      dsimp only
      rw [horigin]
  unfold Table.writes
  rw [hused]
  split
  · exact congrArg Except.ok hsettling.symm
  · refine bind_eq_map_of_same fun used _ => ?_
    split
    · refine congrArg Except.ok ?_
      rw [List.map_append, hparking, hsettling]
    · rfl

/-- New keys for a group of a space that is seen. -/
theorem writeKeys_table {group : Group} (hsp : e.sees group.space = true) {keys : List Sibling}
    (hkeys : ∀ m ∈ keys, e.CoversRow t m.id.toText) (mover : Option Mover) (now : Timestamp) :
    (e.table t).writeKeys group keys mover .epoch =
      (t.writeKeys group keys mover now).map e.table := by
  unfold Table.writeKeys
  refine bind_eq_map (writes_table hsp keys mover now) fun ws hws =>
    write_table group fun w hw => ?_
  obtain ⟨m, hm, hid, -⟩ := exists_of_mem_writes hws hw
  rw [hid]
  exact hkeys m hm

/-! ## What updates of keys keep -/

/-- Rewriting keys makes no row appear or vanish. -/
theorem coversRow_writeKeys {group : Group} {keys : List Sibling} {mover : Option Mover}
    {now : Timestamp} {u : Table} {x : String} (h : e.CoversRow t x)
    (hu : t.writeKeys group keys mover now = .ok u) : e.CoversRow u x := by
  obtain ⟨ws, -, hu⟩ := bind_eq_ok_iff.1 hu
  exact forall_of_write (P := fun r => r.id = x → e.keeps r = true) (fun _ _ _ hr => hr) h hu

/-- It writes one time, which can be read. -/
theorem reads_writeKeys {group : Group} {keys : List Sibling} {mover : Option Mover}
    {now : Timestamp} (hyear : now.HasPlainYear) {u : Table} (h : ∀ r ∈ t, e.Reads r)
    (hu : t.writeKeys group keys mover now = .ok u) : ∀ r ∈ u, e.Reads r := by
  obtain ⟨ws, hws, hu⟩ := bind_eq_ok_iff.1 hu
  refine forall_of_write (fun w hw r hr => ?_) h hu
  obtain ⟨hproperties, hcreated, hupdated⟩ := hr
  refine ⟨hproperties, hcreated, ?_⟩
  obtain ⟨-, -, -, hnone | hsome⟩ := exists_of_mem_writes hws hw
  · rw [KeyWrite.change, hnone]
    exact hupdated
  · rw [KeyWrite.change, hsome]
    exact ⟨now, Timestamp.ofText?_toOffsetText hyear⟩

/-! ## Statements about rows that are not shown -/

variable (e t) in
/-- Rows with the identifier are in spaces that are not seen. -/
def MissesRow (x : String) : Prop :=
  ∀ r ∈ t, r.id = x → e.keeps r = false

/-- A row that is not kept may change in all but its space, unseen. -/
theorem table_edit_of_missesRow {x : String} {change : Row → Row} (hx : e.MissesRow t x)
    (hspace : ∀ r, (change r).space = r.space) : e.table (t.edit x change) = e.table t := by
  have hkeeps : ∀ r, e.keeps (if r.id = x then change r else r) = e.keeps r := fun r => by
    split
    · rw [keeps, hspace, keeps]
    · rfl
  have hfilter : t.filter (e.keeps ∘ fun r => if r.id = x then change r else r) =
      t.filter e.keeps := List.filter_congr fun r _ => hkeeps r
  rw [table, Table.edit, List.filter_map, hfilter, table, List.map_map]
  refine List.map_congr_left fun r hr => congrArg e.row (if_neg fun hid => ?_)
  obtain ⟨hr, hrk⟩ := List.mem_filter.1 hr
  rw [hx r hr hid] at hrk
  cases hrk

/-- Updates of rows that are not kept are unseen. -/
theorem table_write_of_missesRow {group : Group} {ws : List KeyWrite} {u : Table}
    (hws : ∀ w ∈ ws, e.MissesRow t w.id.toText) (hu : t.write group ws = .ok u) :
    e.table u = e.table t := by
  induction ws generalizing t with
  | nil =>
    cases hu
    rfl
  | cons w rest ih =>
    rw [Table.write] at hu
    split at hu
    · next v hv =>
      refine (ih (fun w' hw' => ?_) hu).trans ?_
      -- an update changes neither identifiers nor spaces
      · exact forall_of_update? (P := fun r => r.id = w'.id.toText → e.keeps r = false)
          (fun _ hr => hr) (hws w' (by simp [hw'])) hv
      · unfold Table.update? at hv
        split at hv
        · cases hv
          rfl
        · split at hv
          · cases hv
          · cases hv
            exact table_edit_of_missesRow (hws w (by simp)) fun _ => rfl
    · cases hu

/-- So are new keys for members that are not kept. -/
theorem table_writeKeys_of_missesRow {group : Group} {keys : List Sibling} {mover : Option Mover}
    {now : Timestamp} {u : Table} (hkeys : ∀ m ∈ keys, e.MissesRow t m.id.toText)
    (hu : t.writeKeys group keys mover now = .ok u) : e.table u = e.table t := by
  obtain ⟨ws, hws, hu⟩ := bind_eq_ok_iff.1 hu
  refine table_write_of_missesRow (fun w hw => ?_) hu
  obtain ⟨m, hm, hid, -⟩ := exists_of_mem_writes hws hw
  rw [hid]
  exact hkeys m hm

/-- A row of a space that is not seen goes in unseen. -/
theorem table_insert_of_unseen {r : Row} (hr : e.keeps r = false) {u : Table}
    (hu : t.insert r = .ok u) : e.table u = e.table t := by
  unfold Table.insert at hu
  split at hu
  · cases hu
  split at hu
  · cases hu
  · cases hu
    rw [table, List.filter_append, table]
    simp [hr]

/-- Rows that are not kept are removed unseen, with all below them. -/
theorem Divides.table_cascade_of_missesRow (h : e.Divides t) {ids : List String}
    (hids : ∀ x ∈ ids, e.MissesRow t x)
    (hbelow : ∀ x ∈ ids, ∀ r ∈ t, r.parent = some x → e.keeps r = false) (rounds : Nat) :
    e.table (Table.cascade rounds ids t) = e.table t := by
  induction rounds generalizing ids t with
  | zero => rfl
  | succ rounds ih =>
    have hrest : e.table (t.filter fun r => r.id ∉ ids) = e.table t := by
      rw [table, List.filter_filter, table]
      refine congrArg (List.map e.row) (List.filter_congr fun r hr => ?_)
      by_cases hmem : r.id ∈ ids
      · rw [hids r.id hmem r hr rfl]
        rfl
      · rw [decide_eq_true hmem, Bool.and_true]
    have hsub : ∀ r ∈ t.filter (fun r => r.id ∉ ids), r ∈ t := fun r hr => List.mem_of_mem_filter hr
    unfold Table.cascade
    dsimp only
    split
    · exact hrest
    · refine (ih (h.of_subset hsub) (fun x hx q hq => ?_) fun x hx q hq => ?_).trans hrest
      · exact (h.orphans hbelow hx).1 q (hsub q hq)
      · exact (h.orphans hbelow hx).2 q (hsub q hq)

end Excerpt

end Outline
