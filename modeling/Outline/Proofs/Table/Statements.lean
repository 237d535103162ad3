import Outline.Proofs.Invariants
import Outline.Proofs.Table.Answers

/-!
# Keys written row by row

The table checks its index after every single update, so it is not enough that the keys of a group
are right in the end. Here the updates that write the keys are followed one at a time, over any
table that the store may have: identifiers, spaces, kinds and parents are written forms, no
identifier occurs twice, and no slot does. The keys may be those that a move writes for one node,
or keys for a whole group with a node that enters it.

Main results:

* `Table.Constrained` — what columns and constraints keep of a table;
* `Table.Holds.write_constrained` — updates with free slots keep it, one by one;
* `Table.writeKeys_constrained` — so do the updates that write keys, and what they leave.
-/

namespace Outline

namespace Table

/-! ## Tables with their constraints -/

/-- A table as the store may have it. -/
structure Constrained (t : Table) : Prop where
  /-- identifier, space, kind and parent are written forms; the other columns hold anything -/
  columns : ∀ r ∈ t, ∃ l : Line, l.row = r
  ids     : (t.map (·.id)).Nodup
  slots   : (t.map Row.slot).Nodup

theorem Constrained.holds {t : Table} (h : t.Constrained) : t.Holds t.forest := by
  refine ⟨fun {r} hr => ?_, fun {id l} hl => ?_, h.ids⟩
  · obtain ⟨l, rfl⟩ := h.columns r hr
    have hfind : t.find? (fun q => decide (q.id = l.row.id)) = some l.row :=
      find?_of_nodup h.ids hr
    refine ⟨l, ?_, rfl⟩
    rw [forest, find, ← Record.row_id, hfind, Option.bind_some, Row.record?_row]
  -- a record that is shown is that of the row found under its identifier
  · rw [forest, Option.bind_eq_some_iff] at hl
    obtain ⟨r, hr, hrecord⟩ := hl
    unfold find at hr
    have hmem : r ∈ t := List.mem_of_find?_eq_some hr
    obtain ⟨q, rfl⟩ := h.columns r hmem
    rw [Row.record?_row] at hrecord
    obtain rfl := Option.some.inj hrecord
    have hid := List.find?_some hr
    simp only [Record.row_id, Uuid.toText_inj, decide_eq_true_eq] at hid
    exact ⟨hid, hmem⟩

theorem Constrained.distinct {t : Table} (h : t.Constrained) : KeysDistinct t.forest := by
  intro a b r q hr hq hgroup hsort
  obtain ⟨rfl, hmem⟩ := h.holds.line hr
  obtain ⟨rfl, hmem'⟩ := h.holds.line hq
  have hrow := List.inj_on_of_nodup_map h.slots hmem hmem' (Row.slot_row_eq_iff.2 ⟨hgroup, hsort⟩)
  rw [Row.row_inj.1 hrow]

namespace Holds

variable {t : Table} {f : Forest Row.Payload String} (h : t.Holds f)
include h

theorem constrained (hk : KeysDistinct f) : t.Constrained := by
  refine ⟨fun r hr => ?_, h.nodup, List.Nodup.map_on (fun r hr q hq hslot => ?_) h.nodup.of_map⟩
  · obtain ⟨l, -, hrow⟩ := h.row hr
    exact ⟨l, hrow⟩
  · obtain ⟨a, ha, rfl⟩ := h.row hr
    obtain ⟨b, hb, rfl⟩ := h.row hq
    obtain ⟨hgroup, hsort⟩ := Row.slot_row_eq_iff.1 hslot
    have hid := hk ha hb hgroup hsort
    rw [hid, hb] at ha
    rw [Option.some.inj ha]

/-- Updates with free slots keep the constraints, however many of them have been made. -/
theorem write_constrained (hk : KeysDistinct f) {ws : List KeyWrite} (hw : Writable f ws)
    (group : Group) {done : List KeyWrite} (hdone : done <+: ws) :
    ∃ u, t.write group done = .ok u ∧ u.Constrained := by
  have hw := hw.sublist hdone.sublist
  obtain ⟨u, hu, hholds, -⟩ := h.write_eq hw group
  exact ⟨u, hu, hholds.constrained (hw.keysDistinct (fun hl => (h.line hl).1) hk)⟩

end Holds

/-! ## Lists of keys -/

/-- A row with this identifier is in the group. -/
def Lists (t : Table) (group : Group) (id : Uuid) : Prop :=
  ∃ r ∈ t.select group, r.id = id.toText

/-- The keys that are written for a group. -/
inductive KeyList (t : Table) (group : Group) : List Sibling → Option Mover → Prop
  /-- one key, for a node that is moved, which no other member of the group holds -/
  | lone {mover : Mover} {sort : SortKey}
      (stored : t.Lists ⟨group.space, mover.origin⟩ mover.id)
      (free : ∀ r ∈ t.select group, r.sort = sort → r.id = mover.id.toText) :
      KeyList t group [⟨mover.id, sort⟩] (some mover)
  /-- distinct keys for every member and, when a node is moved, for that node -/
  | whole {keys : List Sibling} {mover : Option Mover}
      (stored : ∀ m, mover = some m → t.Lists ⟨group.space, m.origin⟩ m.id)
      (ids : (keys.map (·.id)).Nodup)
      (sorts : (keys.map (·.sort)).Nodup)
      (listed : ∀ id, id ∈ keys.map (·.id) ↔ t.Lists group id ∨ ∃ m, mover = some m ∧ m.id = id) :
      KeyList t group keys mover

namespace Holds

variable {t : Table} {f : Forest Row.Payload String} (h : t.Holds f)
include h

theorem lists_iff {group : Group} {id : Uuid} :
    t.Lists group id ↔ ∃ l, f id = some l ∧ l.group = group := by
  constructor
  · rintro ⟨r, hr, hid⟩
    obtain ⟨l, hl, hgroup, rfl⟩ := h.mem_select_iff.1 hr
    rw [Record.row_id, Uuid.toText_inj] at hid
    exact ⟨l, hid ▸ hl, hgroup⟩
  · rintro ⟨l, hl, hgroup⟩
    obtain ⟨rfl, -⟩ := h.line hl
    exact ⟨l.row, h.mem_select_iff.2 ⟨l, hl, hgroup, rfl⟩, rfl⟩

/-- Keys of either shape may be given to the group. -/
theorem rewrites {group : Group} {keys : List Sibling} {mover : Option Mover}
    (hkeys : t.KeyList group keys mover) : Rewrites f group keys mover := by
  cases hkeys with
  | @lone mover sort stored free =>
    obtain ⟨l, hl, hgroup⟩ := h.lists_iff.1 stored
    refine ⟨List.nodup_singleton _, List.nodup_singleton _, fun {m} hm => ?_,
      fun {m q} hm hq hin hid hsort => ?_⟩
    · rw [List.mem_singleton.1 hm]
      exact ⟨l, hl, congrArg Group.space hgroup,
        .inr ⟨mover, rfl, rfl, congrArg Group.parent hgroup⟩⟩
    · rw [List.mem_singleton.1 hm] at hsort
      have hid' := free q.row (h.mem_select_iff.2 ⟨q, hq, hin, rfl⟩) hsort
      rw [Record.row_id, Uuid.toText_inj] at hid'
      exact hid (by simp [hid'])
  | whole stored ids sorts listed =>
    refine ⟨sorts, ids, fun {m} hm => ?_, fun {m q} _ hq hin hid => ?_⟩
    -- whoever gets a key is a member or the mover
    · rcases (listed m.id).1 (List.mem_map_of_mem hm) with hmember | ⟨mv, hmv, hid⟩
      · obtain ⟨l, hl, hgroup⟩ := h.lists_iff.1 hmember
        exact ⟨l, hl, congrArg Group.space hgroup, .inl (congrArg Group.parent hgroup)⟩
      · obtain ⟨l, hl, hgroup⟩ := h.lists_iff.1 (stored mv hmv)
        exact ⟨l, hid ▸ hl, congrArg Group.space hgroup,
          .inr ⟨mv, hmv, hid, congrArg Group.parent hgroup⟩⟩
    · exact absurd ((listed q.id).2 (.inl (h.lists_iff.2 ⟨q, hq, hin⟩))) hid

end Holds

/-! ## What the updates leave -/

theorem ids_write {group : Group} {ws : List KeyWrite} {t u : Table}
    (hu : t.write group ws = .ok u) : u.map (·.id) = t.map (·.id) := by
  induction ws generalizing t with
  | nil =>
    cases hu
    rfl
  | cons w rest ih =>
    rw [write] at hu
    split at hu
    · next v hv =>
      rw [ih hu]
      unfold update? at hv
      split at hv
      · rw [Option.some.inj hv]
      · split at hv
        · cases hv
        · rw [← Option.some.inj hv, edit, List.map_map]
          refine List.map_congr_left fun r _ => ?_
          simp only [Function.comp_apply]
          split <;> rfl
    · cases hu

end Table

/-- A row after the keys of a group are written: a listed one is in the group with its key. -/
def Row.settled (group : Group) (keys : List Sibling) (now : Timestamp) (r : Row) : Row :=
  match keys.find? (·.id.toText = r.id) with
  | some m =>
    { r with
      parent := group.parent.map Uuid.toText
      sort := m.sort
      updated := now.toOffsetText }
  | none => r

namespace Table

/-- A table of the settled forest with its rows in the old order has the settled rows. -/
theorem Holds.eq_map_settled {t u : Table} {f : Forest Row.Payload String} (h : t.Holds f)
    {group : Group} {keys : List Sibling} {now : Timestamp}
    (hu : u.Holds (f.settle group keys now.toOffsetText)) (hids : u.map (·.id) = t.map (·.id)) :
    u = t.map (Row.settled group keys now) := by
  have hmap : u.map id = t.map (Row.settled group keys now) := by
    refine map_eq_map_of_key hids fun r hr q hq hid => ?_
    obtain ⟨l, hl, rfl⟩ := hu.row hr
    obtain ⟨k, hk, rfl⟩ := h.row hq
    obtain hid : l.id = k.id := Uuid.toText_inj.1 hid
    have hfind : (fun m : Sibling => decide (m.id.toText = k.row.id)) =
        fun m => decide (m.id = k.id) := by
      funext m
      simp only [Record.row_id, Uuid.toText_inj]
    rw [hid, Forest.settle] at hl
    rw [Row.settled, hfind]
    cases hm : keys.find? fun m => decide (m.id = k.id) with
    | some m =>
      simp only [hm, hk] at hl ⊢
      rw [← Option.some.inj hl]
      rfl
    | none =>
      simp only [hm, hk] at hl ⊢
      rw [Option.some.inj hl]
      rfl
  rwa [List.map_id] at hmap

/-- In a space of fewer than `2 ^ 31` rows the keys of a group are written by updates that all
succeed. After each of them, those that park rows included, the constraints hold; after the last
one the listed rows are in the group with their keys, and the others are as they were. -/
theorem writeKeys_constrained {t : Table} (ht : t.Constrained) {group : Group}
    {keys : List Sibling} {mover : Option Mover} (hkeys : t.KeyList group keys mover)
    (hroom : t.countSpace group.space < 2 ^ 31) (now : Timestamp) :
    ∃ ws, t.writes group keys mover now = .ok ws ∧
      (∀ done, done <+: ws → ∃ u, t.write group done = .ok u ∧ u.Constrained) ∧
      t.writeKeys group keys mover now = .ok (t.map (Row.settled group keys now)) := by
  have h := ht.holds
  have hk : KeysDistinct t.forest := ht.distinct
  have hr := h.rewrites hkeys
  -- once the updates are made the rows are those of the settled forest, in the old order
  have hend : ∀ {ws u}, t.writes group keys mover now = .ok ws →
      t.writeKeys group keys mover now = .ok u →
      u.Holds (t.forest.settle group keys now.toOffsetText) →
      t.writeKeys group keys mover now = .ok (t.map (Row.settled group keys now)) := by
    intro ws u hws hu hholds
    have hwrite := hu
    rw [writeKeys, hws, bind_ok] at hwrite
    rw [hu, h.eq_map_settled hholds (ids_write hwrite)]
  by_cases hone : keys.length ≤ 1
  · have hws : t.writes group keys mover now = .ok _ := Holds.writes_lone hone
    obtain ⟨u, hu, hholds, -⟩ := h.writeKeys_lone hr now hone
    refine ⟨_, hws, fun done hdone => ?_, hend hws hu hholds⟩
    exact h.write_constrained hk (Holds.writable_lone hr now hone) group hdone
  · obtain ⟨start, hrun⟩ := h.exists_freeRun? hk hroom (h.length_keys_le hr) hone
    have hfree := freeRun?_free hrun
    have hws := h.writes_parked hone hrun now
    obtain ⟨u, hu, hholds, -⟩ := h.writeKeys_parked hk hr now hone hrun
    refine ⟨_, hws, fun done hdone => ?_, hend hws hu hholds⟩
    have hpark := Holds.writable_parking hr hfree (h.sort_mem_inUse hk hr)
    obtain ⟨rest, hrest⟩ := hdone
    rcases List.append_eq_append_iff.1 hrest with ⟨left, hparking, -⟩ | ⟨more, rfl, hsettling⟩
    -- some of the rows are parked
    · exact h.write_constrained hk hpark group ⟨left, hparking.symm⟩
    -- all of them are, and some are settled
    · obtain ⟨v, hv, hparked, -⟩ := h.write_eq hpark group
      obtain ⟨u', hu', hconstrained⟩ := hparked.write_constrained
        (hpark.keysDistinct (fun hl => (h.line hl).1) hk)
        (Holds.writable_settling_parked hr now hfree).1 group ⟨rest, hsettling.symm⟩
      exact ⟨u', by rw [write_append, hv, bind_ok, hu'], hconstrained⟩

end Table

namespace Sample

def key (n : Int) : SortKey := (SortKey.ofInt? n).getD .zero

/-- A root with the smallest key, one with the largest, and a child of the first. -/
def lines : List Line :=
  let line (id : Uuid) (parent : Option Uuid) (sort : SortKey) : Line :=
    ⟨id, uuid 9, .page, parent, sort, ⟨"", "", 0, ""⟩, ""⟩
  [line (uuid 1) none (key (-2 ^ 63)), line (uuid 2) none (key (2 ^ 63 - 1)),
    line (uuid 3) (some (uuid 1)) .zero]

def roots : Group := ⟨uuid 9, none⟩

/-- The child becomes a root, and all roots get new keys. -/
def newKeys : List Sibling :=
  [⟨uuid 1, key 1000⟩, ⟨uuid 2, key 2000⟩, ⟨uuid 3, key 3000⟩]

def rows : Table :=
  lines.map Record.row

def enters : Mover := ⟨uuid 3, some (uuid 1)⟩

end Sample

/-- No statement on the way puts two rows at one key, although the roots change their keys and the
child comes in. -/
theorem Table.writeKeys_constrained_enter :
    ∃ ws, Table.writes Sample.rows Sample.roots Sample.newKeys (some Sample.enters) Sample.time =
        .ok ws ∧
      (∀ done, done <+: ws → ∃ u, Table.write Sample.roots done Sample.rows = .ok u ∧
        Table.Constrained u) ∧
      Table.writeKeys Sample.rows Sample.roots Sample.newKeys (some Sample.enters) Sample.time =
        .ok (Sample.rows.map (Row.settled Sample.roots Sample.newKeys Sample.time)) := by
  -- the rows of either group are listed in the order of their keys
  have hroots : Table.select Sample.rows Sample.roots = Sample.rows.take 2 :=
    (List.mergeSort_of_pairwise (by decide +kernel)).trans (by decide +kernel)
  have hleft : Table.select Sample.rows ⟨Sample.roots.space, Sample.enters.origin⟩ =
      Sample.rows.drop 2 :=
    (List.mergeSort_of_pairwise (by decide +kernel)).trans (by decide +kernel)
  refine Table.writeKeys_constrained ⟨fun r hr => ?_, by decide +kernel, by decide +kernel⟩
    (.whole (fun m hm => ?_) (by decide) (by decide) fun id => ?_) (by decide +kernel) Sample.time
  · obtain ⟨l, -, hl⟩ := List.mem_map.1 hr
    exact ⟨l, hl⟩
  · obtain rfl := Option.some.inj hm
    rw [Table.Lists, hleft]
    decide +kernel
  -- the first two rows are the members, and the third is the mover's
  · rw [Table.Lists, hroots]
    simp [Sample.newKeys, Sample.rows, Sample.lines, Sample.enters, Uuid.toText_inj, eq_comm,
      or_assoc]

end Outline
