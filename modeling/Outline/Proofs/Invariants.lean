import Outline.Proofs.Forest.Position
import Outline.Proofs.Indexed.Runs
import Outline.Proofs.Table.Runs

/-!
# What holds of both stores

Both stores start with nothing and serve calls in any order, with any arguments, successful or
refused. Whatever has been called, what they hold is a tree with its invariants; and every call that
places a node has placed it where it was asked to.

Main results:

* `treeInvariants_run` — the invariants of the tree after every run;
* `positioned_run` — where a placing call has put its node.
-/

namespace Outline

/-! ## The tree -/

/-- Every stored node of either store is in its forest, and the forest is a tree of pages and blocks
with distinct keys. -/
theorem treeInvariants_run (gap : Gap) (calls : List (StoreCall × Timestamp)) :
    ((∀ {sp id : Uuid} {n : Node},
        ((Shelf.store.run calls (.empty gap)).space sp).nodes[id]? = some n →
          (Shelf.store.run calls (.empty gap)).forest id = some n.record) ∧
      TreeInvariants (Shelf.store.run calls (.empty gap)).forest) ∧
    ((∀ r ∈ (Database.store.run calls (.empty gap)).rows, ∃ l : Line, l.row = r ∧
        (Database.store.run calls (.empty gap)).rows.forest l.id = some l) ∧
      TreeInvariants (Database.store.run calls (.empty gap)).rows.forest) := by
  have hshelf := Shelf.sound_run gap calls
  have hrows := Database.sound_run gap calls
  refine ⟨⟨fun hn => Shelf.forest_of_node hshelf.agrees hn, hshelf.outline.treeInvariants⟩,
    fun r hr => ?_, hrows.outline.treeInvariants⟩
  obtain ⟨l, hl, hrow⟩ := hrows.holds.row hr
  exact ⟨l, hrow, hl⟩

/-! ## Placing calls -/

namespace Shelf

variable {s s' : Shelf} {now : Timestamp}

/-- What a listing answers is the listing of the group. -/
theorem isListing_of_list (h : s.Agrees) {group : Group} {ns : List Node}
    (hs : s.list group = .ok ns) : IsListing s.forest group (ns.map Node.sibling) := by
  obtain ⟨parent, -, hs⟩ := bind_eq_ok_iff.1 hs
  cases hs
  rw [Space.map_sibling_children (h.space _)]
  exact isListing_siblings h group

/-- A group is listed when its parent is in its space. -/
theorem list_of_parent (h : s.Agrees) {group : Group}
    (hparent : ∀ p, group.parent = some p → ∃ r, s.forest p = some r ∧ r.space = group.space) :
    ∃ ns, s.list group = .ok ns := by
  cases hp : group.parent with
  | none => exact ⟨_, by rw [list, hp]; rfl⟩
  | some p =>
    obtain ⟨r, hr, hspace⟩ := hparent p hp
    obtain ⟨n, hget, -⟩ := space_get_eq h hr
    rw [hspace] at hget
    exact ⟨_, by rw [list, hp, Space.getParent, hget]; rfl⟩

theorem relocate_positioned (h : s.Sound) {id : Uuid}
    {find : Space → Except StoreError (Option Uuid)} {target : Target} {n : Node}
    (hs : s.relocate id find target now = .ok (n, s')) :
    ∃ r parent, s.forest id = some r ∧ find (s.space r.space) = .ok parent ∧
      Positioned s.forest s'.forest r ⟨r.space, parent⟩ target := by
  have ho := h.outline.rooted
  obtain ⟨r, parent, p, hr, hfind, hl, hclear, hplace⟩ := of_relocate h.agrees ho hs
  obtain rfl : r.id = id := ho.own_id hr
  have heq := relocate_eq target now h.agrees ho hr hfind hl hclear
  rw [hplace] at heq
  obtain ⟨m, t, ht, -, -, -, hplaced⟩ := heq
  rw [hs] at ht
  cases ht
  exact ⟨r, parent, hr, hfind,
    hplaced.positioned (isListing_siblings h.agrees ⟨r.space, parent⟩) rfl hplace⟩

theorem insert_last_positioned (h : s.Sound) {n m : Node}
    (hs : s.insert n .last now = .ok (m, s')) :
    Positioned s.forest s'.forest n.record n.group .last := by
  obtain ⟨hcheck, hn, hl⟩ := of_insert h.agrees hs
  have heq := insert_last_eq now h.agrees hcheck hn hl
  split at heq
  · rw [hs] at heq
    cases heq
  · next p hplace =>
    obtain ⟨m', t, stamp, ht, -, -, -, hplaced⟩ := heq
    rw [hs] at ht
    cases ht
    exact hplaced.positioned (isListing_siblings h.agrees n.group) rfl hplace

/-- A placing call obeys the law of placing. -/
theorem serve_positioned (h : s.Sound) {c : StoreCall} (hc : c.isPlacing = true)
    {answer : c.Answer} (hs : store.serve c now s = .ok (answer, s')) :
    ∃ r group target, c.placing? s.forest Node.record = some (r, group, target) ∧
      Positioned s.forest s'.forest r group target := by
  cases c with
  | createLast n =>
    change s.insert n .last now = .ok (answer, s') at hs
    exact ⟨_, _, _, rfl, insert_last_positioned h hs⟩
  | moveLast id parent =>
    change s.relocate id (fun _ => .ok parent) .last now = .ok (answer, s') at hs
    obtain ⟨r, parent', hr, hfind, hpos⟩ := relocate_positioned h hs
    obtain rfl := Except.ok.inj hfind
    exact ⟨r, _, _, by rw [StoreCall.placing?, hr]; rfl, hpos⟩
  | moveAt id parent sort =>
    change s.relocate id (fun _ => .ok parent) (.at sort) now = .ok (answer, s') at hs
    obtain ⟨r, parent', hr, hfind, hpos⟩ := relocate_positioned h hs
    obtain rfl := Except.ok.inj hfind
    exact ⟨r, _, _, by rw [StoreCall.placing?, hr]; rfl, hpos⟩
  | reorder id sort =>
    change s.relocate id (fun space => (space.get id).map (·.parent)) (.at sort) now =
      .ok (answer, s') at hs
    obtain ⟨r, parent, hr, hfind, hpos⟩ := relocate_positioned h hs
    -- the group is that of the node itself
    obtain ⟨n, hget, rfl⟩ := map_eq_ok_iff.1 hfind
    have hn := forest_of_node h.agrees (node_of_space_get hget)
    rw [hr] at hn
    obtain rfl := Option.some.inj hn
    exact ⟨_, _, _, by rw [StoreCall.placing?, hr]; rfl, hpos⟩
  | moveBeside id anchor side =>
    change s.moveBeside id anchor side now = .ok (answer, s') at hs
    unfold moveBeside at hs
    split at hs
    · cases hs
    · obtain ⟨r, parent, hr, hfind, hpos⟩ := relocate_positioned h hs
      -- the group is that of the anchor
      obtain ⟨a, hget, rfl⟩ := map_eq_ok_iff.1 hfind
      have ha := forest_of_node h.agrees (node_of_space_get hget)
      exact ⟨r, _, _, by rw [StoreCall.placing?, hr, ha]; rfl, hpos⟩
  | get | create | update | delete | list | nextSort | renumber => cases hc

end Shelf

namespace Table

namespace Holds

variable {t t' : Table} {f : Forest Row.Payload String} (h : t.Holds f) (ho : IsOutline f)
include h ho

theorem relocate_positioned {gap : Gap} {id : Uuid} {parent : Option Uuid} {target : Target}
    {now : Timestamp} {n : Node} (hs : t.relocate gap id parent target now = .ok (n, t')) :
    ∃ l, f id = some l ∧ Positioned f t'.forest l ⟨l.space, parent⟩ target := by
  obtain ⟨l, p, hl, -, -, hplace, hholds, -⟩ := h.of_relocate ho hs
  obtain ⟨rfl, -⟩ := h.line hl
  have hlist := h.isListing_members ho.keys ⟨l.space, parent⟩
  have hplaced := placed_settle hl rfl (Placing.of_placeIn hlist hplace) now.toOffsetText
  rw [hholds.forest_eq]
  exact ⟨l, hl, hplaced.positioned hlist rfl hplace⟩

theorem createLast_positioned {gap : Gap} {now : Timestamp} {n n' : Node}
    (hs : t.createLast gap n now = .ok (n', t')) :
    Positioned f t'.forest n.line n.group .last := by
  obtain ⟨p, sort, g, -, -, hplace, -, hholds, -, hplaced⟩ := h.of_createLast ho.keys hs
  rw [hholds.forest_eq]
  exact hplaced.positioned (h.isListing_members ho.keys n.group) rfl hplace

end Holds

end Table

namespace Database

variable {db db' : Database} {now : Timestamp}

/-- A placing call obeys the law of placing. -/
theorem serve_positioned (h : db.Sound) {c : StoreCall} (hc : c.isPlacing = true)
    {answer : c.Answer} (hs : store.serve c now db = .ok (answer, db')) :
    ∃ l group target, c.placing? db.rows.forest Node.line = some (l, group, target) ∧
      Positioned db.rows.forest db'.rows.forest l group target ∧
      (db.rows.Readable → (∀ n, c ≠ .createLast n) → db'.rows.Readable) := by
  have ht := h.holds
  have ho := h.outline
  cases c with
  | createLast n =>
    exact ⟨_, _, _, rfl, ht.createLast_positioned ho (of_writing hs).1,
      fun _ hn => absurd rfl (hn n)⟩
  | moveLast id parent =>
    obtain ⟨l, hl, hpos⟩ := ht.relocate_positioned ho (of_writing hs).1
    exact ⟨l, _, _, by rw [StoreCall.placing?, hl]; rfl, hpos,
      fun hr _ => ht.relocate_readable ho hr (of_writing hs).1⟩
  | moveAt id parent sort =>
    obtain ⟨l, hl, hpos⟩ := ht.relocate_positioned ho (of_writing hs).1
    exact ⟨l, _, _, by rw [StoreCall.placing?, hl]; rfl, hpos,
      fun hr _ => ht.relocate_readable ho hr (of_writing hs).1⟩
  | reorder id sort =>
    obtain ⟨n, hfetch, hrelocate⟩ := bind_eq_ok_iff.1 (of_writing hs).1
    obtain ⟨l, hl, hpos⟩ := ht.relocate_positioned ho hrelocate
    -- the parent that was read is the one of the record
    obtain ⟨q, hq, hnode⟩ := ht.of_fetch hfetch
    rw [hl] at hq
    obtain rfl := Option.some.inj hq
    obtain ⟨-, -, -, hparent, -⟩ := Row.toNode_row_eq_ok_iff.1 hnode
    rw [hparent] at hpos
    exact ⟨l, _, _, by rw [StoreCall.placing?, hl]; rfl, hpos,
      fun hr _ => ht.relocate_readable ho hr hrelocate⟩
  | moveBeside id anchor side =>
    obtain ⟨-, n, a, -, ha, -, hrelocate⟩ := Table.of_moveBeside (of_writing hs).1
    obtain ⟨l, hl, hpos⟩ := ht.relocate_positioned ho hrelocate
    obtain ⟨q, hq, hnode⟩ := ht.of_fetch ha
    obtain ⟨-, -, -, hparent, -⟩ := Row.toNode_row_eq_ok_iff.1 hnode
    rw [hparent] at hpos
    exact ⟨l, _, _, by rw [StoreCall.placing?, hl, hq]; rfl, hpos,
      fun hr _ => ht.relocate_readable ho hr hrelocate⟩
  | get | create | update | delete | list | nextSort | renumber => cases hc

end Database

/-- What a store answers for a group is the listing of its members. -/
def ListsGroups {π τ : Type} (list : Group → Except StoreError (List Node)) (f : Forest π τ) :
    Prop :=
  ∀ {group ns}, list group = .ok ns → IsListing f group (ns.map Node.sibling)

/-- After every run of either store, a placing call that succeeds has put its node where its target
says among the others of the group, and has changed nothing else. Before and afterwards the group is
listed; in a table whose rows could be read, a move leaves rows that can be read. -/
theorem positioned_run (gap : Gap) (calls : List (StoreCall × Timestamp)) (c : StoreCall)
    (now : Timestamp) (hc : c.isPlacing = true) :
    (∀ answer s', Shelf.store.serve c now (Shelf.store.run calls (.empty gap)) = .ok (answer, s') →
      ∃ r group target,
        c.placing? (Shelf.store.run calls (.empty gap)).forest Node.record =
          some (r, group, target) ∧
        Positioned (Shelf.store.run calls (.empty gap)).forest s'.forest r group target ∧
        ListsGroups (Shelf.store.run calls (.empty gap)).list
          (Shelf.store.run calls (.empty gap)).forest ∧
        ListsGroups s'.list s'.forest ∧
        (∃ ns, (Shelf.store.run calls (.empty gap)).list group = .ok ns) ∧
        ∃ ns, s'.list group = .ok ns) ∧
    (∀ answer db', Database.store.serve c now (Database.store.run calls (.empty gap)) =
        .ok (answer, db') →
      ∃ l group target,
        c.placing? (Database.store.run calls (.empty gap)).rows.forest Node.line =
          some (l, group, target) ∧
        Positioned (Database.store.run calls (.empty gap)).rows.forest db'.rows.forest l group
          target ∧
        ListsGroups (Database.store.run calls (.empty gap)).rows.list
          (Database.store.run calls (.empty gap)).rows.forest ∧
        ListsGroups db'.rows.list db'.rows.forest ∧
        ((Database.store.run calls (.empty gap)).rows.Readable →
          (∀ n, c ≠ .createLast n) → db'.rows.Readable) ∧
        ((Database.store.run calls (.empty gap)).rows.Readable →
          ∃ ns, (Database.store.run calls (.empty gap)).rows.list group = .ok ns) ∧
        (db'.rows.Readable → ∃ ns, db'.rows.list group = .ok ns)) := by
  have hshelf := Shelf.sound_run gap calls
  have hrows := Database.sound_run gap calls
  constructor
  -- in memory
  · intro answer s' hs
    have h' := hshelf.serve hs
    obtain ⟨r, group, target, hplacing, hpos⟩ := Shelf.serve_positioned hshelf hc hs
    refine ⟨r, group, target, hplacing, hpos, Shelf.isListing_of_list hshelf.agrees,
      Shelf.isListing_of_list h'.agrees, ?_, ?_⟩
    · refine Shelf.list_of_parent hshelf.agrees fun p hp => ?_
      exact hpos.exists_parent_before h'.outline.rooted hp
    · refine Shelf.list_of_parent h'.agrees fun p hp => ?_
      exact hpos.exists_parent h'.outline.rooted hp
  -- in the table, where a listing has to read every row of the group
  · intro answer db' hs
    have h' := hrows.serve hs
    obtain ⟨l, group, target, hplacing, hpos, hreadable⟩ :=
      Database.serve_positioned hrows hc hs
    refine ⟨l, group, target, hplacing, hpos, hrows.holds.isListing_of_list hrows.outline.keys,
      h'.holds.isListing_of_list h'.outline.keys, hreadable, fun hr => ?_, fun hr => ?_⟩
    · refine hrows.holds.list_of_readable hr fun p hp => ?_
      exact hpos.exists_parent_before h'.outline.rooted hp
    · exact h'.holds.list_of_readable hr fun p hp => hpos.exists_parent h'.outline.rooted hp

namespace Sample

def uuid (n : UInt8) : Uuid := ⟨n.toNat, Nat.lt_of_lt_of_le n.toNat_lt (by decide)⟩

def time : Timestamp :=
  ⟨⟨2024, 1, 1, by decide⟩, 9, 30, 0, 0, by decide⟩

def page (id : UInt8) (parent : Option Uuid) : Node :=
  { (Draft.page (uuid 1)).toNode .page time (uuid id) with parent := parent }

/-- Three pages, each below the one before. -/
def calls : List (StoreCall × Timestamp) :=
  [(.createLast (page 2 none), time), (.createLast (page 3 (some (uuid 2))), time),
    (.createLast (page 4 (some (uuid 3))), time)]

/-- The last of them goes up, to the place before its parent. -/
def move : StoreCall := .moveBeside (uuid 4) (uuid 3) .before

end Sample

/-- Both stores put the page before its parent. -/
theorem positioned_run_move :
    (∃ answer s', Shelf.store.serve Sample.move Sample.time
        (Shelf.store.run Sample.calls (.empty .standard)) = .ok (answer, s') ∧
      ∃ r group target, Positioned (Shelf.store.run Sample.calls (.empty .standard)).forest
        s'.forest r group target) ∧
    (∃ answer db', Database.store.serve Sample.move Sample.time
        (Database.store.run Sample.calls (.empty .standard)) = .ok (answer, db') ∧
      ∃ l group target, Positioned (Database.store.run Sample.calls (.empty .standard)).rows.forest
        db'.rows.forest l group target) := by
  obtain ⟨hshelf, hrows⟩ :=
    positioned_run .standard Sample.calls Sample.move Sample.time (by decide)
  constructor
  · obtain ⟨⟨answer, s'⟩, hs⟩ : ∃ a, Shelf.store.serve Sample.move Sample.time
        (Shelf.store.run Sample.calls (.empty .standard)) = .ok a :=
      exists_eq_ok_of_isOk (by decide +kernel)
    obtain ⟨r, group, target, -, hpos, -⟩ := hshelf answer s' hs
    exact ⟨answer, s', hs, r, group, target, hpos⟩
  · obtain ⟨⟨answer, db'⟩, hs⟩ : ∃ a, Database.store.serve Sample.move Sample.time
        (Database.store.run Sample.calls (.empty .standard)) = .ok a :=
      exists_eq_ok_of_isOk (by decide +kernel)
    obtain ⟨l, group, target, -, hpos, -⟩ := hrows answer db' hs
    exact ⟨answer, db', hs, l, group, target, hpos⟩

end Outline
