import Outline.Proofs.Indexed.Answers
import Outline.Proofs.Placement.Again
import Outline.Proofs.Stored

/-!
# Putting a node at one key again

A node that is put at a key of its group can be put there again, in both stores and after any run.
Its place changes when the first time has moved the key past some of the new keys: then, and only
then, the second time leaves another order than the first. From the second time on the order stays.

Main results:

* `PutAt.sameOrder_iff` — when two calls in a row leave one order;
* `Shelf.reorder_again`, `Database.reorder_again` — a second call succeeds where a first one has;
* `reorder_again_run` — a second and a third call after any run.
-/

namespace Outline

open Sibling (Ascending)

variable {π τ : Type}

/-! ## The order of a group -/

/-- The members of a group stand in one order in two forests, whatever their keys. -/
def SameOrder (f g : Forest π τ) (group : Group) : Prop :=
  ∃ before after, IsListing f group before ∧ IsListing g group after ∧
    after.map (·.id) = before.map (·.id)

/-- In its group, the node `id` has been put at `key`. -/
def PutAt (gap : Gap) (f g : Forest π τ) (group : Group) (id : Uuid) (key : SortKey) : Prop :=
  ∃ members p, IsListing f group members ∧ gap.placeAt members id key = .ok p ∧
    IsListing g group
      (p.settled ((Target.at key).cut (members.filter (·.id ≠ id))).1 id
        ((Target.at key).cut (members.filter (·.id ≠ id))).2)

theorem SameOrder.iff_of_isListing {f g : Forest π τ} {group : Group} {before after : List Sibling}
    (hf : IsListing f group before) (hg : IsListing g group after) :
    SameOrder f g group ↔ after.map (·.id) = before.map (·.id) := by
  constructor
  · rintro ⟨before', after', hf', hg', hids⟩
    rw [hf.eq hf', hg.eq hg']
    exact hids
  · intro hids
    exact ⟨before, after, hf, hg, hids⟩

namespace PutAt

variable {gap : Gap} {f g k : Forest π τ} {group : Group} {id : Uuid} {key : SortKey}
  {members : List Sibling}

/-- There are keys for another time. What is respread then has been respread before. -/
theorem exists_placeAt (h : PutAt gap f g group id key) (hlist : IsListing g group members) :
    ∃ p, gap.placeAt members id key = .ok p ∧
      ((∃ respread, p = .respread respread) → ∀ m ∈ members, 0 < m.sort.val) := by
  obtain ⟨earlier, p, hearlier, hplace, hsettled⟩ := h
  obtain rfl := hlist.eq hsettled
  obtain ⟨p', hp', -⟩ := Gap.placeAt_again hearlier.ascending hplace
  refine ⟨p', hp', ?_⟩
  rintro ⟨respread, rfl⟩
  exact Gap.pos_of_placeAt_again hearlier.ascending hplace hp'

/-- Two calls in a row leave one order exactly when the key is steady in the first state. -/
theorem sameOrder_iff (h : PutAt gap f g group id key) (h' : PutAt gap g k group id key)
    (hlist : IsListing f group members) :
    SameOrder g k group ↔ gap.Steady (members.filter (·.id ≠ id)) key := by
  obtain ⟨earlier, p, hearlier, hplace, hsettled⟩ := h
  obtain rfl := hlist.eq hearlier
  obtain ⟨later, p', hlater, hplace', hsettled'⟩ := h'
  obtain rfl := hlater.eq hsettled
  obtain ⟨p'', hp'', hsteady⟩ := Gap.placeAt_again hearlier.ascending hplace
  obtain rfl := Except.ok.inj (hplace'.symm.trans hp'')
  exact (SameOrder.iff_of_isListing hsettled hsettled').trans hsteady

/-- After the first of three calls in a row the key is steady, so the other two leave one order. -/
theorem sameOrder {l : Forest π τ} (h : PutAt gap f g group id key)
    (h' : PutAt gap g k group id key) (h'' : PutAt gap k l group id key) : SameOrder k l group := by
  obtain ⟨members, p, hlist, hplace, hsettled⟩ := h
  exact (h'.sameOrder_iff h'' hsettled).2 (Gap.steady_placed hlist.ascending hplace)

end PutAt

/-! ## In memory -/

namespace Shelf

variable {s s' : Shelf} {id : Uuid} {key : SortKey} {now : Timestamp} {n : Node}

/-- The parent that a node has in its space. -/
def ownParent (id : Uuid) (space : Space) : Except StoreError (Option Uuid) :=
  (space.get id).map (·.parent)

theorem reorder_eq (id : Uuid) (key : SortKey) (now : Timestamp) (s : Shelf) :
    store.serve (.reorder id key) now s = s.relocate id (ownParent id) (.at key) now := rfl

theorem ownParent_eq (h : s.Agrees) {r : Record Node.Payload Timestamp}
    (hr : s.forest id = some r) : ownParent id (s.space r.space) = .ok r.parent := by
  obtain ⟨n, -, -, rfl⟩ := exists_node h hr
  rw [ownParent, Node.record_space, space_get_of_forest h hr]
  rfl

/-- A successful call has put the node at its key, in the group in which it was. -/
theorem of_reorder (h : s.Sound) (hs : store.serve (.reorder id key) now s = .ok (n, s')) :
    s'.forest id = some n.record ∧ (∃ r, s.forest id = some r ∧ n.group = r.group) ∧
      PutAt s.gap s.forest s'.forest n.group id key := by
  rw [reorder_eq] at hs
  have ho := h.outline.rooted
  obtain ⟨r, parent, p, hr, hfind, hl, hclear, hplace⟩ := of_relocate h.agrees ho hs
  obtain rfl : r.parent = parent := Except.ok.inj ((ownParent_eq h.agrees hr).symm.trans hfind)
  have heq := relocate_eq (.at key) now h.agrees ho hr hfind hl hclear
  rw [hplace] at heq
  obtain ⟨m, t, hrel, -, -, hm, hplaced⟩ := heq
  obtain ⟨rfl, rfl⟩ := Prod.mk.inj (Except.ok.inj (hs.symm.trans hrel))
  obtain rfl : r.id = id := ho.own_id hr
  -- the record is the one that was there, with another key and another time
  obtain ⟨sort, updated, -, -, hself⟩ := hplaced.self rfl
  have hgroup : n.group = r.group := by
    rw [hm] at hself
    rw [← Node.record_group, Option.some.inj hself]
    rfl
  refine ⟨hm, ⟨r, hr, hgroup⟩, ?_⟩
  rw [hgroup]
  exact ⟨_, p, isListing_siblings h.agrees _, mapError_eq_ok_iff.1 hplace, hplaced.isListing⟩

theorem exists_reorder (h : s.Sound) (hn : s.forest id = some n.record)
    (hplace : ∃ p, s.gap.placeAt ((s.space n.space).siblings n.parent) id key = .ok p)
    (now : Timestamp) : ∃ n' s', store.serve (.reorder id key) now s = .ok (n', s') := by
  have ho := h.outline.rooted
  have heq := relocate_eq (.at key) now h.agrees ho hn (ownParent_eq h.agrees hn)
    (ho.lodged hn) fun p hp => Ascent.not_within_parent hn hp
  obtain ⟨p, hp⟩ := hplace
  have hplaceIn : s.gap.placeIn ⟨n.space, n.parent⟩ ((s.space n.space).siblings n.parent) id
      (.at key) = .ok p := mapError_eq_ok_iff.2 hp
  rw [Node.record_space, Node.record_parent, hplaceIn] at heq
  obtain ⟨n', s', hrel, -⟩ := heq
  exact ⟨n', s', hrel⟩

/-- A second call succeeds where a first one has, and is about the same group. -/
theorem reorder_again (h : s.Sound) (hs : store.serve (.reorder id key) now s = .ok (n, s'))
    (now' : Timestamp) :
    ∃ n' s'', store.serve (.reorder id key) now' s' = .ok (n', s'') ∧ n'.group = n.group ∧
      PutAt s.gap s'.forest s''.forest n.group id key := by
  obtain ⟨hn, -, hput⟩ := of_reorder h hs
  have h' : s'.Sound := h.serve hs
  have hgap : s'.gap = s.gap := gap_serve _ now _ _ hs
  -- the second call meets the listing that the first has left, and so finds a key or respreads
  obtain ⟨p, hplace, -⟩ := hput.exists_placeAt (isListing_siblings h'.agrees n.group)
  obtain ⟨n', s'', hs'⟩ := exists_reorder h' hn ⟨p, hgap.symm ▸ hplace⟩ now'
  obtain ⟨-, ⟨r, hr, hgroup⟩, hput'⟩ := of_reorder h' hs'
  obtain rfl : n.record = r := Option.some.inj (hn.symm.trans hr)
  rw [hgroup, hgap] at hput'
  exact ⟨n', s'', hs', hgroup, hput'⟩

end Shelf

/-! ## In the table -/

namespace Table.Holds

variable {t t' : Table} {f : Forest Row.Payload String} {gap : Gap} {id : Uuid} {key : SortKey}
  {now : Timestamp} {n : Node} {l : Line}

/-- A successful call has put the node at its key, in the group in which it was, and has looked at
its row and at that of its parent. -/
theorem of_reorder (h : t.Holds f) (ho : IsOutline f)
    (hs : t.reorder gap id key now = .ok (n, t')) :
    ∃ l m p, f id = some l ∧ t.fetch id = .ok m ∧
      checkFetched m.kind m.space (t.fetchParent l.parent) = .ok () ∧
      gap.placeIn l.group (t.members l.group) id (.at key) = .ok p ∧
      t'.Holds (f.settle l.group (p.written id) now.toOffsetText) ∧ t'.fetch id = .ok n := by
  obtain ⟨m, hfetch, hrel⟩ := bind_eq_ok_iff.1 hs
  obtain ⟨l, p, hl, -, -, hplace, hholds, hfetch'⟩ := h.of_relocate ho hrel
  obtain ⟨-, -, hparent⟩ := h.place_of_fetch hl hfetch
  rw [hparent] at hrel hplace hholds
  refine ⟨l, m, p, hl, hfetch, ?_, hplace, hholds, hfetch'⟩
  obtain ⟨m', hm', hrel⟩ := bind_eq_ok_iff.1 hrel
  obtain rfl := Except.ok.inj (hfetch.symm.trans hm')
  obtain ⟨pn, hpn, hrel⟩ := bind_eq_ok_iff.1 hrel
  obtain ⟨u, hcheck, -⟩ := bind_eq_ok_iff.1 hrel
  exact checkFetched_eq_ok_iff.2 ⟨pn, hpn, mapError_eq_ok_iff.1 hcheck⟩

/-- A group with positive keys is always respread within itself: its rows are parked below zero. -/
theorem writeKeys_of_pos (h : t.Holds f) (hk : KeysDistinct f) {group : Group} {mover : Uuid}
    {ids : List Uuid} {respread : List Sibling} (hspread : gap.spread ids = .ok respread)
    (hr : Rewrites f group respread (some ⟨mover, group.parent⟩))
    (hpos : ∀ m ∈ t.members group, 0 < m.sort.val) (now : Timestamp) :
    ∃ t', t.writeKeys group respread (some ⟨mover, group.parent⟩) now = .ok t' ∧
      t'.Holds (f.settle group respread now.toOffsetText) := by
  rcases h.writeKeys_eq hk hr now with ⟨t', ht', hh', -⟩ | ⟨hmany, hnone, -⟩
  · exact ⟨t', ht', hh'⟩
  · -- the keys that are written fit, and so does their number
    have hcount : respread.length ≤ 2 ^ 63 := by
      have hlength := congrArg List.length (Gap.ids_spreadFrom? (Gap.spread_eq_ok hspread))
      rw [List.length_map] at hlength
      have hids : ids ≠ [] := by
        rintro rfl
        rw [hlength, List.length_nil] at hmany
        omega
      have hfits := Gap.fits_of_spreadFrom? hids (Gap.spread_eq_ok hspread)
      rw [Nat.zero_add, ← hlength] at hfits
      have hle : (respread.length : Int) * 1 ≤ respread.length * gap.size.val :=
        Int.mul_le_mul_of_nonneg_left gap.size_pos (Int.natCast_nonneg _)
      omega
    -- the keys in use are those that are written and those of the members, and all are positive
    have hused : ∀ k ∈ t.inUse group respread (some ⟨mover, group.parent⟩), 0 ≤ k.val := by
      intro k hk
      unfold inUse at hk
      dsimp only at hk
      rw [if_pos rfl, List.append_nil] at hk
      obtain ⟨m, hm, rfl⟩ := List.mem_map.1 hk
      rcases List.mem_append.1 hm with hm | hm
      · exact Int.le_of_lt (Gap.pos_of_spreadFrom? (Gap.spread_eq_ok hspread) m hm)
      · exact Int.le_of_lt (hpos m hm)
    obtain ⟨start, hstart⟩ := freeRun?_isSome_of_nonneg hcount hused
    rw [hnone] at hstart
    cases hstart

/-- A placement within a group is written, if a group that is respread has positive keys. -/
theorem exists_writeKeys_of_placeIn (h : t.Holds f) (ho : IsOutline f) (hl : f l.id = some l)
    {p : Placement} (hplace : gap.placeIn l.group (t.members l.group) l.id (.at key) = .ok p)
    (hpos : (∃ respread, p = .respread respread) → ∀ m ∈ t.members l.group, 0 < m.sort.val)
    (now : Timestamp) : ∃ t', t.writeKeys l.group (p.written l.id) (some ⟨l.id, l.parent⟩) now =
        .ok t' ∧ t'.Holds (f.settle l.group (p.written l.id) now.toOffsetText) := by
  have hplacing := Placing.of_placeIn (h.isListing_members ho.keys l.group) hplace
  have hr := rewrites_written hl rfl hplacing
  cases p with
  | key sort =>
    obtain ⟨t', ht', hh', -⟩ := h.writeKeys_lone hr now (Nat.le_refl 1)
    exact ⟨t', ht', hh'⟩
  | respread respread =>
    obtain ⟨ids, hspread⟩ := Gap.spread_of_placeAt (mapError_eq_ok_iff.1 hplace)
    exact h.writeKeys_of_pos ho.keys hspread hr (hpos ⟨respread, rfl⟩) now

/-- A call that meets what a call before it has left succeeds. -/
theorem exists_reorder (h : t.Holds f) (ho : IsOutline f) (hl : f id = some l)
    (hfetch : t.fetch id = .ok n)
    (hcheck : checkFetched n.kind n.space (t.fetchParent l.parent) = .ok ())
    {p : Placement} (hplace : gap.placeAt (t.members l.group) id key = .ok p)
    (hpos : (∃ respread, p = .respread respread) → ∀ m ∈ t.members l.group, 0 < m.sort.val)
    (hyear : now.HasPlainYear) : ∃ n' t', t.reorder gap id key now = .ok (n', t') := by
  obtain ⟨hspace, hkind, hparent⟩ := h.place_of_fetch hl hfetch
  have hclimb : t.checkClimb n id l.parent = .ok () := by
    cases hp : l.parent with
    | none => rfl
    | some q =>
      obtain ⟨r, hr, hrs, -⟩ := (ho.rooted.lodged hl).exists_parent hp
      exact (h.checkClimb_eq_ok_iff ho.rooted hr (hrs.trans hspace.symm)).2
        (Ascent.not_within_parent hl hp)
  obtain ⟨rfl, -⟩ := h.line hl
  have hplaceIn : gap.placeIn l.group (t.members l.group) l.id (.at key) = .ok p :=
    mapError_eq_ok_iff.2 hplace
  obtain ⟨t', hwrite, hholds⟩ := h.exists_writeKeys_of_placeIn ho hl hplaceIn hpos now
  -- the row has been read, so it can be read with its new key too
  obtain ⟨q, hq, hread⟩ := h.of_fetch hfetch
  obtain rfl := Option.some.inj (hl.symm.trans hq)
  have hplacing := Placing.of_placeIn (h.isListing_members ho.keys l.group) hplaceIn
  obtain ⟨sort, updated, -, hstamp, hself⟩ :=
    (placed_settle hl rfl hplacing now.toOffsetText).self rfl
  obtain ⟨n', hn'⟩ :=
    Record.keeps_legible hyear l l.group.parent sort updated ⟨n, hread⟩ hstamp
  have hfetch' : t'.fetch l.id = .ok n' := by
    rw [hholds.fetch_some hself, hn']
    rfl
  refine ⟨n', t', ?_⟩
  have hrel := h.relocate_eq_bind hl hfetch hcheck hclimb gap (.at key) now
  rw [show (⟨l.space, l.parent⟩ : Group) = l.group from rfl, hplaceIn, bind_ok, hwrite, bind_ok,
    hfetch', bind_ok] at hrel
  rw [reorder, hfetch, bind_ok, hparent]
  exact hrel

/-- A second call succeeds where a first one has, and is about the same group. -/
theorem reorder_again (h : t.Holds f) (ho : IsOutline f)
    (hs : t.reorder gap id key now = .ok (n, t')) :
    ∃ g, t'.Holds g ∧ IsOutline g ∧ PutAt gap f g n.group id key ∧
      (∃ l l', f id = some l ∧ g id = some l' ∧ n.group = l.group ∧ n.group = l'.group) ∧
      ∀ now' : Timestamp, now'.HasPlainYear →
        ∃ n' t'', t'.reorder gap id key now' = .ok (n', t'') := by
  obtain ⟨l, m, p, hl, hfetch, hcheck, hplaceIn, hholds, hfetch'⟩ := h.of_reorder ho hs
  obtain ⟨rfl, -⟩ := h.line hl
  have hplacing := Placing.of_placeIn (h.isListing_members ho.keys l.group) hplaceIn
  have hplaced := placed_settle hl rfl hplacing now.toOffsetText
  -- the node stays below its parent, so the outline stays one
  have ho' : IsOutline (f.settle l.group (p.written l.id) now.toOffsetText) :=
    hplaced.isOutline ho rfl (ho.rooted.lodged hl)
      (fun q hq => Ascent.not_within_parent hl hq) fun old hold => by
        rw [hl] at hold
        obtain rfl := Option.some.inj hold
        exact ⟨rfl, rfl⟩
  obtain ⟨sort, updated, -, -, hself⟩ := hplaced.self rfl
  obtain ⟨hspace, hkind, hparent⟩ := hholds.place_of_fetch hself hfetch'
  have hgroup : n.group = l.group := by
    rw [Node.group, hspace, hparent]
    rfl
  have hput : PutAt gap f _ l.group l.id key :=
    ⟨_, p, h.isListing_members ho.keys l.group, mapError_eq_ok_iff.1 hplaceIn, hplaced.isListing⟩
  refine ⟨_, hholds, ho', hgroup ▸ hput, ⟨l, _, hl, hself, hgroup, hgroup⟩, ?_⟩
  intro now' hyear
  obtain ⟨p', hplace', hpos⟩ :=
    hput.exists_placeAt (hholds.isListing_members ho'.keys l.group)
  refine hholds.exists_reorder ho' hself hfetch' ?_ hplace' hpos hyear
  -- the parent is read again, from the row that the first call has read and left alone
  obtain ⟨hmspace, hmkind, -⟩ := h.place_of_fetch hl hfetch
  show checkFetched n.kind n.space (t'.fetchParent l.parent) = .ok ()
  rw [hspace, hkind, fetchParent_of_placed h hholds ho.rooted (ho.rooted.lodged hl)
    (ho.rooted.parent_ne_self hl) hplaced]
  rwa [hmspace, hmkind] at hcheck

end Table.Holds

namespace Database

variable {db db' : Database} {id : Uuid} {key : SortKey} {now : Timestamp} {n : Node}

/-- A second call succeeds where a first one has, and is about the same group. -/
theorem reorder_again (h : db.Sound) (hs : store.serve (.reorder id key) now db = .ok (n, db')) :
    PutAt db.gap db.rows.forest db'.rows.forest n.group id key ∧
      ∀ now' : Timestamp, now'.HasPlainYear → ∃ n' db'',
        store.serve (.reorder id key) now' db' = .ok (n', db'') ∧ n'.group = n.group := by
  obtain ⟨hrows, hgap⟩ := of_writing hs
  have hrows : db.rows.reorder db.gap id key now = .ok (n, db'.rows) := hrows
  obtain ⟨g, hholds, ho', hput, ⟨-, l, -, hl, -, hgroup⟩, hagain⟩ :=
    h.holds.reorder_again h.outline hrows
  rw [hholds.forest_eq]
  refine ⟨hput, ?_⟩
  intro now' hyear
  obtain ⟨n', rows, hrows'⟩ := hagain now' hyear
  -- both answers are in the group of the record that the first call has left
  obtain ⟨-, -, -, -, ⟨l', -, hl', -, hgroup', -⟩, -⟩ := hholds.reorder_again ho' hrows'
  obtain rfl := Option.some.inj (hl.symm.trans hl')
  rw [← hgap] at hrows'
  have hserve : store.serve (.reorder id key) now' db' =
      db'.writing (db'.rows.reorder db'.gap id key now') := rfl
  rw [hrows'] at hserve
  exact ⟨n', _, hserve, hgroup'.trans hgroup.symm⟩

end Database

/-! ## After any run -/

/-- What a second and a third call do to the group of the node. The second leaves the order of the
first exactly when the key was steady before the first, the third always leaves that of the
second. -/
structure ReorderedAgain (gap : Gap) (f g k l : Forest π τ) (group : Group) (id : Uuid)
    (key : SortKey) : Prop where
  second : ∃ members, IsListing f group members ∧
    (SameOrder g k group ↔ gap.Steady (members.filter (·.id ≠ id)) key)
  third : SameOrder k l group

theorem PutAt.reorderedAgain {gap : Gap} {f g k l : Forest π τ} {group : Group} {id : Uuid}
    {key : SortKey} (h : PutAt gap f g group id key) (h' : PutAt gap g k group id key)
    (h'' : PutAt gap k l group id key) : ReorderedAgain gap f g k l group id key := by
  have hput := h
  obtain ⟨members, p, hlist, -⟩ := hput
  exact ⟨⟨members, hlist, h.sameOrder_iff h' hlist⟩, h.sameOrder h' h''⟩

/-- After every run, and in both stores: if a node has been put at a key of its group, it can be put
there a second and a third time. The rows of the table need times that can be read back. -/
theorem reorder_again_run (gap : Gap) (calls : List (StoreCall × Timestamp)) (id : Uuid)
    (key : SortKey) (now now' now'' : Timestamp) :
    (let s := Shelf.store.run calls (.empty gap)
      ∀ n s', Shelf.store.serve (.reorder id key) now s = .ok (n, s') →
        ∃ n' s'' n'' s3, Shelf.store.serve (.reorder id key) now' s' = .ok (n', s'') ∧
          Shelf.store.serve (.reorder id key) now'' s'' = .ok (n'', s3) ∧
          ReorderedAgain gap s.forest s'.forest s''.forest s3.forest n.group id key) ∧
    (let db := Database.store.run calls (.empty gap)
      ∀ n db', Database.store.serve (.reorder id key) now db = .ok (n, db') →
        now'.HasPlainYear → now''.HasPlainYear →
        ∃ n' db'' n'' db3, Database.store.serve (.reorder id key) now' db' = .ok (n', db'') ∧
          Database.store.serve (.reorder id key) now'' db'' = .ok (n'', db3) ∧
          ReorderedAgain gap db.rows.forest db'.rows.forest db''.rows.forest db3.rows.forest
            n.group id key) := by
  constructor
  · intro s n s' hs
    have h : s.Sound := Shelf.sound_run gap calls
    have hgap : s.gap = gap := Shelf.gap_run gap calls
    have h' : s'.Sound := h.serve hs
    have hgap' : s'.gap = gap := (Shelf.gap_serve _ now _ _ hs).trans hgap
    -- each call is the first for the next one
    obtain ⟨-, -, hput⟩ := Shelf.of_reorder h hs
    obtain ⟨n', s'', hs', hn', hput'⟩ := Shelf.reorder_again h hs now'
    obtain ⟨n'', s3, hs'', -, hput''⟩ := Shelf.reorder_again h' hs' now''
    rw [hgap] at hput hput'
    rw [hgap', hn'] at hput''
    exact ⟨n', s'', n'', s3, hs', hs'', hput.reorderedAgain hput' hput''⟩
  · intro db n db' hs hyear' hyear''
    have h : db.Sound := Database.sound_run gap calls
    have hgap : db.gap = gap := Database.gap_run gap calls
    have h' : db'.Sound := h.serve hs
    have hgap' : db'.gap = gap := (Database.gap_serve hs).trans hgap
    obtain ⟨hput, hagain⟩ := Database.reorder_again h hs
    obtain ⟨n', db'', hs', hn'⟩ := hagain now' hyear'
    obtain ⟨hput', hagain'⟩ := Database.reorder_again h' hs'
    obtain ⟨n'', db3, hs'', hn''⟩ := hagain' now'' hyear''
    obtain ⟨hput'', -⟩ := Database.reorder_again (h'.serve hs') hs''
    rw [hgap] at hput
    rw [hgap', hn'] at hput'
    rw [(Database.gap_serve hs').trans hgap', hn'', hn'] at hput''
    exact ⟨n', db'', n'', db3, hs', hs'', hput.reorderedAgain hput' hput''⟩

namespace Sample

/-- Two pages at the top of their space. -/
def keyed : List (StoreCall × Timestamp) :=
  [(.create { page 2 none with sort := ⟨20, by decide, by decide⟩ }, time),
    (.create { page 3 none with sort := ⟨5000, by decide, by decide⟩ }, time)]

/-- The first of them is put at the key that the other one holds. -/
def reorder : StoreCall := .reorder (uuid 2) ⟨5000, by decide, by decide⟩

theorem members_keyed :
    (Database.store.run keyed (.empty .standard)).rows.members ⟨uuid 1, none⟩ =
      [⟨uuid 2, ⟨20, by decide, by decide⟩⟩, ⟨uuid 3, ⟨5000, by decide, by decide⟩⟩] := by
  -- the rows have been stored in the order of their keys
  rw [Table.members, Table.select, List.mergeSort_of_pairwise (by decide +kernel)]
  decide +kernel

/-- In a group of two positive keys there is room, so the table takes the key. -/
theorem exists_reorder_keyed :
    ∃ n db', Database.store.serve reorder time (Database.store.run keyed (.empty .standard)) =
      .ok (n, db') ∧ n.group = ⟨uuid 1, none⟩ := by
  have h := Database.sound_run .standard keyed
  obtain ⟨l, hl, hplace⟩ := Option.map_eq_some_iff.1 (show
    ((Database.store.run keyed (.empty .standard)).rows.forest (uuid 2)).map
      (fun l => (l.group, l.kind)) = some (⟨uuid 1, none⟩, .page) by decide +kernel)
  obtain ⟨hgroup, hkind⟩ := Prod.mk.inj hplace
  obtain ⟨n, hfetch⟩ := exists_eq_ok_of_isOk (show
    ((Database.store.run keyed (.empty .standard)).rows.fetch (uuid 2)).isOk = true by
      decide +kernel)
  have hcheck : checkFetched n.kind n.space
      ((Database.store.run keyed (.empty .standard)).rows.fetchParent l.parent) = .ok () := by
    rw [(h.holds.place_of_fetch hl hfetch).2.1, hkind, show l.parent = none from
      congrArg Group.parent hgroup]
    rfl
  have hmembers := members_keyed
  rw [← hgroup] at hmembers
  -- the key is free or the two members can be respread
  obtain ⟨p, hp⟩ : ∃ p, Gap.standard.placeAt
      ((Database.store.run keyed (.empty .standard)).rows.members l.group) (uuid 2)
        ⟨5000, by decide, by decide⟩ = .ok p := by
    rw [hmembers]
    exact Gap.exists_placeAt (by decide) (by decide) _
  obtain ⟨n', rows, hrows⟩ := h.holds.exists_reorder h.outline hl hfetch hcheck hp
    (fun _ => by rw [hmembers]; decide) (show time.HasPlainYear by decide)
  -- what the rows accept is what the store answers
  have hserve : Database.store.serve reorder time (Database.store.run keyed (.empty .standard)) =
      (Database.store.run keyed (.empty .standard)).writing
        ((Database.store.run keyed (.empty .standard)).rows.reorder
          (Database.store.run keyed (.empty .standard)).gap (uuid 2)
            ⟨5000, by decide, by decide⟩ time) := rfl
  rw [Database.gap_run, hrows] at hserve
  obtain ⟨-, -, -, -, ⟨l', -, hl', -, hgroup', -⟩, -⟩ := h.holds.reorder_again h.outline hrows
  obtain rfl := Option.some.inj (hl.symm.trans hl')
  exact ⟨n', _, hserve, hgroup'.trans hgroup⟩

end Sample

/-- The first call respreads the group with the first page in front of the other one. Nobody holds
its key then, and it is above all others, so the second call puts the page behind the other one. -/
theorem reorder_again_run_moves :
    (∃ n s' n' s'', Shelf.store.serve Sample.reorder Sample.time
        (Shelf.store.run Sample.keyed (.empty .standard)) = .ok (n, s') ∧
      Shelf.store.serve Sample.reorder Sample.time s' = .ok (n', s'') ∧
      ¬SameOrder s'.forest s''.forest ⟨Sample.uuid 1, none⟩) ∧
    (∃ n db' n' db'', Database.store.serve Sample.reorder Sample.time
        (Database.store.run Sample.keyed (.empty .standard)) = .ok (n, db') ∧
      Database.store.serve Sample.reorder Sample.time db' = .ok (n', db'') ∧
      ¬SameOrder db'.rows.forest db''.rows.forest ⟨Sample.uuid 1, none⟩) := by
  obtain ⟨hshelf, hrows⟩ := reorder_again_run .standard Sample.keyed (Sample.uuid 2)
    ⟨5000, by decide, by decide⟩ Sample.time Sample.time Sample.time
  constructor
  · obtain ⟨⟨n, s'⟩, hs, hgroup⟩ := map_eq_ok_iff.1 (show
      (Shelf.store.serve Sample.reorder Sample.time
        (Shelf.store.run Sample.keyed (.empty .standard))).map (fun a => Node.group a.1) =
        .ok ⟨Sample.uuid 1, none⟩ by decide +kernel)
    obtain ⟨n', s'', -, -, hs', -, ⟨members, hlist, hsecond⟩, -⟩ := hshelf n s' hs
    rw [hgroup] at hlist hsecond
    refine ⟨n, s', n', s'', hs, hs', mt hsecond.1 ?_⟩
    rw [hlist.eq (Shelf.isListing_siblings (Shelf.sound_run .standard Sample.keyed).agrees _)]
    decide +kernel
  · obtain ⟨n, db', hs, hgroup⟩ := Sample.exists_reorder_keyed
    obtain ⟨n', db'', -, -, hs', -, ⟨members, hlist, hsecond⟩, -⟩ :=
      hrows n db' hs (by decide) (by decide)
    rw [hgroup] at hlist hsecond
    refine ⟨n, db', n', db'', hs, hs', mt hsecond.1 ?_⟩
    have h := Database.sound_run .standard Sample.keyed
    rw [hlist.eq (h.holds.isListing_members h.outline.keys _), Sample.members_keyed]
    decide

end Outline
