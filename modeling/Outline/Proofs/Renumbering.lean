import Outline.Proofs.Arrangement.Table
import Outline.Proofs.Placement.Room
import Outline.Proofs.Reorder

/-!
# Renumbering a group

A renumbering gives the members of a group the keys `gap`, `2 * gap`, … in their present order. The
old keys may be anywhere, and some of them may be among the new ones, held by other members. What is
shown here starts from the listing of the group before the call and says all of the state after it:
the members stand in the same order and have those keys, their other columns are as before except
for the time, and no other node is touched.

The order is kept, so a second renumbering finds the keys that it is going to give. It does not
follow from this that it writes nothing, only that nothing it writes changes a place.

The table has to find room to park its rows on, and has to read back what it has written. So there
the rows are readable and few, and the clock shows a year that its text can hold.

Main results:

* `Gap.compact_eq_ok_iff` — for which groups there are keys;
* `Spaced.samePlaces` — a group that is spaced twice is spaced once;
* `Shelf.RenumberFit.once`, `Database.RenumberFit.once` — one call to either store;
* `renumbers_run` — two calls, after every run.
-/

namespace Outline

open Sibling (Ascending)

variable {π τ : Type} {gap : Gap} {group : Group}

/-! ## The keys of the allocator -/

namespace Gap

variable {siblings members : List Sibling} (ha : Ascending siblings)
include ha

theorem compact_eq_ok_iff :
    (∃ members, gap.compact siblings = .ok members) ↔
      (siblings.length : Int) * gap.size.val < 2 ^ 63 := by
  rw [compact, Sibling.sorted_of_ascending ha]
  cases siblings with
  -- the keys of no members always fit
  | nil => exact iff_of_true ⟨[], rfl⟩ (by simp)
  | cons m rest => rw [spread_ok_iff (by simp), List.length_map]

theorem compact_eq_error {cause : Exhausted} (h : gap.compact siblings = .error cause) :
    cause = ⟨siblings.length, gap.size.val⟩ := by
  rw [compact, Sibling.sorted_of_ascending ha] at h
  cases siblings with
  | nil => cases h
  | cons m rest =>
    rw [← List.length_map Sibling.id]
    exact ((spread_error_iff (by simp)).1 h).2

/-- A renumbered group has the multiples of the gap in turn. -/
theorem keys_compact (h : gap.compact siblings = .ok members) :
    members.map (·.sort.val) =
      (List.range' 1 siblings.length).map fun i : Nat => (i : Int) * gap.size.val := by
  rw [compact, Sibling.sorted_of_ascending ha] at h
  rw [keys_spreadFrom? (spread_eq_ok h), List.length_map]

end Gap

/-! ## A group that is spaced out -/

/-- A group listed as `before` has come to be listed as `after`: in the same order, with the keys
`gap`, `2 * gap`, …. Nothing else has changed but the times of its members. -/
structure Spaced (f g : Forest π τ) (gap : Gap) (group : Group) (before after : List Sibling) :
    Prop where
  old    : IsListing f group before
  new    : IsListing g group after
  ids    : after.map (·.id) = before.map (·.id)
  keys   : after.map (·.sort.val) =
             (List.range' 1 before.length).map fun i : Nat => (i : Int) * gap.size.val
  member : ∀ {id r}, f id = some r → r.group = group →
             ∃ sort updated, g id = some { r with sort := sort, updated := updated }
  frame  : ∀ {id}, (∀ r, f id = some r → r.group ≠ group) → g id = f id

/-- The same nodes below the same parents with the same keys. -/
def SamePlaces (f g : Forest π τ) : Prop :=
  ∀ id, (f id).map (fun r => (r.shape, r.sort)) = (g id).map fun r => (r.shape, r.sort)

theorem Rekeyed.spaced {f g : Forest π τ} {before members : List Sibling} {stamp : τ}
    (h : Rekeyed f g group members stamp) (hlist : IsListing f group before)
    (hm : gap.compact before = .ok members) : Spaced f g gap group before members where
  old := hlist
  new := h.isListing
  ids := (Gap.compact_eq_ok hlist.ascending hm).1
  keys := Gap.keys_compact hlist.ascending hm
  member hr hgroup := by
    obtain ⟨sort, updated, -, -, hg⟩ := h.member hr hgroup
    exact ⟨sort, updated, hg⟩
  frame := h.frame

/-- Members with the same identifiers and keys, one by one, are the same. -/
theorem Sibling.eq_of_columns {a b : List Sibling} (hids : a.map (·.id) = b.map (·.id))
    (hkeys : a.map (·.sort.val) = b.map (·.sort.val)) : a = b := by
  induction a generalizing b with
  | nil => exact (List.map_eq_nil_iff.1 hids.symm).symm
  | cons m rest ih =>
    cases b with
    | nil => cases hids
    | cons m' rest' =>
      obtain ⟨hid, hids'⟩ := List.cons.inj hids
      obtain ⟨hkey, hkeys'⟩ := List.cons.inj hkeys
      obtain rfl : m = m' := by
        obtain ⟨id, sort⟩ := m
        obtain rfl : id = m'.id := hid
        obtain rfl : sort = m'.sort := SortKey.ext_val hkey
        rfl
      rw [ih hids' hkeys']

namespace Spaced

variable {f g k : Forest π τ} {before after again : List Sibling}

/-- The keys depend on the order alone, and the order is kept. -/
theorem after_eq (h : Spaced f g gap group before after) (h' : Spaced g k gap group after again) :
    again = after := by
  refine Sibling.eq_of_columns h'.ids ?_
  have hlen : after.length = before.length := by simpa using congrArg List.length h.ids
  rw [h'.keys, h.keys, hlen]

theorem samePlaces (h : Spaced f g gap group before after)
    (h' : Spaced g k gap group after again) : SamePlaces g k := by
  intro id
  by_cases hin : ∃ r, g id = some r ∧ r.group = group
  · obtain ⟨r, hr, hgroup⟩ := hin
    obtain ⟨sort, updated, hk⟩ := h'.member hr hgroup
    -- the new key is in the new listing, which is the old one
    have hmem : ⟨id, sort⟩ ∈ after := by
      rw [← h.after_eq h']
      exact h'.new.mem_iff.2 ⟨_, hk, hgroup, rfl⟩
    obtain ⟨q, hq, -, hsort⟩ := h.new.mem_iff.1 hmem
    obtain rfl : r = q := Option.some.inj (hr.symm.trans hq)
    obtain rfl : r.sort = sort := hsort
    rw [hr, hk]
    rfl
  · rw [h'.frame fun r hr hgroup => hin ⟨r, hr, hgroup⟩]

end Spaced

/-! ## Calls to a store -/

/-- The group of the roots of a space, or a group below a node that is stored in it. -/
def Forest.Hosts (f : Forest π τ) (group : Group) : Prop :=
  ∀ p, group.parent = some p → ∃ r, f p = some r ∧ r.space = group.space

theorem Spaced.hosts {f g : Forest π τ} {before after : List Sibling}
    (h : Spaced f g gap group before after) (hf : f.Hosts group) : g.Hosts group := by
  intro p hp
  obtain ⟨r, hr, hspace⟩ := hf p hp
  by_cases hgroup : r.group = group
  · obtain ⟨sort, updated, hg⟩ := h.member hr hgroup
    exact ⟨_, hg, hspace⟩
  · refine ⟨r, ?_, hspace⟩
    rw [h.frame fun q hq => ?_, hr]
    rwa [Option.some.inj (hq.symm.trans hr)]

section Store

variable {σ : Type} (store : Store σ) (forest : σ → Forest π τ) (gap : Gap) (group : Group)

/-- A group that is listed as `before` has been renumbered with the answer `ns`, which is how it is
listed then. -/
structure Renumbered (now : Timestamp) (s s' : σ) (before ns : List Node) : Prop where
  served : store.serve (.renumber group) now s = .ok (ns, s')
  spaced : Spaced (forest s) (forest s') gap group (before.map Node.sibling) (ns.map Node.sibling)
  listed : store.serve (.list group) now s' = .ok (ns, s')

/-- What one renumbering comes to. Where there are no keys for all members it is refused. -/
structure RenumbersOnce (now : Timestamp) (s : σ) (fit : σ → Prop) (before : List Node) :
    Prop where
  listed  : store.serve (.list group) now s = .ok (before, s)
  listing : IsListing (forest s) group (before.map Node.sibling)
  outcome : if (before.length : Int) * gap.size.val < 2 ^ 63 then
              ∃ ns s', Renumbered store forest gap group now s s' before ns ∧ fit s'
            else store.serve (.renumber group) now s =
              .error (.exhausted group ⟨before.length, gap.size.val⟩)

/-- What two renumberings come to: the first succeeds exactly when there are keys for all members,
and then the second succeeds and leaves every place as it is. -/
structure RenumbersTwice (now later : Timestamp) (s : σ) (before : List Node) : Prop where
  listed  : store.serve (.list group) now s = .ok (before, s)
  listing : IsListing (forest s) group (before.map Node.sibling)
  accepts : (∃ answered, store.serve (.renumber group) now s = .ok answered) ↔
              (before.length : Int) * gap.size.val < 2 ^ 63
  first   : ∀ {ns s'}, store.serve (.renumber group) now s = .ok (ns, s') →
              Renumbered store forest gap group now s s' before ns
  second  : ∀ {ns s'}, store.serve (.renumber group) now s = .ok (ns, s') →
              ∃ ns' s'', store.serve (.renumber group) later s' = .ok (ns', s'') ∧
                ns'.map Node.sibling = ns.map Node.sibling ∧ SamePlaces (forest s') (forest s'')

variable {store forest gap group}

theorem RenumbersOnce.renumbered {now : Timestamp} {s : σ} {fit : σ → Prop} {before : List Node}
    (h : RenumbersOnce store forest gap group now s fit before)
    (hfits : (before.length : Int) * gap.size.val < 2 ^ 63) :
    ∃ ns s', Renumbered store forest gap group now s s' before ns ∧ fit s' := by
  have houtcome := h.outcome
  rwa [if_pos hfits] at houtcome

/-- A fit state becomes a fit state, so the second call is a first one again. -/
theorem RenumbersOnce.twice {now later : Timestamp} {s : σ} {fit : σ → Prop} {before : List Node}
    (h : RenumbersOnce store forest gap group now s fit before)
    (hlater : ∀ {s'}, fit s' → ∃ ns, RenumbersOnce store forest gap group later s' fit ns) :
    RenumbersTwice store forest gap group now later s before := by
  have houtcome := h.outcome
  split at houtcome
  · next hfits =>
    obtain ⟨ns, s', hdone, hfit⟩ := houtcome
    refine ⟨h.listed, h.listing, iff_of_true ⟨_, hdone.served⟩ hfits, fun hs => ?_, fun hs => ?_⟩
    · obtain ⟨rfl, rfl⟩ := Prod.mk.inj (Except.ok.inj (hdone.served.symm.trans hs))
      exact hdone
    · obtain ⟨rfl, rfl⟩ := Prod.mk.inj (Except.ok.inj (hdone.served.symm.trans hs))
      obtain ⟨listed, hagain⟩ := hlater hfit
      -- the group is as long as before, so its keys fit again
      have hsame : listed.map Node.sibling = ns.map Node.sibling :=
        hagain.listing.eq hdone.spaced.new
      have hlen : listed.length = before.length := by
        simpa using (congrArg List.length hsame).trans (by
          simpa using congrArg List.length hdone.spaced.ids)
      obtain ⟨ns', s'', hdone', -⟩ := hagain.renumbered (hlen.symm ▸ hfits)
      have hspaced' := hsame ▸ hdone'.spaced
      exact ⟨ns', s'', hdone'.served, hdone.spaced.after_eq hspaced',
        hdone.spaced.samePlaces hspaced'⟩
  · next hfull =>
    have hnot : ∀ answered, store.serve (.renumber group) now s ≠ .ok answered := by
      intro answered hs
      rw [houtcome] at hs
      cases hs
    exact ⟨h.listed, h.listing, iff_of_false (fun ⟨_, hs⟩ => hnot _ hs) hfull,
      fun hs => absurd hs (hnot _), fun hs => absurd hs (hnot _)⟩

end Store

namespace Shelf

/-- A shelf with the gap, in which the group can be reached. -/
structure RenumberFit (gap : Gap) (group : Group) (s : Shelf) : Prop where
  sound : s.Sound
  gap   : s.gap = gap
  hosts : s.forest.Hosts group

theorem RenumberFit.once {s : Shelf} (h : s.RenumberFit gap group) (now : Timestamp) :
    ∃ before, RenumbersOnce store forest gap group now s (RenumberFit gap group) before := by
  obtain ⟨hsound, rfl, hhosts⟩ := h
  have ha := hsound.agrees
  obtain ⟨parent, hget⟩ := (exists_getParent_iff ha group).2 hhosts
  have hlist := isListing_siblings ha group
  have hnodes := Space.map_sibling_children (ha.space group.space) group.parent
  have hserve : store.serve (.renumber group) now s = s.renumber group now := rfl
  have hlistServe : ∀ t : Shelf, store.serve (.list group) now t = t.reading (t.list group) :=
    fun _ => rfl
  refine ⟨(s.space group.space).children group.parent, ?_, by rwa [hnodes], ?_⟩
  · rw [hlistServe, list_eq hget]
    rfl
  have hlen := congrArg List.length hnodes
  rw [List.length_map] at hlen
  rw [hlen]
  split
  · next hfits =>
    obtain ⟨members, hm⟩ := (Gap.compact_eq_ok_iff hlist.ascending).2 hfits
    obtain ⟨s', hs, ha', hgap, hrekeyed⟩ := renumber_eq now ha hget hm
    have hspaced := hrekeyed.spaced hlist hm
    obtain ⟨parent', hget'⟩ := (exists_getParent_iff ha' group).2 (hspaced.hosts hhosts)
    have hnodes' := Space.map_sibling_children (ha'.space group.space) group.parent
    refine ⟨_, s', ⟨hs, ?_, ?_⟩, ⟨ha', hrekeyed.isOutline hsound.outline⟩, hgap,
      hspaced.hosts hhosts⟩
    · rw [hnodes, hnodes', (isListing_siblings ha' group).eq hrekeyed.isListing]
      exact hspaced
    -- the answer is read off the new space, and so is a listing
    · rw [hlistServe, list_eq hget']
      rfl
  · next hfull =>
    cases hm : s.gap.compact ((s.space group.space).siblings group.parent) with
    | ok members => exact absurd ((Gap.compact_eq_ok_iff hlist.ascending).1 ⟨_, hm⟩) hfull
    | error cause =>
      rw [hserve, renumber_exhausted hget hm, Gap.compact_eq_error hlist.ascending hm]

end Shelf

/-- Rows of the same nodes are as many. -/
theorem Table.Holds.length_eq {t t' : Table} {f g : Forest Row.Payload String} (h : t.Holds f)
    (h' : t'.Holds g) (hfg : SameShape f g) : t'.length = t.length := by
  have hsub : ∀ {t t' : Table} {f g : Forest Row.Payload String}, t.Holds f → t'.Holds g →
      SameShape f g → t.map (·.id) ⊆ t'.map (·.id) := by
    intro t t' f g h h' hfg text htext
    obtain ⟨r, hr, rfl⟩ := List.mem_map.1 htext
    obtain ⟨l, hl, rfl⟩ := h.row hr
    obtain ⟨q, hq, hid, -⟩ := hfg.exists_of_some hl
    exact List.mem_map.2 ⟨q.row, (h'.line hq).2, congrArg Uuid.toText hid⟩
  have hle := (h'.nodup.subperm (hsub h' h hfg.symm)).length_le
  have hge := (h.nodup.subperm (hsub h h' hfg)).length_le
  rw [List.length_map, List.length_map] at hle hge
  exact Nat.le_antisymm hle hge

namespace Database

/-- A table with the gap, in which the group can be reached, and whose rows are few and can be
read. -/
structure RenumberFit (gap : Gap) (group : Group) (db : Database) : Prop where
  sound    : db.Sound
  gap      : db.gap = gap
  hosts    : db.forest.Hosts group
  readable : db.rows.Readable
  roomy    : db.rows.Roomy

theorem RenumberFit.once {db : Database} (h : db.RenumberFit gap group) {now : Timestamp}
    (hyear : now.HasPlainYear) :
    ∃ before, RenumbersOnce store forest gap group now db (RenumberFit gap group) before := by
  obtain ⟨hsound, rfl, hhosts, hr, hroom⟩ := h
  have ht := hsound.holds
  obtain ⟨parent, hfetch⟩ := (ht.exists_fetchParent_iff hr group.parent).2 fun p hp => by
    obtain ⟨l, hl, -⟩ := hhosts p hp
    exact ⟨l, hl⟩
  obtain ⟨before, hbefore⟩ := ht.list_of_readable hr hhosts
  have hlist := ht.isListing_members hsound.outline.keys group
  have hnodes := ht.map_sibling_of_fetchChildren (Table.Holds.fetchChildren_of_list hbefore)
  have hserve : store.serve (.renumber group) now db =
      db.writing (db.rows.renumber db.gap group now) := rfl
  have hlistServe : ∀ t : Database,
      store.serve (.list group) now t = t.reading (t.rows.list group) := fun _ => rfl
  have hrenumber := ht.renumber_eq hsound.outline.keys hroom hfetch db.gap now
  refine ⟨before, ?_, by rwa [hnodes], ?_⟩
  · rw [hlistServe, hbefore]
    rfl
  have hlen := congrArg List.length hnodes
  rw [List.length_map] at hlen
  rw [hlen]
  split
  · next hfits =>
    obtain ⟨members, hm⟩ := (Gap.compact_eq_ok_iff hlist.ascending).2 hfits
    rw [hm] at hrenumber
    obtain ⟨t', ht', hholds, hrekeyed⟩ := hrenumber
    have hspaced := hrekeyed.spaced hlist hm
    have hsound' : ({ db with rows := t' } : Database).Sound :=
      .of_holds hholds (hrekeyed.isOutline hsound.outline)
    have hforest : ({ db with rows := t' } : Database).forest = _ := hholds.forest_eq
    have hroom' : t'.Roomy := by
      rw [Table.Roomy, ht.length_eq hholds hrekeyed.sameShape]
      exact hroom
    -- the rows can be read afterwards, so the answer and a listing are what they hold
    have hr' : t'.Readable := hholds.readable_iff.2
      (hrekeyed.all (Record.keeps_legible hyear) (ht.readable_iff.1 hr))
    obtain ⟨ns, hns⟩ := hholds.list_of_readable hr' (hspaced.hosts hhosts)
    have hchildren := Table.Holds.fetchChildren_of_list hns
    have hnodes' := hholds.map_sibling_of_fetchChildren hchildren
    refine ⟨ns, { db with rows := t' }, ⟨?_, ?_, ?_⟩, hsound', rfl, ?_, hr', hroom'⟩
    · rw [hserve, ht', hchildren]
      rfl
    · have hlist' := hholds.isListing_members (hrekeyed.isOutline hsound.outline).keys group
      rw [hnodes, hnodes', hlist'.eq hrekeyed.isListing, hforest]
      exact hspaced
    · rw [hlistServe, hns]
      rfl
    · rw [hforest]
      exact hspaced.hosts hhosts
  · next hfull =>
    cases hm : db.gap.compact (db.rows.members group) with
    | ok members => exact absurd ((Gap.compact_eq_ok_iff hlist.ascending).1 ⟨_, hm⟩) hfull
    | error cause =>
      rw [hm] at hrenumber
      rw [hserve, hrenumber, Gap.compact_eq_error hlist.ascending hm]
      rfl

end Database

/-! ## Every run -/

/-- After every run of either store, a group of a space that is made up of its roots or lies below
one of its nodes can be renumbered exactly when the multiples of the gap up to its length are keys.
It is then listed in the same order with these multiples as its keys, and that is the answer; no
node outside it changes, and its members change in nothing but their keys and times. Renumbering it
again succeeds and leaves every node at its place. -/
theorem renumbers_run (gap : Gap) (calls : List (StoreCall × Timestamp)) (group : Group)
    (now later : Timestamp) :
    ((Shelf.store.run calls (.empty gap)).forest.Hosts group →
      ∃ before, RenumbersTwice Shelf.store Shelf.forest gap group now later
        (Shelf.store.run calls (.empty gap)) before) ∧
    ((Database.store.run calls (.empty gap)).forest.Hosts group →
      (Database.store.run calls (.empty gap)).rows.Readable →
      (Database.store.run calls (.empty gap)).rows.Roomy →
      now.HasPlainYear → later.HasPlainYear →
      ∃ before, RenumbersTwice Database.store Database.forest gap group now later
        (Database.store.run calls (.empty gap)) before) := by
  refine ⟨fun hhosts => ?_, fun hhosts hr hroom hyear hlater => ?_⟩
  · have hfit : (Shelf.store.run calls (.empty gap)).RenumberFit gap group :=
      ⟨Shelf.sound_run gap calls, Shelf.gap_run gap calls, hhosts⟩
    obtain ⟨before, hbefore⟩ := hfit.once now
    exact ⟨before, hbefore.twice fun h => h.once later⟩
  · have hfit : (Database.store.run calls (.empty gap)).RenumberFit gap group :=
      ⟨Database.sound_run gap calls, Database.gap_run gap calls, hhosts, hr, hroom⟩
    obtain ⟨before, hbefore⟩ := hfit.once hyear
    exact ⟨before, hbefore.twice fun h => h.once hlater⟩

namespace Sample

/-- The group of the pages of `keyed`. -/
abbrev topPages : Group := ⟨uuid 1, none⟩

end Sample

/-- Two pages are renumbered twice, and the second time changes no place. -/
theorem renumbers_run_keyed :
    (∃ ns s' ns' s'', Shelf.store.serve (.renumber Sample.topPages) Sample.time
        (Shelf.store.run Sample.keyed (.empty .standard)) = .ok (ns, s') ∧
      Shelf.store.serve (.renumber Sample.topPages) Sample.time s' = .ok (ns', s'') ∧
      ns'.map Node.sibling = ns.map Node.sibling ∧ SamePlaces s'.forest s''.forest) ∧
    (∃ ns db' ns' db'', Database.store.serve (.renumber Sample.topPages) Sample.time
        (Database.store.run Sample.keyed (.empty .standard)) = .ok (ns, db') ∧
      Database.store.serve (.renumber Sample.topPages) Sample.time db' = .ok (ns', db'') ∧
      ns'.map Node.sibling = ns.map Node.sibling ∧ SamePlaces db'.forest db''.forest) := by
  obtain ⟨hshelf, hrows⟩ :=
    renumbers_run .standard Sample.keyed Sample.topPages Sample.time Sample.time
  constructor
  · obtain ⟨before, h⟩ := hshelf fun p hp => by cases hp
    -- two keys fit at the standard gap
    have hlen := congrArg List.length (h.listing.eq
      (Shelf.isListing_siblings (Shelf.sound_run .standard Sample.keyed).agrees Sample.topPages))
    have htwo : (((Shelf.store.run Sample.keyed (.empty .standard)).space (Sample.uuid 1)).siblings
        none).length = 2 := by decide +kernel
    rw [List.length_map, htwo] at hlen
    obtain ⟨⟨ns, s'⟩, hs⟩ := h.accepts.2 (by rw [hlen]; decide)
    obtain ⟨ns', s'', hs', hsame⟩ := h.second hs
    exact ⟨ns, s', ns', s'', hs, hs', hsame⟩
  · obtain ⟨before, h⟩ := hrows (fun p hp => by cases hp) (by decide +kernel) (by decide +kernel)
      (by decide) (by decide)
    have hsound := Database.sound_run .standard Sample.keyed
    have hlen := congrArg List.length
      (h.listing.eq (hsound.holds.isListing_members hsound.outline.keys Sample.topPages))
    rw [List.length_map, Sample.members_keyed] at hlen
    obtain ⟨⟨ns, db'⟩, hs⟩ := h.accepts.2 (by rw [hlen]; decide)
    obtain ⟨ns', db'', hs', hsame⟩ := h.second hs
    exact ⟨ns, db', ns', db'', hs, hs', hsame⟩

end Outline
