import Outline.Proofs.Agreement.Runs
import Outline.Proofs.Stored

/-!
# Single calls on stores that hold the same nodes

Any call, with any arguments, may be made on the store in memory and on the table when both hold the
same nodes, the times apart. The histories of the two may differ, and so may the clocks. All that is
asked is that the table has fewer than `2 ^ 31` rows, that the clock beside it shows a year of four
digits, and that a new node has a new identifier.

Then both answer alike or refuse for one reason, with one exception: a parent that lives in another
space. The store in memory looks for it in the space of the call and does not find it. The table
finds it. For a node that is to come under it the table then names the space it is in; for a group
that is to be renumbered it only looks whether there is such a node, and renumbers no members.

Main results:

* `Twins.answers` — what twins make of a call that does not stray;
* `Twins.strays`, `Twins.strays_renumber` — what they make of one that does;
* `answered_alike_run` — all of these, after any two runs.
-/

namespace Outline

namespace StoreCall

variable {π τ : Type}

/-- The call names the parent `p` for a node of the space `sp`. A record with a defect is refused
before its parent is looked for. -/
inductive Under (f : Forest π τ) (p sp : Uuid) : StoreCall → Prop
  | create {n : Node} : n.check = .ok () → n.parent = some p → n.space = sp →
      Under f p sp (.create n)
  | createLast {n : Node} : n.check = .ok () → n.parent = some p → n.space = sp →
      Under f p sp (.createLast n)
  | moveLast {id : Uuid} {r : Record π τ} : f id = some r → r.space = sp →
      Under f p sp (.moveLast id (some p))
  | moveAt {id : Uuid} {r : Record π τ} {sort : SortKey} : f id = some r → r.space = sp →
      Under f p sp (.moveAt id (some p) sort)

/-- The call names a parent for a node or a group of another space than the parent's. -/
def Strays (f : Forest π τ) (c : StoreCall) : Prop :=
  ∃ p sp q, (c.Under f p sp ∨ c = .renumber ⟨sp, some p⟩) ∧ f p = some q ∧ q.space ≠ sp

end StoreCall

namespace Twins

variable {s : Shelf} {db : Database} (h : Twins s db) {now now' : Timestamp}
include h

/-- A call that does not stray is answered alike or refused for one reason. -/
theorem answers (hroom : db.rows.Roomy) (hyear : now'.HasPlainYear) {c : StoreCall}
    (hnew : ∀ n : Node, c.created? = some n → s.forest n.id = none) (hc : ¬c.Strays s.forest) :
    Matched (fun _ _ => True) (c.Related Node.Alike) (Shelf.store.serve c now s)
      (Database.store.serve c now' db) := by
  have hlinked : Linked Shelf.store Database.store now now' Twins Node.Alike (fun _ => True)
    (fun _ => True) s db := h.linked hroom hyear
  have hstays : ∀ {p sp : Uuid}, (c.Under s.forest p sp ∨ c = .renumber ⟨sp, some p⟩) →
      ∀ q, s.forest p = some q → q.space = sp := fun hp q hq =>
    Classical.byContradiction fun hne => hc ⟨_, _, q, hp, hq, hne⟩
  cases c with
  | get id => exact (hlinked.gets trivial).mono (fun _ _ _ => trivial) fun _ _ hnm => hnm
  | list group =>
    exact (hlinked.lists trivial fun _ _ => trivial).mono (fun _ _ _ => trivial)
      fun _ _ hlist => hlist.imp fun _ _ hnm => hnm.1
  | nextSort group =>
    show Matched _ _ ((s.nextSort group).map (·, s)) ((db.rows.nextSort db.gap group).map (·, db))
    rw [h.nextSort]
    cases s.nextSort group with
    | ok sort => exact .answered rfl trivial
    | error e => exact .refused
  | create n =>
    show Matched _ _ (s.insert n .own now) (db.writing (db.rows.create n))
    refine (h.create (n := n) (m := n) rfl (hnew n rfl) rfl
      fun hcheck p q hp hq => ?_).mono (fun _ _ _ => trivial) fun _ _ hnm => hnm
    exact hstays (.inl (.create hcheck hp rfl)) q hq
  | createLast n =>
    refine (h.createLast (n := n) (m := n) rfl (hnew n rfl) hroom
      fun hcheck p q hp hq => ?_).mono (fun _ _ _ => trivial) fun _ _ hnm => hnm
    exact hstays (.inl (.createLast hcheck hp rfl)) q hq
  | update id patch =>
    exact (h.update id patch).mono (fun _ _ _ => trivial) fun _ _ hnm => hnm
  | delete space id => exact (h.delete space id).mono (fun _ _ _ => trivial) fun _ _ heq => heq
  | moveLast id parent =>
    refine (h.relocate hroom hyear (fun _ => .ok parent) (fun _ _ => rfl)
      (fun n p q hn hp hq => ?_) .last).mono (fun _ _ _ => trivial) fun _ _ hnm => hnm
    subst hp
    exact hstays (.inl (.moveLast hn rfl)) q hq
  | moveAt id parent sort =>
    refine (h.relocate hroom hyear (fun _ => .ok parent) (fun _ _ => rfl)
      (fun n p q hn hp hq => ?_) (.at sort)).mono (fun _ _ _ => trivial) fun _ _ hnm => hnm
    subst hp
    exact hstays (.inl (.moveAt hn rfl)) q hq
  | reorder id sort =>
    exact (h.reorder hroom hyear id sort).mono (fun _ _ _ => trivial) fun _ _ hnm => hnm
  | moveBeside id anchor side =>
    exact (h.moveBeside hroom hyear id anchor side).mono (fun _ _ _ => trivial) fun _ _ hnm => hnm
  -- a renumbering strays with its group, whoever is in it
  | renumber group =>
    refine (h.renumber hroom hyear fun p q hp hq => ?_).mono (fun _ _ _ => trivial)
      fun ns ms halike => Node.ListedAlike.forall₂ halike
    refine hstays (.inr ?_) q hq
    rw [← hp]

section Stray

variable {p sp : Uuid} {q : Node} (hq : s.forest p = some q.record) (hne : q.space ≠ sp)
include hq hne

/-- The parent is found by the table, and only there. -/
theorem parent_strays :
    (s.space sp).getParent (some p) = .error (.notFound p) ∧
      ∃ m, db.rows.fetchParent (some p) = .ok (some m) ∧ m.id = p ∧ m.space = q.space := by
  constructor
  · rw [Space.getParent,
      Shelf.space_get_eq_error h.shelf.agrees (Shelf.outside_of_space hq hne)]
    rfl
  · obtain ⟨-, m, hm, hqm⟩ := h.fetch_some hq
    obtain ⟨hid, hspace, -⟩ := hqm.place
    refine ⟨m, ?_, hid.trans (h.shelf.outline.rooted.own_id hq), hspace⟩
    rw [Table.fetchParent, hm]
    rfl

theorem checkFetched_strays (kind : Kind) :
    checkFetched kind sp ((s.space sp).getParent (some p)) = .error (.notFound p) ∧
      checkFetched kind sp (db.rows.fetchParent (some p)) =
        .error (.violation (.parentSpace p q.space sp)) := by
  obtain ⟨hget, m, hfetch, hid, hspace⟩ := h.parent_strays hq hne
  rw [hget, hfetch]
  refine ⟨rfl, ?_⟩
  unfold checkFetched checkParent
  rw [bind_ok]
  dsimp only
  rw [if_pos (hspace ▸ hne), hid, hspace]
  rfl

/-- A node that is to come under a parent of another space. -/
theorem strays {c : StoreCall} (hnew : ∀ n : Node, c.created? = some n → s.forest n.id = none)
    (hc : c.Under s.forest p sp) :
    Shelf.store.serve c now s = .error (.notFound p) ∧
      Database.store.serve c now' db = .error (.violation (.parentSpace p q.space sp)) := by
  -- two creations and two moves, which differ in how the node gets its key
  have hcreate : ∀ n : Node, n.check = .ok () → n.parent = some p → n.space = sp →
      s.forest n.id = none → (∀ entry, s.insert n entry now = .error (.notFound p)) ∧
        db.rows.checkNew n = .error (.violation (.parentSpace p q.space sp)) := by
    intro n hcheck hparent hspace hid
    obtain ⟨hshelf, htable⟩ := h.checkFetched_strays hq hne n.kind
    rw [← hparent, ← hspace] at hshelf
    rw [← hparent, ← hspace, ← Table.Holds.checkNew_eq hcheck] at htable
    exact ⟨fun entry => Shelf.insert_refused h.shelf.agrees hcheck hid hshelf, hspace ▸ htable⟩
  have hmove : ∀ (id : Uuid) (r : Record Node.Payload Timestamp) (target : Target),
      s.forest id = some r → r.space = sp →
        s.relocate id (fun _ => .ok (some p)) target now = .error (.notFound p) ∧
        db.writing (db.rows.relocate db.gap id (some p) target now') =
          .error (.violation (.parentSpace p q.space sp)) := by
    intro id r target hr hspace
    obtain ⟨n, -, -, rfl⟩ := Shelf.exists_node h.shelf.agrees hr
    obtain ⟨-, m, hm, hnm⟩ := h.fetch_some hr
    obtain ⟨-, hmspace, hmkind, -⟩ := hnm.place
    obtain rfl : n.space = sp := hspace
    obtain ⟨hshelf, htable⟩ := h.checkFetched_strays hq hne n.kind
    rw [← hmspace, ← hmkind] at htable
    refine ⟨Shelf.relocate_refused h.shelf.agrees hr rfl hshelf, ?_⟩
    rw [Table.Holds.relocate_refused hm htable, hmspace]
    rfl
  cases hc with
  | @create n hcheck hparent hspace =>
    obtain ⟨hshelf, htable⟩ := hcreate n hcheck hparent hspace (hnew n rfl)
    refine ⟨hshelf .own, ?_⟩
    show db.writing (db.rows.create n) = _
    rw [Table.create, htable]
    rfl
  | @createLast n hcheck hparent hspace =>
    obtain ⟨hshelf, htable⟩ := hcreate n hcheck hparent hspace (hnew n rfl)
    refine ⟨hshelf .last, ?_⟩
    show db.writing (db.rows.createLast db.gap n now') = _
    rw [Table.Holds.createLast_refused htable]
    rfl
  | @moveLast id r hr hspace => exact hmove id r .last hr hspace
  | @moveAt id r sort hr hspace => exact hmove id r (.at sort) hr hspace

/-- A group under a parent of another space has no members, and the table renumbers it all the
same. -/
theorem strays_renumber :
    Shelf.store.serve (.renumber ⟨sp, some p⟩) now s = .error (.notFound p) ∧
      Database.store.serve (.renumber ⟨sp, some p⟩) now' db = .ok ([], db) := by
  obtain ⟨hget, m, hfetch, -⟩ := h.parent_strays hq hne
  constructor
  · show s.renumber ⟨sp, some p⟩ now = _
    unfold Shelf.renumber
    dsimp only
    rw [hget, bind_error]
  -- a member would have its parent in its own space
  · have hselect : db.rows.select ⟨sp, some p⟩ = [] := by
      refine List.eq_nil_iff_forall_not_mem.2 fun r hr => ?_
      obtain ⟨l, hl, hgroup, -⟩ := h.table.holds.mem_select_iff.1 hr
      obtain ⟨k, hk, hspace, -⟩ := (h.table.outline.rooted.lodged hl).exists_parent
        (congrArg Group.parent hgroup)
      obtain ⟨l', hl', hql⟩ := h.mirrors.of_some hq
      obtain rfl := Option.some.inj (hl'.symm.trans hk)
      refine hne ?_
      rw [← show l'.space = q.space from hql.place.2.1, hspace]
      exact congrArg Group.space hgroup
    show db.writing (db.rows.renumber db.gap ⟨sp, some p⟩ now') = _
    have hsiblings : db.rows.siblings ⟨sp, some p⟩ = .ok [] := by
      rw [Table.siblings, hselect]
      rfl
    have hchildren : db.rows.fetchChildren ⟨sp, some p⟩ = .ok [] := by
      rw [Table.fetchChildren, hselect]
      rfl
    have hkeys : db.rows.writeKeys ⟨sp, some p⟩ [] none now' = .ok db.rows := rfl
    have hcompact : db.gap.compact [] = .ok [] := by
      rw [Gap.compact, Sibling.sorted, List.mergeSort_nil]
      rfl
    rw [Table.renumber, hfetch, bind_ok, hsiblings, bind_ok, hcompact, mapError_ok, bind_ok, hkeys,
      bind_ok, hchildren]
    rfl

end Stray

end Twins

/-! ## After any two runs -/

/-- Both hold the same nodes, the times apart. -/
def SameNodes (s : Shelf) (db : Database) : Prop :=
  ∀ id, (s.get id).map Node.undated = (db.rows.fetch id).map Node.undated

theorem Twins.sameNodes {s : Shelf} {db : Database} (h : Twins s db) : SameNodes s db := by
  intro id
  rcases h.stored_or_not id with hid | ⟨n, hn⟩
  · obtain ⟨hget, hfetch⟩ := h.fetch_none hid
    rw [hget, hfetch]
  · obtain ⟨hget, m, hfetch, hnm⟩ := h.fetch_some hn
    rw [hget, hfetch]
    exact congrArg Except.ok hnm.symm

/-- Sound stores with one gap that hold the same nodes are twins. -/
theorem SameNodes.twins {s : Shelf} {db : Database} (h : SameNodes s db) (hs : s.Sound)
    (hdb : db.Sound) (hgap : s.gap = db.gap) : Twins s db where
  shelf := hs
  table := hdb
  gap := hgap
  mirrors id := by
    have hid := h id
    cases hl : db.rows.forest id with
    | none =>
      rw [hdb.holds.fetch_none hl] at hid
      cases hr : s.forest id with
      | none => exact .none
      -- what is stored in memory is always found
      | some r =>
        obtain ⟨n, hget, -, -⟩ := Shelf.exists_node hs.agrees hr
        rw [hget] at hid
        cases hid
    | some l =>
      cases hr : s.forest id with
      | none =>
        rw [Shelf.get_eq_error hr, hdb.holds.fetch_some hl] at hid
        -- no row is refused for want of it
        cases hnode : l.row.toNode with
        | ok n =>
          rw [hnode] at hid
          cases hid
        | error e =>
          rw [hnode] at hid
          cases hid
      | some r =>
        obtain ⟨n, hget, -, rfl⟩ := Shelf.exists_node hs.agrees hr
        rw [hget, hdb.holds.fetch_some hl] at hid
        obtain ⟨m, hm, hnm⟩ := map_eq_ok_iff.1 hid.symm
        rw [StoreError.ofFault, mapError_eq_ok_iff] at hm
        exact .some (Node.mirrors_of_toNode hm hnm)

/-- After any runs that leave both stores with the same nodes, a call is answered alike or refused
for one reason, unless it names a parent in another space. Then it is refused in memory as one whose
parent is missing, while the table names the space that the parent is in, or renumbers nothing. -/
theorem answered_alike_run (gap : Gap) (calls calls' : List (StoreCall × Timestamp)) (c : StoreCall)
    (now : Timestamp) {now' : Timestamp} (hyear : now'.HasPlainYear)
    (hsame : SameNodes (Shelf.store.run calls (.empty gap))
      (Database.store.run calls' (.empty gap)))
    (hfew : (Database.store.run calls' (.empty gap)).rows.length < 2 ^ 31)
    (hnew : ∀ n : Node, c.created? = some n →
      (Shelf.store.run calls (.empty gap)).forest n.id = none) :
    (¬c.Strays (Shelf.store.run calls (.empty gap)).forest →
      Matched (fun _ _ => True) (c.Related Node.Alike)
        (Shelf.store.serve c now (Shelf.store.run calls (.empty gap)))
        (Database.store.serve c now' (Database.store.run calls' (.empty gap)))) ∧
    (∀ p sp q, (Shelf.store.run calls (.empty gap)).get p = .ok q → q.space ≠ sp →
      (c.Under (Shelf.store.run calls (.empty gap)).forest p sp →
        Shelf.store.serve c now (Shelf.store.run calls (.empty gap)) = .error (.notFound p) ∧
        Database.store.serve c now' (Database.store.run calls' (.empty gap)) =
          .error (.violation (.parentSpace p q.space sp))) ∧
      Shelf.store.serve (.renumber ⟨sp, some p⟩) now (Shelf.store.run calls (.empty gap)) =
        .error (.notFound p) ∧
      Database.store.serve (.renumber ⟨sp, some p⟩) now'
        (Database.store.run calls' (.empty gap)) =
          .ok ([], Database.store.run calls' (.empty gap))) := by
  -- stores with the same nodes are twins, whatever calls have led to them
  have htwins : Twins (Shelf.store.run calls (.empty gap))
      (Database.store.run calls' (.empty gap)) :=
    hsame.twins (Shelf.sound_run gap calls) (Database.sound_run gap calls') (by
      rw [Shelf.gap_run, Database.gap_run])
  refine ⟨htwins.answers hfew hyear hnew, fun p sp q hget hne => ?_⟩
  have hq : (Shelf.store.run calls (.empty gap)).forest p = some q.record :=
    (Shelf.forest_eq_some_iff htwins.shelf.agrees).2
      ⟨q, (Shelf.get_eq_ok_iff htwins.shelf.agrees).1 hget, rfl⟩
  exact ⟨htwins.strays hq hne hnew, htwins.strays_renumber hq hne⟩

namespace Sample

/-- A first page. -/
def first : List (StoreCall × Timestamp) := calls.take 1

theorem sameNodes_first :
    SameNodes (Shelf.store.run first (.empty .standard))
      (Database.store.run first (.empty .standard)) := by
  have hwritable : (page 2 none).Writable :=
    ⟨Json.ofText?_text (.obj .nil fun m hm => by cases hm), by decide, by decide⟩
  have hmatched : Matched (fun s' db' => (page 2 none).Writable → time.HasPlainYear → Twins s' db')
      Node.Alike (Shelf.store.serve (.createLast (page 2 none)) time (.empty .standard))
      (Database.store.serve (.createLast (page 2 none)) time (.empty .standard)) :=
    (Twins.empty .standard).createLast rfl rfl (by decide) fun _ p q hp => by cases hp
  exact (hmatched.step (Twins.empty .standard) fun _ _ htwins =>
    htwins hwritable (by decide)).sameNodes

/-- A page below the first, in its space. -/
def below : StoreCall := .createLast (page 3 (some (uuid 2)))

/-- A page below the first, in another space. -/
def astray : StoreCall := .createLast { page 3 (some (uuid 2)) with space := uuid 9 }

theorem not_strays_below : ¬below.Strays (Shelf.store.run first (.empty .standard)).forest := by
  have hspace : ((Shelf.store.run first (.empty .standard)).forest (uuid 2)).map Record.space =
      some (uuid 1) := by decide +kernel
  rintro ⟨p, sp, q, hc | hc, hq, hne⟩
  · obtain ⟨rfl, rfl⟩ : uuid 2 = p ∧ uuid 1 = sp := by
      cases hc with
      | createLast _ hparent hsp => exact ⟨Option.some.inj hparent, hsp⟩
    rw [hq] at hspace
    exact hne (Option.some.inj hspace)
  · cases hc

end Sample

/-- A page below the first is created by both stores; under a parent of another space each refuses
it in its own words. -/
theorem answered_alike_run_first :
    Matched (fun _ _ => True) Node.Alike
      (Shelf.store.serve Sample.below Sample.time (Shelf.store.run Sample.first (.empty .standard)))
      (Database.store.serve Sample.below Sample.time
        (Database.store.run Sample.first (.empty .standard))) ∧
    Shelf.store.serve Sample.astray Sample.time
        (Shelf.store.run Sample.first (.empty .standard)) =
      .error (.notFound (Sample.uuid 2)) ∧
    Database.store.serve Sample.astray Sample.time
        (Database.store.run Sample.first (.empty .standard)) =
      .error (.violation (.parentSpace (Sample.uuid 2) (Sample.uuid 1) (Sample.uuid 9))) := by
  have hnew : (Shelf.store.run Sample.first (.empty .standard)).forest (Sample.uuid 3) = none := by
    decide +kernel
  obtain ⟨hstays, -⟩ := answered_alike_run .standard Sample.first Sample.first Sample.below
    Sample.time (show Sample.time.HasPlainYear by decide) Sample.sameNodes_first (by decide +kernel)
    fun n hn => by cases hn; exact hnew
  obtain ⟨-, hstrays⟩ := answered_alike_run .standard Sample.first Sample.first Sample.astray
    Sample.time (show Sample.time.HasPlainYear by decide) Sample.sameNodes_first (by decide +kernel)
    fun n hn => by cases hn; exact hnew
  obtain ⟨q, hq, hspace⟩ := map_eq_ok_iff.1 (show
    ((Shelf.store.run Sample.first (.empty .standard)).get (Sample.uuid 2)).map Node.space =
      .ok (Sample.uuid 1) by decide +kernel)
  have hne : q.space ≠ Sample.uuid 9 := by
    rw [hspace]
    decide
  obtain ⟨hrefused, -⟩ := hstrays (Sample.uuid 2) (Sample.uuid 9) q hq hne
  rw [hspace] at hrefused
  exact ⟨hstays Sample.not_strays_below, hrefused (.createLast rfl rfl rfl)⟩

end Outline
