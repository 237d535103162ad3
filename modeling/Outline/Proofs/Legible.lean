import Outline.Proofs.ReadBack

/-!
# What can be read of a stored node

A row takes any time, since writing it out never fails. A year before 0 or after 9999 is written
with a sign though, and the reader of rows does not take one. So a node with such a time is stored,
answered as it was given, and cannot be read from then on, neither alone nor with its group: a
listing reads every row of the group and fails with the first that cannot be read. Properties are
assumed to fit what their reader takes.

Main results:

* `Row.toNode_line_eq` — how the row of a new node reads;
* `Table.Holds.list_iff`, `Table.Holds.fault_of_list` — when a group is listed, and why not;
* `created_recalled_run` — what is read of a node that the table has taken.
-/

namespace Outline

/-! ## A row and its reading -/

/-- The row of a node reads as the node, or the first of its times is reported whose year does not
have four digits. -/
theorem Row.toNode_line_eq {n : Node} (hfits : n.properties.Fits Json.maxDepth) :
    n.line.row.toNode =
      if ¬n.created.HasPlainYear then .error (.badColumn "created_at" n.created.toOffsetText)
      else if ¬n.updated.HasPlainYear then .error (.badColumn "updated_at" n.updated.toOffsetText)
      else .ok n := by
  have hproperties : n.line.row.readProperties = .ok n.properties := by
    rw [readProperties, show n.line.row.properties = n.properties.text from rfl, hfits.ofText?_text]
  split
  · next hcreated =>
    rw [toNode_row, hproperties, bind_ok, column, show n.line.payload.created =
      n.created.toOffsetText from rfl, Timestamp.ofText?_toOffsetText_eq_none hcreated]
    rfl
  · next hcreated =>
    have hcreated := not_not.1 hcreated
    split
    · next hupdated =>
      rw [toNode_row, hproperties, bind_ok, column, show n.line.payload.created =
        n.created.toOffsetText from rfl, Timestamp.ofText?_toOffsetText hcreated, bind_ok, column,
        show n.line.updated = n.updated.toOffsetText from rfl,
        Timestamp.ofText?_toOffsetText_eq_none hupdated]
      rfl
    · next hupdated => exact toNode_line hfits hcreated (not_not.1 hupdated)

theorem Node.legible_line_iff {n : Node} (hfits : n.properties.Fits Json.maxDepth) :
    n.line.Legible ↔ n.created.HasPlainYear ∧ n.updated.HasPlainYear := by
  constructor
  · rintro ⟨m, hm⟩
    rw [Row.toNode_line_eq hfits] at hm
    split at hm
    · cases hm
    · next hcreated =>
      split at hm
      · cases hm
      · next hupdated => exact ⟨not_not.1 hcreated, not_not.1 hupdated⟩
  · rintro ⟨hcreated, hupdated⟩
    exact legible_line hfits hcreated hupdated

/-! ## A group and its listing -/

namespace Table

/-- All records of the group can be read. -/
def LegibleIn (t : Table) (group : Group) : Prop :=
  ∀ l : Line, t.forest l.id = some l → l.group = group → l.Legible

namespace Holds

variable {t : Table} {f : Forest Row.Payload String} {group : Group} {parent : Option Node}

/-- Once the parent has been found in its space, a listing reads the rows of the group. -/
theorem list_eq (hparent : t.fetchParent group.parent = .ok parent)
    (hspace : ∀ p ∈ parent, p.space = group.space) : t.list group = t.fetchChildren group := by
  rw [list, hparent, bind_ok]
  cases parent with
  | none => rfl
  | some p =>
    dsimp only
    rw [if_neg (not_not.2 (hspace p rfl))]

variable (h : t.Holds f) (hparent : t.fetchParent group.parent = .ok parent)
  (hspace : ∀ p ∈ parent, p.space = group.space)
include h hparent hspace

/-- A group is listed exactly when all of its records can be read. -/
theorem list_iff : (∃ ns, t.list group = .ok ns) ↔ t.LegibleIn group := by
  rw [list_eq hparent hspace, LegibleIn, h.forest_eq]
  constructor
  · rintro ⟨ns, hns⟩ l hl hgroup
    -- the row of the record is among those that have been read
    obtain ⟨n, hn⟩ := forall_of_mapM_eq_ok hns l.row (h.mem_select_iff.2 ⟨l, hl, hgroup, rfl⟩)
    rw [StoreError.ofFault, mapError_eq_ok_iff] at hn
    exact ⟨n, hn⟩
  · intro hlegible
    refine exists_mapM_eq_ok fun r hr => ?_
    obtain ⟨l, hl, hgroup, rfl⟩ := h.mem_select_iff.1 hr
    obtain ⟨n, hn⟩ := hlegible l hl hgroup
    exact ⟨n, by rw [StoreError.ofFault, hn, mapError_ok]⟩

/-- Otherwise the listing fails with what is wrong with one of them. -/
theorem fault_of_list {e : StoreError} (he : t.list group = .error e) :
    ∃ l fault, f l.id = some l ∧ l.group = group ∧ l.row.toNode = .error fault ∧
      e = .invalidRecord fault := by
  rw [list_eq hparent hspace] at he
  obtain ⟨r, hr, hfault⟩ := exists_of_mapM_eq_error he
  obtain ⟨l, hl, hgroup, rfl⟩ := h.mem_select_iff.1 hr
  cases hnode : l.row.toNode with
  | ok n =>
    rw [hnode] at hfault
    cases hfault
  | error fault =>
    rw [hnode] at hfault
    exact ⟨l, fault, hl, hgroup, hnode, (Except.error.inj hfault).symm⟩

end Holds

end Table

/-! ## After a creation -/

/-- The parent that a new node has been checked against is found as it was when the node has been
put in its place. -/
theorem Table.Holds.exists_fetchParent_of_checkNew {t t' : Table} {f g : Forest Row.Payload String}
    {n : Node} {members : List Sibling} {stamp : String} (h : t.Holds f) (h' : t'.Holds g)
    (ho : Rooted f) (hid : f n.id = none) (hnew : t.checkNew n = .ok ())
    (hplaced : Placed f g n.line n.group members stamp) :
    ∃ parent, t'.fetchParent n.parent = .ok parent ∧ ∀ p ∈ parent, p.space = n.space := by
  obtain ⟨-, hlodged⟩ := h.of_checkNew hnew
  have hself : n.parent ≠ some n.id := by
    intro hp
    obtain ⟨q, hq, -⟩ := hlodged.exists_parent hp
    rw [hid] at hq
    cases hq
  have hsame : t'.fetchParent n.parent = t.fetchParent n.parent :=
    fetchParent_of_placed h h' ho hlodged hself hplaced
  obtain ⟨u, -, hrest⟩ := bind_eq_ok_iff.1 hnew
  obtain ⟨parent, hparent, hcheck⟩ := bind_eq_ok_iff.1 hrest
  refine ⟨parent, hsame.trans hparent, fun p hp => ?_⟩
  obtain rfl : parent = some p := hp
  exact (checkParent_eq_ok_iff.1 (mapError_eq_ok_iff.1 hcheck)).1

namespace Database

variable {db db' : Database} {now : Timestamp} {n m : Node}

/-- A call that creates a node has stored its row, perhaps with another key, below a parent that is
still found in its space. -/
theorem of_created (h : db.Sound) {c : StoreCall} (hc : c.created? = some n) {answer : c.Answer}
    (hs : store.serve c now db = .ok (answer, db')) :
    ∃ sort, c.written? answer = some { n with sort := sort } ∧
      db'.rows.forest n.id = some ({ n with sort := sort } : Node).line ∧
      ∃ parent, db'.rows.fetchParent n.parent = .ok parent ∧ ∀ p ∈ parent, p.space = n.space := by
  have ho := h.outline
  -- of the other calls nothing is asked, as they create no node
  cases c with
  | create n' =>
    obtain rfl := Option.some.inj hc
    obtain ⟨hs, -⟩ := of_writing hs
    obtain ⟨u, hnew, -⟩ := bind_eq_ok_iff.1 hs
    obtain ⟨heq, -, hid, hholds, hplacing⟩ := h.holds.of_create ho.keys hs
    refine ⟨n'.sort, congrArg some heq, ?_⟩
    rw [hholds.forest_eq]
    exact ⟨Forest.put_self _ n'.line, h.holds.exists_fetchParent_of_checkNew hholds ho.rooted hid
      hnew (placed_put (l := n'.line) hplacing now.toOffsetText)⟩
  | createLast n' =>
    obtain rfl := Option.some.inj hc
    obtain ⟨hs, -⟩ := of_writing hs
    obtain ⟨u, hnew, -⟩ := bind_eq_ok_iff.1 hs
    obtain ⟨p, sort, g, -, hid, -, heq, hholds, hself, hplaced⟩ := h.holds.of_createLast ho.keys hs
    refine ⟨sort, congrArg some heq, ?_⟩
    rw [hholds.forest_eq, ← heq]
    exact ⟨hself, h.holds.exists_fetchParent_of_checkNew hholds ho.rooted hid hnew hplaced⟩
  | _ => cases hc

/-- What is read of the node `n` that has been stored as `m`. It is got exactly when both of its
times have a year with four digits, and without them its group is not listed either. -/
structure Recalls (db : Database) (n m : Node) : Prop where
  get   : ∀ now, store.serve (.get n.id) now db =
            if ¬n.created.HasPlainYear then
              .error (.invalidRecord (.badColumn "created_at" n.created.toOffsetText))
            else if ¬n.updated.HasPlainYear then
              .error (.invalidRecord (.badColumn "updated_at" n.updated.toOffsetText))
            else .ok (m, db)
  list  : ∀ now, (∃ ns, store.serve (.list n.group) now db = .ok (ns, db)) ↔
            db.rows.LegibleIn n.group
  fault : ∀ now e, store.serve (.list n.group) now db = .error e →
            ∃ l fault, db.rows.forest l.id = some l ∧ l.group = n.group ∧
              l.row.toNode = .error fault ∧ e = .invalidRecord fault
  plain : db.rows.LegibleIn n.group → n.created.HasPlainYear ∧ n.updated.HasPlainYear

theorem reading_eq_ok_iff {α : Type} {outcome : Except StoreError α} :
    (∃ a, db.reading outcome = .ok (a, db)) ↔ ∃ a, outcome = .ok a := by
  cases outcome with
  | ok a => exact iff_of_true ⟨a, rfl⟩ ⟨a, rfl⟩
  | error e =>
    refine iff_of_false ?_ ?_
    · rintro ⟨a, ha⟩
      cases ha
    · rintro ⟨a, ha⟩
      cases ha

theorem Sound.recalls (h : db.Sound) {sort : SortKey} (hfits : n.properties.Fits Json.maxDepth)
    (hn : db.rows.forest n.id = some ({ n with sort := sort } : Node).line)
    {parent : Option Node} (hparent : db.rows.fetchParent n.group.parent = .ok parent)
    (hspace : ∀ p ∈ parent, p.space = n.group.space) : db.Recalls n { n with sort := sort } where
  get _ := by
    have hread := Row.toNode_line_eq (n := { n with sort := sort }) hfits
    show db.reading (db.rows.fetch n.id) = _
    rw [h.holds.fetch_some hn, hread]
    dsimp only
    split
    · rfl
    · split <;> rfl
  list _ := reading_eq_ok_iff.trans (h.holds.list_iff hparent hspace)
  fault _ e he := by
    have hlist : db.rows.list n.group = .error e := map_eq_error_iff.1 he
    exact h.holds.fault_of_list hparent hspace hlist
  plain hlegible :=
    (Node.legible_line_iff (n := { n with sort := sort }) hfits).1 (hlegible _ hn rfl)

end Database

/-- After every run, what the table has taken as a new node is read as far as its times allow. Its
group is listed as long as all of its rows can be read. -/
theorem created_recalled_run (gap : Gap) (calls : List (StoreCall × Timestamp)) (c : StoreCall)
    (now : Timestamp) {n : Node} (hc : c.created? = some n)
    (hfits : n.properties.Fits Json.maxDepth) {answer : c.Answer} {db : Database}
    (hs : Database.store.serve c now (Database.store.run calls (.empty gap)) = .ok (answer, db)) :
    ∃ sort, c.written? answer = some { n with sort := sort } ∧
      db.Recalls n { n with sort := sort } := by
  have h := Database.sound_run gap calls
  obtain ⟨sort, hwritten, hn, parent, hparent, hspace⟩ := Database.of_created h hc hs
  exact ⟨sort, hwritten, (h.serve hs).recalls hfits hn hparent hspace⟩

namespace Sample

/-- A page from the last minute before the year 0. -/
def ancient : Node :=
  { page 2 none with created := ⟨⟨-1, 12, 31, by decide⟩, 23, 59, 0, 0, by decide⟩ }

end Sample

/-- The page is stored in an empty table, and neither it nor its group can be read. -/
theorem created_recalled_run_ancient :
    ∃ n db, Database.store.serve (.createLast Sample.ancient) Sample.time (.empty .standard) =
        .ok (n, db) ∧
      Database.store.serve (.get Sample.ancient.id) Sample.time db =
        .error (.invalidRecord (.badColumn "created_at" "-0001-12-31T23:59:00+00:00")) ∧
      ¬∃ ns, Database.store.serve (.list Sample.ancient.group) Sample.time db = .ok (ns, db) := by
  obtain ⟨⟨n, db⟩, hs⟩ : ∃ a, Database.store.serve (.createLast Sample.ancient) Sample.time
      (.empty .standard) = .ok a := exists_eq_ok_of_isOk (by decide +kernel)
  obtain ⟨sort, -, hrecalls⟩ := created_recalled_run .standard [] (.createLast Sample.ancient)
    Sample.time rfl (.obj .nil fun m hm => by cases hm) hs
  have htext : Sample.ancient.created.toOffsetText = "-0001-12-31T23:59:00+00:00" := by
    decide +kernel
  refine ⟨n, db, hs, ?_, fun hlist => ?_⟩
  · rw [hrecalls.get Sample.time, if_pos (by decide), htext]
  · have hplain := hrecalls.plain ((hrecalls.list Sample.time).1 hlist)
    revert hplain
    decide

end Outline
