import Outline.Proofs.Alone.History

/-!
# A node that was written is read

A call that writes one node answers with it as it now stands: where a placement or an update has put
together what was stored and what was asked, the answer is the outcome. Whoever asks for the node
next gets exactly that answer, and its group lists it once.

In the table the answer to a creation or an update is put together before anything is written, so it
has to be what the columns read back as. That takes properties that can be read back from their text
and times with a year of four digits; a listing takes readable rows all over the group.

Main results:

* `Row.toNode_line` — the columns of a node read as the node;
* `Shelf.Sound.shows`, `Database.Sound.shows` — a node that is got is listed once;
* `written_shows_run` — after every run, a write is read back.
-/

namespace Outline

namespace StoreCall

/-- The node that was written, from the answer to a call that writes one. -/
def written? : (c : StoreCall) → c.Answer → Option Node
  | .create _, n => some n
  | .createLast _, n => some n
  | .update _ _, n => some n
  | .moveLast _ _, n => some n
  | .moveAt _ _ _, n => some n
  | .reorder _ _, n => some n
  | .moveBeside _ _ _, n => some n
  | .get _, _ | .delete _ _, _ | .list _, _ | .nextSort _, _ | .renumber _, _ => none

end StoreCall

/-- Whoever asks for the node gets it, and its group lists it once. -/
structure Store.Shows {σ : Type} (store : Store σ) (s : σ) (n : Node) : Prop where
  get  : ∀ now, store.serve (.get n.id) now s = .ok (n, s)
  list : ∀ now, ∃ ns, store.serve (.list n.group) now s = .ok (ns, s) ∧
           ns.filter (·.id = n.id) = [n]

/-! ## In memory -/

namespace Shelf

variable {s s' : Shelf} {now : Timestamp}

theorem get_of_record (h : s.Sound) {id : Uuid} {n : Node} (hn : s.forest id = some n.record) :
    s.get n.id = .ok n := by
  have hid : n.id = id := h.outline.rooted.own_id hn
  rw [hid]
  exact get_of_forest h.agrees hn

/-- A node that is got is listed once. -/
theorem Sound.shows (h : s.Sound) {n : Node} (hn : s.get n.id = .ok n) : store.Shows s n := by
  have hnode := (get_eq_ok_iff h.agrees).1 hn
  have hlodged := h.outline.rooted.lodged (forest_of_node h.agrees hnode)
  obtain ⟨parent, hget, -⟩ := getParent_of_lodged h.agrees hlodged
  have hlists := lists_children h.agrees n.group
  refine ⟨fun _ => ?_, fun _ => ⟨_, ?_, filter_of_nodup hlists.nodup
    (hlists.mem_iff.2 ⟨hnode, rfl⟩)⟩⟩
  · show s.reading (s.get n.id) = _
    rw [hn]
    rfl
  · show s.reading (s.list n.group) = _
    rw [list_eq hget]
    rfl

theorem get_of_relocate (h : s.Sound) {id : Uuid}
    {find : Space → Except StoreError (Option Uuid)} {target : Target} {n : Node}
    (hs : s.relocate id find target now = .ok (n, s')) : s'.get n.id = .ok n := by
  have h' : s'.Sound := h.of_evolves (relocate_evolves h hs)
  obtain ⟨r, parent, p, hr, hfind, hl, hclear, hplace⟩ := of_relocate h.agrees h.outline.rooted hs
  have heq := relocate_eq target now h.agrees h.outline.rooted hr hfind hl hclear
  rw [hplace] at heq
  obtain ⟨m, t, ht, -, -, hm, -⟩ := heq
  rw [hs] at ht
  cases ht
  exact get_of_record h' hm

theorem get_of_insert (h : s.Sound) {n m : Node} {entry : Entry}
    (hs : s.insert n entry now = .ok (m, s')) : s'.get m.id = .ok m := by
  have h' : s'.Sound := h.of_evolves (insert_evolves h hs)
  obtain ⟨hcheck, hn, hl⟩ := of_insert h.agrees hs
  cases entry with
  -- its own key was free, as a taken one is refused
  | own =>
    have hfree : s.KeyFree n := Classical.not_not.1 fun htaken => by
      rw [insert_own_taken h.agrees hcheck hn hl htaken] at hs
      cases hs
    obtain ⟨m', t, stamp, ht, -, -, hm, -⟩ := insert_own_eq now h.agrees hcheck hn hl hfree
    rw [hs] at ht
    cases ht
    exact get_of_record h' hm
  | last =>
    have heq := insert_last_eq now h.agrees hcheck hn hl
    split at heq
    · rw [hs] at heq
      cases heq
    · obtain ⟨m', t, stamp, ht, -, -, hm, -⟩ := heq
      rw [hs] at ht
      cases ht
      exact get_of_record h' hm

/-- What a call has written can be got. -/
theorem get_of_written (h : s.Sound) {c : StoreCall} {answer : c.Answer}
    (hs : store.serve c now s = .ok (answer, s')) {n : Node} (hn : c.written? answer = some n) :
    s'.get n.id = .ok n := by
  cases c with
  | get | delete | list | nextSort | renumber => cases hn
  | create m =>
    obtain rfl := Option.some.inj hn
    change s.insert m .own now = .ok (answer, s') at hs
    exact get_of_insert h hs
  | createLast m =>
    obtain rfl := Option.some.inj hn
    change s.insert m .last now = .ok (answer, s') at hs
    exact get_of_insert h hs
  | update id patch =>
    obtain rfl := Option.some.inj hn
    change s.update id patch now = .ok (answer, s') at hs
    -- the answer is what has been put in place of the old node
    have h' : s'.Sound := h.of_evolves (update_evolves h hs)
    obtain ⟨m, hm, hcheck⟩ := of_update h.agrees hs
    obtain ⟨t, ht, -, -, hput⟩ := update_eq now h.agrees hm hcheck
    rw [hs] at ht
    cases ht
    have hm' : s'.forest (m.patch patch now).id = some (m.patch patch now).record := by
      rw [hput]
      exact Forest.put_self _ (m.patch patch now).record
    exact get_of_record h' hm'
  | moveLast id parent =>
    obtain rfl := Option.some.inj hn
    change s.relocate id (fun _ => .ok parent) .last now = .ok (answer, s') at hs
    exact get_of_relocate h hs
  | moveAt id parent sort =>
    obtain rfl := Option.some.inj hn
    change s.relocate id (fun _ => .ok parent) (.at sort) now = .ok (answer, s') at hs
    exact get_of_relocate h hs
  | reorder id sort =>
    obtain rfl := Option.some.inj hn
    change s.relocate id (fun space => (space.get id).map (·.parent)) (.at sort) now =
      .ok (answer, s') at hs
    exact get_of_relocate h hs
  | moveBeside id anchor side =>
    obtain rfl := Option.some.inj hn
    change s.moveBeside id anchor side now = .ok (answer, s') at hs
    unfold moveBeside at hs
    split at hs
    · cases hs
    · exact get_of_relocate h hs

end Shelf

/-! ## In the table -/

/-- The columns of a node read as the node. -/
theorem Row.toNode_line {n : Node} (hfits : n.properties.Fits Json.maxDepth)
    (hcreated : n.created.HasPlainYear) (hupdated : n.updated.HasPlainYear) :
    n.line.row.toNode = .ok n := by
  refine toNode_row_eq_ok_iff.2 ⟨rfl, rfl, rfl, rfl, rfl, hfits.ofText?_text, rfl, ?_,
    Timestamp.ofText?_toOffsetText hcreated, Timestamp.ofText?_toOffsetText hupdated⟩
  cases ha : n.archived <;> simp [Node.line, ha]

/-- A row that is changed to hold a patched node reads as that node. -/
theorem Row.toNode_patchedLine {n : Node} {l : Line} {patch : Patch} {now : Timestamp}
    (hnode : l.row.toNode = .ok n) (hyear : now.HasPlainYear)
    (hfits : ∀ v, patch.properties = some v → v.Fits Json.maxDepth) :
    (patchedLine (n.patch patch now) l).row.toNode = .ok (n.patch patch now) := by
  obtain ⟨hid, hspace, hkind, hparent, -, hread, hsort, -, hcreated, -⟩ :=
    toNode_row_eq_ok_iff.1 hnode
  have hproperties := Node.fits_patch hread hfits now
  refine toNode_row_eq_ok_iff.2 ⟨hid, hspace, hkind, hparent, rfl, hproperties.ofText?_text, hsort,
    ?_, hcreated, Timestamp.ofText?_toOffsetText hyear⟩
  cases ha : (n.patch patch now).archived <;> simp [patchedLine, ha]

namespace Database

variable {db db' : Database} {now : Timestamp}

theorem fetch_of_line {f : Forest Row.Payload String} (hholds : db.rows.Holds f)
    {id : Uuid} {l : Line} (hl : f id = some l) {n : Node} (hnode : l.row.toNode = .ok n) :
    db.rows.fetch n.id = .ok n := by
  obtain ⟨hid, -⟩ := Row.toNode_row_eq_ok_iff.1 hnode
  obtain ⟨rfl, -⟩ := hholds.line hl
  rw [hid, hholds.fetch_some hl, hnode]
  rfl

/-- A node that is fetched is listed once, where all rows can be read. -/
theorem Sound.shows (h : db.Sound) (hr : db.rows.Readable) {n : Node}
    (hn : db.rows.fetch n.id = .ok n) : store.Shows db n := by
  obtain ⟨l, hl, hnode⟩ := h.holds.of_fetch hn
  obtain ⟨-, hspace, -, hparent, -, -, hsort, -⟩ := Row.toNode_row_eq_ok_iff.1 hnode
  have hgroup : l.group = n.group := by rw [Record.group, Node.group, hspace, hparent]
  obtain ⟨ns, hlist⟩ : ∃ ns, db.rows.list n.group = .ok ns := by
    refine h.holds.list_of_readable hr fun p hp => ?_
    obtain ⟨q, hq, hqs, -⟩ := (h.outline.rooted.lodged hl).exists_parent (hparent.symm.trans hp)
    exact ⟨q, hq, hqs.trans hspace.symm⟩
  have hlisting := h.holds.isListing_of_list h.outline.keys hlist
  -- somebody with its identifier is listed, and the row of that identifier reads as the node
  have hmem : n ∈ ns := by
    have hin : n.sibling ∈ ns.map Node.sibling :=
      hlisting.mem_iff.2 ⟨l, hl, hgroup, hsort.symm⟩
    obtain ⟨m, hm, hmid⟩ := List.mem_map.1 hin
    have hrows : (db.rows.select n.group).mapM (fun r => StoreError.ofFault r.toNode) = .ok ns :=
      Table.Holds.fetchChildren_of_list hlist
    obtain ⟨r, hrow, hread⟩ := exists_of_mem_mapM hrows hm
    obtain ⟨q, hq, -, rfl⟩ := h.holds.mem_select_iff.1 hrow
    rw [StoreError.ofFault, mapError_eq_ok_iff] at hread
    have hqid : q.id = n.id := by
      rw [← (Row.toNode_row_eq_ok_iff.1 hread).1]
      exact congrArg Sibling.id hmid
    rw [hqid, hl] at hq
    rw [← Option.some.inj hq, hnode] at hread
    rwa [Except.ok.inj hread]
  have hnodup : (ns.map (·.id)).Nodup := by
    have hids := hlisting.nodup
    rwa [List.map_map] at hids
  refine ⟨fun _ => ?_, fun _ => ⟨ns, ?_, filter_of_nodup hnodup hmem⟩⟩
  · show db.reading (db.rows.fetch n.id) = _
    rw [hn]
    rfl
  · show db.reading (db.rows.list n.group) = _
    rw [hlist]
    rfl

/-- A move answers with what it has read after writing. -/
theorem fetch_of_relocate (h : db.Sound) {id : Uuid} {parent : Option Uuid} {target : Target}
    {n : Node} (hs : db.rows.relocate db.gap id parent target now = .ok (n, db'.rows)) :
    db'.rows.fetch n.id = .ok n := by
  obtain ⟨l, p, -, -, -, -, hholds, hfetch⟩ := h.holds.of_relocate h.outline hs
  obtain ⟨q, hq, hnode⟩ := hholds.of_fetch hfetch
  obtain ⟨hid, -⟩ := Row.toNode_row_eq_ok_iff.1 hnode
  obtain ⟨rfl, -⟩ := hholds.line hq
  rw [hid]
  exact hfetch

/-- What a call has written can be fetched, if it can be read back from its text. -/
theorem fetch_of_written (h : db.Sound) (hyear : now.HasPlainYear) {c : StoreCall}
    (hc : c.Storable) {answer : c.Answer} (hs : store.serve c now db = .ok (answer, db')) {n : Node}
    (hn : c.written? answer = some n) : db'.rows.fetch n.id = .ok n := by
  cases c with
  | get | delete | list | nextSort | renumber => cases hn
  | create m =>
    obtain rfl := Option.some.inj hn
    obtain ⟨hfits, hcreated, hupdated⟩ := hc.created m rfl
    obtain ⟨heq, -, -, hholds, -⟩ := h.holds.of_create h.outline.keys (of_writing hs).1
    rw [heq]
    exact fetch_of_line hholds (Forest.put_self _ m.line)
      (Row.toNode_line hfits hcreated hupdated)
  -- the answer is the node with the key that was found for it
  | createLast m =>
    obtain rfl := Option.some.inj hn
    obtain ⟨hfits, hcreated, hupdated⟩ := hc.created m rfl
    obtain ⟨p, sort, g, -, -, -, heq, hholds, hl, -⟩ :=
      h.holds.of_createLast h.outline.keys (of_writing hs).1
    subst heq
    exact fetch_of_line hholds hl (Row.toNode_line hfits hcreated hupdated)
  | update id patch =>
    obtain rfl := Option.some.inj hn
    obtain ⟨l, m, hl, hnode, heq, -, hholds⟩ := h.holds.of_updateNode (of_writing hs).1
    rw [heq] at hholds ⊢
    exact fetch_of_line hholds (Forest.put_self _ (patchedLine (m.patch patch now) l))
      (Row.toNode_patchedLine hnode hyear (hc.updated id patch rfl))
  | moveLast | moveAt =>
    obtain rfl := Option.some.inj hn
    exact fetch_of_relocate h (of_writing hs).1
  | reorder id sort =>
    obtain rfl := Option.some.inj hn
    obtain ⟨m, -, hrelocate⟩ := bind_eq_ok_iff.1 (of_writing hs).1
    exact fetch_of_relocate h hrelocate
  | moveBeside id anchor side =>
    obtain rfl := Option.some.inj hn
    obtain ⟨-, m, a, -, -, -, hrelocate⟩ := Table.of_moveBeside (of_writing hs).1
    exact fetch_of_relocate h hrelocate

end Database

/-! ## After every run -/

/-- After every run of either store, what a successful call has written is what is read next, alone
and in its group. In the table the rows have to be readable before the call, and what the call
brings along has to be readable from its text. -/
theorem written_shows_run (gap : Gap) (calls : List (StoreCall × Timestamp)) (c : StoreCall)
    (now : Timestamp) :
    (∀ answer s' n, Shelf.store.serve c now (Shelf.store.run calls (.empty gap)) =
        .ok (answer, s') → c.written? answer = some n → Shelf.store.Shows s' n) ∧
    ((Database.store.run calls (.empty gap)).rows.Readable → c.Storable → now.HasPlainYear →
      ∀ answer db' n, Database.store.serve c now (Database.store.run calls (.empty gap)) =
        .ok (answer, db') → c.written? answer = some n → Database.store.Shows db' n) := by
  have hshelf := Shelf.sound_run gap calls
  have hrows := Database.sound_run gap calls
  refine ⟨fun answer s' n hs hn => ?_, fun hr hc hyear answer db' n hs hn => ?_⟩
  · exact (hshelf.serve hs).shows (Shelf.get_of_written hshelf hs hn)
  · exact (hrows.serve hs).shows (Database.readable_serve hrows hr hc hyear hs)
      (Database.fetch_of_written hrows hyear hc hs hn)

namespace Sample

/-- A fourth page, below the third. -/
def append : StoreCall := .createLast (page 5 (some (uuid 4)))

theorem storable_append : append.Storable where
  created n hn := by
    cases hn
    exact ⟨.obj .nil fun m hm => (by cases hm), by decide, by decide⟩
  updated id patch hc := by cases hc

end Sample

/-- The page that is created is shown as it was answered. -/
theorem written_shows_run_append :
    (∃ n s', Shelf.store.serve Sample.append Sample.time
        (Shelf.store.run Sample.calls (.empty .standard)) = .ok (n, s') ∧
      Shelf.store.Shows s' n) ∧
    (∃ n db', Database.store.serve Sample.append Sample.time
        (Database.store.run Sample.calls (.empty .standard)) = .ok (n, db') ∧
      Database.store.Shows db' n) := by
  obtain ⟨hshelf, hrows⟩ := written_shows_run .standard Sample.calls Sample.append Sample.time
  constructor
  · obtain ⟨⟨n, s'⟩, hs⟩ : ∃ a, Shelf.store.serve Sample.append Sample.time
        (Shelf.store.run Sample.calls (.empty .standard)) = .ok a :=
      exists_eq_ok_of_isOk (by decide +kernel)
    exact ⟨n, s', hs, hshelf n s' n hs rfl⟩
  · obtain ⟨⟨n, db'⟩, hs⟩ : ∃ a, Database.store.serve Sample.append Sample.time
        (Database.store.run Sample.calls (.empty .standard)) = .ok a :=
      exists_eq_ok_of_isOk (by decide +kernel)
    exact ⟨n, db', hs, hrows (by decide +kernel) Sample.storable_append (by decide) n db' n hs rfl⟩

end Outline
