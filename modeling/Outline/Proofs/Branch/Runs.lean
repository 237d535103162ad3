import Outline.Proofs.Branch.Live
import Outline.Proofs.Branch.Rows
import Outline.Proofs.Indexed.Runs
import Outline.Proofs.Stored

/-!
# The live part of a branch in both stores

After every run the stores list all children of a node, by ascending keys, and their links lead up
to roots. A stored node never has the nil identifier, for which a request would be refused. So the
request for the branch of any stored node is answered with the live part of it.

In the table the rows have to be readable.

Main results:

* `Shelf.outlined`, `Database.outlined` — the stores list branches completely and in order;
* `live_branches_run` — what the request for a branch answers after any run.
-/

namespace Outline

/-! ## In memory -/

namespace Shelf

variable {s : Shelf}

/-- The node that is found under an identifier, if there is one. -/
def node? (s : Shelf) (id : Uuid) : Option Node :=
  (s.get id).toOption

/-- The nodes of a group. -/
def listing (s : Shelf) (group : Group) : List Node :=
  (s.space group.space).children group.parent

theorem node?_eq_some_iff {id : Uuid} {n : Node} : s.node? id = some n ↔ s.get id = .ok n :=
  toOption_eq_some_iff

theorem shown_node? (s : Shelf) : shown s.node? = s.forest := by
  funext id
  unfold shown node? forest
  cases s.get id <;> rfl

/-- What is found is in the table of its space. -/
theorem node?_eq_some_iff_nodes (h : s.Agrees) {id : Uuid} {n : Node} :
    s.node? id = some n ↔ (s.space n.space).nodes[id]? = some n :=
  node?_eq_some_iff.trans (get_eq_ok_iff h)

theorem forest_of_node? (h : s.Agrees) {id : Uuid} {n : Node} (hn : s.node? id = some n) :
    s.forest id = some n.record :=
  forest_of_node h ((node?_eq_some_iff_nodes h).1 hn)

theorem browsable (h : s.Agrees) : store.Browsable s s.node? s.listing where
  own_id hn := (h.space _).own_id ((node?_eq_some_iff_nodes h).1 hn)
  get {id n} hn now := by
    change s.reading (s.get id) = _
    rw [node?_eq_some_iff.1 hn]
    rfl
  list {id n} hn now := by
    have hnode := (node?_eq_some_iff_nodes h).1 hn
    change s.reading (s.list ⟨n.space, some id⟩) = _
    simp only [Shelf.list, Space.getParent, Space.get, hnode]
    rfl
  below {id n} hn m hm := by
    obtain ⟨hnode, hparent⟩ := (lists_children h ⟨n.space, some id⟩).mem_iff.1 hm
    have hspace : m.space = n.space := (h.space _).own_space hnode
    rw [← hspace] at hnode
    exact ⟨(node?_eq_some_iff_nodes h).2 hnode, hspace, hparent⟩

theorem outlined (h : s.Sound) (hp : s.Proper) : store.Outlined s s.node? s.listing where
  toBrowsable := browsable h.agrees
  sorted _ := (lists_children h.agrees _).ascending
  complete {id n m} hn hm hparent := by
    -- a parent is in the space of its child, so this is the space in which is listed
    have hlodged := h.outline.rooted.lodged (forest_of_node? h.agrees hm)
    obtain ⟨q, hq, hspace, -⟩ := hlodged.exists_parent hparent
    rw [forest_of_node? h.agrees hn] at hq
    obtain rfl := Option.some.inj hq
    have hspace : n.space = m.space := hspace
    refine (lists_children h.agrees ⟨n.space, some id⟩).mem_iff.2 ⟨?_, hparent⟩
    rw [hspace]
    exact (node?_eq_some_iff_nodes h.agrees).1 hm
  ascent hn := by
    rw [shown_node?]
    exact h.outline.rooted.ascent (forest_of_node? h.agrees hn)
  proper {id n} hn := by
    have hr := forest_of_node? h.agrees hn
    exact h.outline.rooted.own_id hr ▸ (hp hr).id

theorem proper_run (gap : Gap) (calls : List (StoreCall × Timestamp)) :
    (store.run calls (empty gap)).Proper :=
  (Store.run_induction (P := fun s : Shelf => s.Sound ∧ s.Proper)
    (fun _ _ _ _ _ h hs => ⟨h.1.serve hs, proper_serve h.1 h.2 hs⟩) calls
    ⟨sound_empty gap, proper_empty gap⟩).2

end Shelf

/-! ## In the table -/

namespace Database

variable {db : Database}

theorem Sound.filed (h : db.Sound) (hr : db.rows.Readable) : db.rows.Filed where
  readable := hr
  written r hmem := by
    obtain ⟨l, -, rfl⟩ := h.holds.row hmem
    exact ⟨l.id, rfl⟩
  nodup := h.holds.nodup

/-- What is fetched is a record with the place of the node. -/
theorem Sound.line_of_node? (h : db.Sound) {id : Uuid} {n : Node} (hn : db.node? id = some n) :
    ∃ l, db.rows.forest id = some l ∧ l.id = n.id ∧ l.space = n.space ∧ l.parent = n.parent := by
  obtain ⟨l, hl, hread⟩ := h.holds.of_fetch (node?_eq_some_iff.1 hn)
  obtain ⟨hid, hspace, -, hparent, -⟩ := Row.toNode_row_eq_ok_iff.1 hread
  exact ⟨l, hl, hid.symm, hspace.symm, hparent.symm⟩

/-- The nodes that are listed are the members of their group. -/
theorem Sound.isListing (h : db.Sound) (hr : db.rows.Readable) (group : Group) :
    IsListing db.rows.forest group ((db.listing group).map Node.sibling) := by
  obtain ⟨ns, hns⟩ := h.holds.exists_fetchChildren hr group
  rw [listing, hns]
  have hlist := h.holds.isListing_members h.outline.keys group
  rwa [← h.holds.map_sibling_of_fetchChildren hns] at hlist

theorem outlined (h : db.Sound) (hp : db.Proper) (hr : db.rows.Readable) :
    store.Outlined db db.node? db.listing where
  toBrowsable := browsable (h.filed hr)
  sorted {id n} _ := by
    have hascending := (h.isListing hr ⟨n.space, some id⟩).ascending
    rwa [Sibling.Ascending, List.pairwise_map] at hascending
  complete {id n m} hn hm hparent := by
    obtain ⟨l, hl, -, hspace, -⟩ := h.line_of_node? hn
    obtain ⟨k, hk, -, hkspace, hkparent⟩ := h.line_of_node? hm
    rw [hparent] at hkparent
    obtain ⟨q, hq, hsame, -⟩ := (h.outline.rooted.lodged hk).exists_parent hkparent
    rw [hl] at hq
    obtain rfl := Option.some.inj hq
    have hgroup : k.group = ⟨n.space, some id⟩ := by
      rw [Record.group, hkparent, ← hspace, hsame]
    -- somebody with its identifier is listed, and whoever is listed is stored
    have hids := (h.isListing hr ⟨n.space, some id⟩).id_mem_iff.2 ⟨k, hk, hgroup⟩
    rw [List.map_map] at hids
    obtain ⟨m', hm', hid⟩ := List.mem_map.1 hids
    have hid : m'.id = m.id := hid
    obtain ⟨hstored, -⟩ := (browsable (h.filed hr)).below hn m' hm'
    rw [hid, hm] at hstored
    rwa [Option.some.inj hstored]
  ascent {id n} hn := by
    obtain ⟨l, hl, -⟩ := h.line_of_node? hn
    -- the nodes on the way up can be read, and name the parents that their rows name
    obtain ⟨path, hpath⟩ := h.outline.rooted.ascent hl
    refine ⟨path, hpath.congr fun a _ k hk => ?_⟩
    obtain ⟨m, hfetch, hread⟩ := h.holds.exists_fetch hr hk
    have hrecord : shown db.node? a = some m.record := by
      rw [shown, node?_eq_some_iff.2 hfetch]
      rfl
    exact ⟨m.record, hrecord, (Row.toNode_row_eq_ok_iff.1 hread).2.2.2.1⟩
  proper {id n} hn := by
    obtain ⟨l, hl, -⟩ := h.line_of_node? hn
    exact h.outline.rooted.own_id hl ▸ (hp hl).id

theorem proper_run (gap : Gap) (calls : List (StoreCall × Timestamp)) :
    (store.run calls (empty gap)).Proper :=
  (Store.run_induction (P := fun db : Database => db.Sound ∧ db.Proper)
    (fun _ _ _ _ _ h hs => ⟨h.1.serve hs, proper_serve h.1 h.2 hs⟩) calls
    ⟨sound_empty gap, proper_empty gap⟩).2

end Database

/-! ## After every run -/

/-- The request for the branch of a stored node is answered, after every run of either store, with
the live part of the branch: below each node its live children, by ascending keys. In the table
every row has to be readable. -/
theorem live_branches_run (gap : Gap) (calls : List (StoreCall × Timestamp)) :
    Shelf.store.ShowsBranches (Shelf.store.run calls (.empty gap))
      (Shelf.store.run calls (.empty gap)).node? ∧
    ((Database.store.run calls (.empty gap)).rows.Readable →
      Database.store.ShowsBranches (Database.store.run calls (.empty gap))
        (Database.store.run calls (.empty gap)).node?) := by
  have hshelf := Shelf.sound_run gap calls
  have hrows := Database.sound_run gap calls
  constructor
  · exact (Shelf.outlined hshelf (Shelf.proper_run gap calls)).showsBranches
  · exact fun hr => (Database.outlined hrows (Database.proper_run gap calls) hr).showsBranches

/-- Of three pages one below the other, the branch of the first has them all, in either store. -/
theorem live_branches_run_chain :
    (∃ t : Tree, t.IsLive (Shelf.store.run Sample.calls (.empty .standard)).node?
        (Sample.uuid 2) ∧
      Shelf.store.EndsWithTree .standard (fun _ => Sample.time) Sample.time (Sample.uuid 9) .page
        (Sample.uuid 2) (Shelf.store.run Sample.calls (.empty .standard)) t) ∧
    ∃ t : Tree, t.IsLive (Database.store.run Sample.calls (.empty .standard)).node?
        (Sample.uuid 2) ∧
      Database.store.EndsWithTree .standard (fun _ => Sample.time) Sample.time (Sample.uuid 9) .page
        (Sample.uuid 2) (Database.store.run Sample.calls (.empty .standard)) t := by
  obtain ⟨hshelf, htable⟩ := live_branches_run .standard Sample.calls
  have htable := htable (by decide +kernel)
  have hpage : ((Shelf.store.run Sample.calls (.empty .standard)).node? (Sample.uuid 2)).map
      (·.kind) = some .page := by decide +kernel
  have hrow : ((Database.store.run Sample.calls (.empty .standard)).node? (Sample.uuid 2)).map
      (·.kind) = some .page := by decide +kernel
  constructor
  · obtain ⟨t, hlive, hends⟩ := hshelf.of_kind hpage
    exact ⟨t, hlive, hends _ _ _ _⟩
  · obtain ⟨t, hlive, hends⟩ := htable.of_kind hrow
    exact ⟨t, hlive, hends _ _ _ _⟩

end Outline
