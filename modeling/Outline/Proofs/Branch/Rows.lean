import Outline.Proofs.Branch.Reading
import Outline.Proofs.Table.View

/-!
# Branches in a table

A table can be browsed when each row reads as a node, is found under the identifier of that node,
and no two rows have one identifier. Nothing is asked of the links: a parent may be missing, stand
in another space, or lead back in a circle. The request for the branch of a row still comes to an
end, and in the tree that it answers nobody occurs twice.

One identifier is left out, the nil one. Whoever gives it is taken to have given none, and is
refused before the table is looked at.

Main results:

* `Database.browsable` — such a table can be browsed;
* `Database.branch_ends` — the request for the branch of a row ends with a tree drawn from the
  table;
* `Store.branch_nil` — the request for that of the nil identifier is refused, and makes no call.
-/

namespace Outline

theorem toOption_eq_some_iff {ε α : Type} {x : Except ε α} {a : α} :
    x.toOption = some a ↔ x = .ok a := by
  cases x <;> simp [Except.toOption]

namespace Row

theorem column_eq_ok_iff {α : Type} {parse : String → Option α} {name text : String} {a : α} :
    column parse name text = .ok a ↔ parse text = some a := by
  unfold column
  cases parse text <;> simp

/-- What a row that can be read says in the columns for identifiers. -/
theorem of_toNode {r : Row} {n : Node} (h : r.toNode = .ok n) :
    Uuid.ofText? r.id = some n.id ∧ Uuid.ofText? r.space = some n.space ∧
      r.readParent = .ok n.parent := by
  obtain ⟨id, hid, h⟩ := bind_eq_ok_iff.1 h
  obtain ⟨space, hspace, h⟩ := bind_eq_ok_iff.1 h
  obtain ⟨kind, -, h⟩ := bind_eq_ok_iff.1 h
  obtain ⟨parent, hparent, h⟩ := bind_eq_ok_iff.1 h
  obtain ⟨properties, -, h⟩ := bind_eq_ok_iff.1 h
  obtain ⟨created, -, h⟩ := bind_eq_ok_iff.1 h
  obtain ⟨updated, -, h⟩ := bind_eq_ok_iff.1 h
  cases h
  exact ⟨column_eq_ok_iff.1 hid, column_eq_ok_iff.1 hspace, hparent⟩

end Row

namespace Table

/-- Every row can be read and has its identifier, by which rows are told apart, in the form in which
identifiers are written. -/
structure Filed (t : Table) : Prop where
  readable : t.Readable
  written  : ∀ r ∈ t, ∃ id : Uuid, r.id = id.toText
  nodup    : (t.map (·.id)).Nodup

namespace Filed

variable {t : Table} (h : t.Filed)
include h

/-- A row that reads as a node has its identifier as text. -/
theorem text_of_toNode {r : Row} (hr : r ∈ t) {n : Node} (hn : r.toNode = .ok n) :
    r.id = n.id.toText := by
  -- what is written reads back, so it is the node's identifier that was written
  obtain ⟨id, hid⟩ := h.written r hr
  have hread := (Row.of_toNode hn).1
  rw [hid, Uuid.ofText?_toText] at hread
  rw [hid, Option.some.inj hread]

theorem fetch_of_row {r : Row} (hr : r ∈ t) {n : Node} (hn : r.toNode = .ok n) :
    t.fetch n.id = .ok n := by
  have hfind : t.find? (fun q => decide (q.id = r.id)) = some r := find?_of_nodup h.nodup hr
  rw [h.text_of_toNode hr hn] at hfind
  have hfind : t.find n.id.toText = some r := hfind
  rw [fetch, hfind]
  dsimp only
  rw [StoreError.ofFault, hn, mapError_ok]

omit h in
theorem row_of_fetch {id : Uuid} {n : Node} (hn : t.fetch id = .ok n) :
    ∃ r ∈ t, r.id = id.toText ∧ r.toNode = .ok n := by
  unfold fetch at hn
  split at hn
  · next r hr =>
    have hfind : t.find? (fun q => decide (q.id = id.toText)) = some r := hr
    have hid := List.find?_some hfind
    rw [StoreError.ofFault, mapError_eq_ok_iff] at hn
    exact ⟨r, List.mem_of_find?_eq_some hfind, by simpa using hid, hn⟩
  · cases hn

theorem id_of_fetch {id : Uuid} {n : Node} (hn : t.fetch id = .ok n) : n.id = id := by
  obtain ⟨r, hr, hid, hread⟩ := row_of_fetch hn
  rw [h.text_of_toNode hr hread] at hid
  exact Uuid.toText_inj.1 hid

omit h in
/-- A selected row says where it stands. -/
theorem of_mem_select {group : Group} {r : Row} (hr : r ∈ t.select group) :
    r ∈ t ∧ r.space = group.space.toText ∧ r.parent = group.parent.map Uuid.toText := by
  rw [select, List.mem_mergeSort, List.mem_filter, decide_eq_true_eq] at hr
  exact hr

theorem exists_fetchChildren (group : Group) : ∃ ns, t.fetchChildren group = .ok ns := by
  refine exists_mapM_eq_ok fun r hr => ?_
  obtain ⟨n, hn⟩ := h.readable r (of_mem_select hr).1
  exact ⟨n, by rw [StoreError.ofFault, hn, mapError_ok]⟩

/-- The nodes of a group are found under their identifiers, and stand in the group. -/
theorem of_mem_fetchChildren {group : Group} {ns : List Node} (hns : t.fetchChildren group = .ok ns)
    {m : Node} (hm : m ∈ ns) :
    t.fetch m.id = .ok m ∧ m.space = group.space ∧ m.parent = group.parent := by
  obtain ⟨r, hr, hread⟩ := exists_of_mem_mapM hns hm
  rw [StoreError.ofFault, mapError_eq_ok_iff] at hread
  -- rows are selected by the texts of a space and a parent, and those texts are what is read
  obtain ⟨hr, hspace, hparent⟩ := of_mem_select hr
  obtain ⟨-, hs, hp⟩ := Row.of_toNode hread
  rw [hspace, Uuid.ofText?_toText] at hs
  refine ⟨h.fetch_of_row hr hread, (Option.some.inj hs).symm, ?_⟩
  rw [Row.readParent, hparent] at hp
  cases hg : group.parent with
  | none =>
    rw [hg] at hp
    exact (Except.ok.inj hp).symm
  | some p =>
    rw [hg] at hp
    obtain ⟨q, hq, heq⟩ := map_eq_ok_iff.1 hp
    rw [Row.column_eq_ok_iff, Uuid.ofText?_toText] at hq
    rw [← heq, Option.some.inj hq]

omit h in
/-- Below a node that is fetched its children are listed. -/
theorem list_of_fetch {id : Uuid} {n : Node} (hn : t.fetch id = .ok n) :
    t.list ⟨n.space, some id⟩ = t.fetchChildren ⟨n.space, some id⟩ := by
  have hparent : t.fetchParent (some id) = .ok (some n) := by
    rw [fetchParent, hn]
    rfl
  unfold list
  rw [hparent, bind_ok]
  dsimp only
  exact if_neg (not_not.2 rfl)

end Filed

end Table

namespace Database

variable {db : Database}

/-- The node that is fetched under an identifier, if there is one. -/
def node? (db : Database) (id : Uuid) : Option Node :=
  (db.rows.fetch id).toOption

/-- The nodes of a group, if they can be read. -/
def listing (db : Database) (group : Group) : List Node :=
  (db.rows.fetchChildren group).toOption.getD []

theorem node?_eq_some_iff {id : Uuid} {n : Node} :
    db.node? id = some n ↔ db.rows.fetch id = .ok n :=
  toOption_eq_some_iff

/-- A table whose rows are filed can be browsed, whatever their links are like. -/
theorem browsable (h : db.rows.Filed) : store.Browsable db db.node? db.listing where
  own_id hn := h.id_of_fetch (node?_eq_some_iff.1 hn)
  get {id n} hn now := by
    change db.reading (db.rows.fetch id) = _
    rw [node?_eq_some_iff.1 hn]
    rfl
  list {id n} hn now := by
    obtain ⟨ns, hns⟩ := h.exists_fetchChildren ⟨n.space, some id⟩
    change db.reading (db.rows.list ⟨n.space, some id⟩) = _
    rw [Table.Filed.list_of_fetch (node?_eq_some_iff.1 hn), listing, hns]
    rfl
  below {id n} hn m hm := by
    obtain ⟨ns, hns⟩ := h.exists_fetchChildren ⟨n.space, some id⟩
    rw [listing, hns] at hm
    obtain ⟨hm, hspace, hparent⟩ := h.of_mem_fetchChildren hns hm
    exact ⟨node?_eq_some_iff.2 hm, hspace, hparent⟩

end Database

/-! ## Trees drawn from a table -/

/-- The nodes of the tree are rows of the table, none of them twice, with the asked one at the root
and each other one below the node that it names as its parent. -/
structure Tree.DrawnFrom (t : Table) (id : Uuid) (tree : Tree) : Prop where
  root_id : tree.root.id = id
  nodup   : (tree.nodes.map (·.id)).Nodup
  parent  : tree.Licensed fun n children => ∀ c ∈ children, c.parent = some n.id
  row     : ∀ n ∈ tree.nodes, ∃ r ∈ t, r.id = n.id.toText ∧ r.toNode = .ok n
  size    : tree.size ≤ t.length

/-- Of nodes that have rows there are no more than rows. -/
theorem Table.length_le_of_row {t : Table} {ns : List Node} (hnodup : (ns.map (·.id)).Nodup)
    (hrow : ∀ n ∈ ns, ∃ r ∈ t, r.id = n.id.toText) : ns.length ≤ t.length := by
  have htexts : (ns.map (·.id.toText)).Nodup := by
    have hmap := hnodup.map fun _ _ => Uuid.toText_inj.1
    rwa [List.map_map] at hmap
  have hsub : ns.map (·.id.toText) ⊆ t.map (·.id) := by
    intro text htext
    obtain ⟨n, hn, rfl⟩ := List.mem_map.1 htext
    obtain ⟨r, hr, hid⟩ := hrow n hn
    exact List.mem_map.2 ⟨r, hr, hid⟩
  have hlength := (List.Nodup.subperm htexts hsub).length_le
  rwa [List.length_map, List.length_map] at hlength

open Branch in
/-- The request for the branch of a row ends, whatever the links of the table are like, with a tree
drawn from the table. -/
theorem Database.branch_ends (gap : Gap) {t : Table} (ht : t.Filed) {r : Row} (hr : r ∈ t)
    {id : Uuid} (hid : r.id = id.toText) (hnil : id ≠ .nil) :
    ∃ tree : Tree, r.toNode = .ok tree.root ∧ tree.DrawnFrom t id ∧
      ∀ config clock now fresh,
        store.EndsWithTree config clock now fresh tree.root.kind id ⟨gap, t⟩ tree := by
  have hbrowsable : store.Browsable ⟨gap, t⟩ (node? ⟨gap, t⟩) (listing ⟨gap, t⟩) := browsable ht
  obtain ⟨root, hread⟩ := ht.readable r hr
  obtain rfl : root.id = id := Uuid.toText_inj.1 ((ht.text_of_toNode hr hread).symm.trans hid)
  have hroot : node? ⟨gap, t⟩ root.id = some root :=
    node?_eq_some_iff.2 (ht.fetch_of_row hr hread)
  -- what is collected has grown from the root, so one tree comes of it
  obtain ⟨order, hwalk, hends⟩ := hbrowsable.exists_branch hroot hnil rfl
  have hspans := hbrowsable.spans root.space
  have hgrown := hwalk.grown hspans ⟨hroot, rfl⟩
  obtain ⟨tree, htree, rfl, hperm, hlicensed⟩ := exists_tree
    (R := fun n children => ∀ c ∈ children, c.parent = some n.id) hgrown
    fun _ n _ _ c hc => of_decide_eq_true (List.mem_filter.1 hc).2
  -- and every node of it was fetched or listed
  have hrow : ∀ n ∈ tree.nodes, ∃ r ∈ t, r.id = n.id.toText ∧ r.toNode = .ok n := fun n hn =>
    Table.Filed.row_of_fetch (node?_eq_some_iff.1
      (hwalk.mem_scope hspans ⟨hroot, rfl⟩ n (hperm.mem_iff.1 hn)).1)
  have hnodup := (hperm.map (·.id)).nodup_iff.2 hgrown.nodup
  refine ⟨tree, hread, ⟨rfl, hnodup, hlicensed, hrow, ?_⟩, hends tree htree ?_⟩
  · rw [← tree.length_nodes]
    exact Table.length_le_of_row hnodup fun n hn => by
      obtain ⟨r, hr, hid, -⟩ := hrow n hn
      exact ⟨r, hr, hid⟩
  · rw [← tree.length_nodes, hperm.length_eq]

/-- Three pages in a circle, each below the one before. -/
def Sample.circle : Table :=
  [.ofNode (page 2 (some (uuid 4))), .ofNode (page 3 (some (uuid 2))),
    .ofNode (page 4 (some (uuid 3)))]

theorem Sample.filed_circle : circle.Filed where
  readable := by decide +kernel
  written r hr := by
    simp only [circle, List.mem_cons, List.not_mem_nil, or_false] at hr
    rcases hr with rfl | rfl | rfl <;> exact ⟨_, rfl⟩
  nodup := by decide +kernel

/-- The branch of a page in the circle ends, with a tree in which it is the root. -/
theorem Database.branch_ends_circle :
    Sample.circle.Filed ∧ ∃ tree : Tree, tree.DrawnFrom Sample.circle (Sample.uuid 3) ∧
      store.EndsWithTree .standard (fun _ => Sample.time) Sample.time (Sample.uuid 9) .page
        (Sample.uuid 3) ⟨.standard, Sample.circle⟩ tree := by
  have hmem : Row.ofNode (Sample.page 3 (some (Sample.uuid 2))) ∈ Sample.circle := by
    simp [Sample.circle]
  have hid : (Row.ofNode (Sample.page 3 (some (Sample.uuid 2)))).id = (Sample.uuid 3).toText := rfl
  have hkind : (Row.ofNode (Sample.page 3 (some (Sample.uuid 2)))).toNode.map (·.kind) =
      .ok .page := by decide +kernel
  obtain ⟨tree, hread, hdrawn, hends⟩ :=
    branch_ends .standard Sample.filed_circle hmem hid (by decide)
  refine ⟨Sample.filed_circle, tree, hdrawn, ?_⟩
  rw [hread] at hkind
  exact Except.ok.inj hkind ▸ hends _ _ _ _

/-! ## The nil identifier -/

/-- A request for the branch of the nil identifier is refused before it makes any call, whatever the
store holds. -/
theorem Store.branch_nil {σ : Type} (store : Store σ) (config : Config)
    (clock : Nat → Timestamp) (now : Timestamp) (fresh : Uuid) (kind : Kind) (s : σ) :
    Service.perform config (Watched.server store clock fun _ => .none) now fresh
        (.branch kind .nil) (.start s) =
      (some (.error (.invalidArgument s!"get_{kind}_subtree" (.emptyId kind))), .start s) :=
  rfl

/-- A page with the nil identifier. -/
def Sample.nameless : Row :=
  .ofNode { page 2 none with id := .nil }

open Sample in
/-- A table with such a row is filed like any other, and yet the request for its branch does not
end with a tree: its argument is refused, and the table is not looked at. -/
theorem Database.not_branch_ends_nil :
    Table.Filed [nameless] ∧ nameless.id = Uuid.nil.toText ∧
      nameless.toNode.map (·.kind) = .ok .page ∧
      (¬∃ tree, store.EndsWithTree .standard (fun _ => time) time (uuid 9) .page .nil
        ⟨.standard, [nameless]⟩ tree) ∧
      let (ending, w) := Service.perform .standard
        (Watched.server store (fun _ => time) fun _ => .none) time (uuid 9) (.branch .page .nil)
        (.start ⟨.standard, [nameless]⟩)
      ending = some (.error (.invalidArgument "get_page_subtree" (.emptyId .page))) ∧
        w.visits = [] := by
  refine ⟨⟨by decide +kernel, fun r hr => ?_, by simp⟩, rfl, by decide +kernel, ?_, ?_⟩
  · obtain rfl := List.mem_singleton.1 hr
    exact ⟨.nil, rfl⟩
  · rintro ⟨tree, hends⟩
    rw [Store.EndsWithTree, Store.branch_nil] at hends
    cases hends.1
  · rw [Store.branch_nil]
    exact ⟨rfl, rfl⟩

end Outline
