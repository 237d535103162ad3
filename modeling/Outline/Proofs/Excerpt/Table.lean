import Outline.Proofs.Excerpt.Rows
import Outline.Proofs.Table.Runs

/-!
# Excerpts of the table store

A call on nodes of spaces that are seen is served by what is shown of the table as by the table
itself: it reads and writes nothing but rows that are shown. A call that works in another space
leaves what is shown as it is. What a call reads of the rows it has to be able to read without what
is not shown, so the times in the rows have to be legible, and the properties if they are not shown.

Main results:

* `createLast_table`, `relocate_table` and the like — calls on what is seen;
* `database_serve_of_apart` — calls on anything else.
-/

namespace Outline.Excerpt

variable {e : Excerpt} {t : Table}

/-! ## Soundness of what is shown -/

section Holds

variable {f : Forest Row.Payload String} (h : t.Holds f)
include h

/-- The rows with an identifier are where the node is. -/
theorem keeps_of_forest {id : Uuid} {seen : Bool}
    (hid : ∀ l, f id = some l → e.sees l.space = seen) :
    ∀ r ∈ t, r.id = id.toText → e.keeps r = seen := by
  intro r hr hrid
  obtain ⟨l, hl, rfl⟩ := h.row hr
  rw [Record.row_id, Uuid.toText_inj] at hrid
  subst hrid
  rw [e.keeps_of_space l.row_space]
  exact hid l hl

/-- In an outline a node and its parent share a space, so they are both seen or neither is. -/
theorem divides (ho : Rooted f) : e.Divides t where
  same r hr q hq hid := by
    obtain ⟨l, hl, rfl⟩ := h.row hr
    obtain ⟨m, hm, rfl⟩ := h.row hq
    rw [Record.row_id, Record.row_id, Uuid.toText_inj] at hid
    rw [hid, hl] at hm
    rw [Option.some.inj hm]
  below r hr q hq hparent := by
    obtain ⟨l, hl, rfl⟩ := h.row hr
    obtain ⟨m, hm, rfl⟩ := h.row hq
    rw [Record.row_parent, Record.row_id] at hparent
    obtain ⟨p, hp, hpid⟩ := Option.map_eq_some_iff.1 hparent
    obtain ⟨k, hk, hspace, -⟩ := (ho.lodged hm).exists_parent hp
    rw [Uuid.toText_inj.1 hpid, hl] at hk
    rw [e.keeps_of_space m.row_space, e.keeps_of_space l.row_space, Option.some.inj hk, hspace]

/-- A node that is fetched is seen if its line is. -/
theorem sees_of_fetch {id : Uuid} {seen : Bool} (hid : ∀ l, f id = some l → e.sees l.space = seen)
    {n : Node} (hn : t.fetch id = .ok n) : e.sees n.space = seen := by
  obtain ⟨l, hl, hnode⟩ := h.of_fetch hn
  obtain ⟨-, hspace, -⟩ := Row.toNode_row_eq_ok_iff.1 hnode
  rw [hspace]
  exact hid l hl

/-- The parent of a node is where the node is. -/
theorem near_parent (ho : Rooted f) {id : Uuid} (hid : e.Near f id) {n : Node}
    (hn : t.fetch id = .ok n) : ∀ p, n.parent = some p → e.Near f p := by
  intro p hp q hq
  obtain ⟨l, hl, hnode⟩ := h.of_fetch hn
  obtain ⟨-, -, -, hparent, -⟩ := Row.toNode_row_eq_ok_iff.1 hnode
  obtain ⟨k, hk, hspace, -⟩ := (ho.lodged hl).exists_parent (hparent ▸ hp)
  rw [hq] at hk
  rw [Option.some.inj hk, hspace]
  exact hid l hl

/-- Keys are given to the node that is placed and to members of its group. -/
theorem keeps_of_written (hk : KeysDistinct f) {group : Group} {seen : Bool}
    (hsp : e.sees group.space = seen) {id : Uuid}
    (hid : ∀ l, f id = some l → e.sees l.space = seen) {gap : Gap} {target : Target}
    {p : Placement} (hplace : gap.placeIn group (t.members group) id target = .ok p) :
    ∀ m ∈ p.written id, ∀ r ∈ t, r.id = m.id.toText → e.keeps r = seen := by
  intro m hm
  have hplacing := Placing.of_placeIn (h.isListing_members hk group) hplace
  refine keeps_of_forest h ?_
  -- a key goes to the node that is placed or to somebody in its group
  rcases hplacing.id_mem_settled_iff.1 (List.mem_map_of_mem (mem_settled_of_written hm)) with
    heq | ⟨q, hq, hgroup⟩
  · rwa [heq]
  · intro l hl
    rw [hl] at hq
    rw [Option.some.inj hq, show q.space = group.space from congrArg Group.space hgroup, hsp]

/-- Keys are given to the members of a group that is respread. -/
theorem keeps_of_compact (hk : KeysDistinct f) {group : Group} {seen : Bool}
    (hsp : e.sees group.space = seen) {gap : Gap} {keys : List Sibling}
    (hkeys : gap.compact (t.members group) = .ok keys) :
    ∀ m ∈ keys, ∀ r ∈ t, r.id = m.id.toText → e.keeps r = seen := by
  intro m hm
  obtain ⟨l, hl, hspace, -⟩ :=
    (rewrites_compact (h.isListing_members hk group) hkeys "").1.stored hm
  refine keeps_of_forest h fun q hq => ?_
  rw [hl] at hq
  rw [← Option.some.inj hq, hspace, hsp]

end Holds

/-! ## Calls on what is seen -/

/-- To insert a node and to show the table comes to the same in either order. -/
theorem insertNode_table {n : Node} (hsp : e.sees n.space = true)
    (hid : e.CoversRow t n.id.toText) :
    (e.table t).insertNode (e.node n) = (t.insertNode n).map e.table := by
  have hspace : (Row.ofNode n).space = n.space.toText := rfl
  have hkeeps : e.keeps (.ofNode n) = true := (e.keeps_of_space hspace).trans hsp
  unfold Table.insertNode
  rw [← row_ofNode, insert_table hkeeps hid, node_group, node_sort, node_id]
  cases t.insert (.ofNode n) with
  | ok u => rfl
  | error conflict => cases conflict <;> rfl

section Seen

variable {f : Forest Row.Payload String} (h : t.Holds f) (hreads : ∀ r ∈ t, e.Reads r)
include h hreads

/-- A group that is seen is listed with the same nodes. -/
theorem list_table {group : Group} (hsp : e.sees group.space = true)
    (hparent : ∀ p, group.parent = some p → e.Near f p) :
    (e.table t).list group = (t.list group).map (List.map e.node) := by
  unfold Table.list
  refine bind_eq_map (fetchParent_table (fun p hp => keeps_of_forest h (hparent p hp)) hreads)
    fun parent _ => ?_
  cases parent with
  | none => exact fetchChildren_table hsp hreads
  | some p =>
    dsimp only [Option.map_some]
    rw [node_space, node_id]
    split
    · rfl
    · exact fetchChildren_table hsp hreads

/-- A new node is judged by what is shown of the table. -/
theorem checkNew_table {n : Node} (hparent : ∀ p, n.parent = some p → e.Near f p)
    (hcheck : (e.node n).check = n.check) :
    (e.table t).checkNew (e.node n) = t.checkNew n := by
  unfold Table.checkNew
  rw [hcheck, node_parent, node_kind, node_space,
    fetchParent_table (fun p hp => keeps_of_forest h (hparent p hp)) hreads]
  cases t.fetchParent n.parent with
  | error err => rfl
  | ok parent =>
    show (n.check.mapError _ >>= fun _ => (checkParent _ _ (parent.map e.node)).mapError _) = _
    rw [checkParent_node]
    rfl

/-- A new node gets the same key as among all rows. -/
theorem createLast_table (hk : KeysDistinct f) {n : Node} (hsp : e.sees n.space = true)
    (hid : e.Near f n.id) (hparent : ∀ p, n.parent = some p → e.Near f p)
    (hcheck : (e.node n).check = n.check) (gap : Gap) (now : Timestamp) :
    (e.table t).createLast gap (e.node n) .epoch =
      (t.createLast gap n now).map (Prod.map e.node e.table) := by
  -- once the others have their keys, the node is inserted with its own
  have hinsert : ∀ (u : Table) (p : Placement), e.CoversRow u n.id.toText →
      ((e.table u).insertNode
          { e.node n with id := n.id, sort := (p.keyFor? n.id).getD n.sort } >>= fun v =>
        pure ({ e.node n with id := n.id, sort := (p.keyFor? n.id).getD n.sort }, v)) =
      (u.insertNode { n with sort := (p.keyFor? n.id).getD n.sort } >>= fun v =>
        pure ({ n with sort := (p.keyFor? n.id).getD n.sort }, v)).map
          (Prod.map e.node e.table) := by
    intro u p hu
    have hnode : ∀ sort, ({ e.node n with id := n.id, sort := sort } : Node) =
        e.node { n with sort := sort } := by
      intro sort
      unfold node
      split <;> rfl
    rw [hnode]
    refine bind_eq_map ?_ fun v _ => rfl
    exact insertNode_table hsp hu
  have hsiblings : (e.table t).siblings n.group = t.siblings n.group := siblings_table hsp
  unfold Table.createLast
  rw [checkNew_table h hreads hparent hcheck, node_group, node_id, node_sort,
    hsiblings, h.siblings_eq]
  refine bind_eq_map_of_same fun _ _ => bind_eq_map_of_same fun members hmembers => ?_
  obtain rfl := Except.ok.inj hmembers
  refine bind_eq_map_of_same fun p hplace => ?_
  have hcovers := keeps_of_forest h hid
  cases p with
  | key sort => exact hinsert t (.key sort) hcovers
  | respread members =>
    have hwritten := keeps_of_written h hk hsp hid hplace
    refine bind_eq_map (writeKeys_table hsp (fun m hm => ?_) _ now) fun u hu => ?_
    · exact hwritten m (List.mem_of_mem_filter hm)
    · exact hinsert u (.respread members) (coversRow_writeKeys hcovers hu)

omit h hreads in
/-- The payload of a node is written where payload is shown. -/
theorem table_edit_payload (he : e.payload = true) (x : String) (n : Node) :
    e.table (t.edit x fun r =>
        { r with
          title := n.title
          properties := n.properties.text
          archived := if n.archived then 1 else 0
          updated := n.updated.toOffsetText }) =
      (e.table t).edit x fun r =>
        { r with
          title := (e.node n).title
          properties := (e.node n).properties.text
          archived := if (e.node n).archived then 1 else 0
          updated := (e.node n).updated.toOffsetText } := by
  refine table_edit (fun r => ?_) fun _ => rfl
  unfold row node
  rw [he]
  simp only [if_true, Node.undated]

/-- A patch is applied where payload is shown. -/
theorem updateNode_table (he : e.payload = true) {id : Uuid} (hid : e.Near f id) (patch : Patch)
    (now : Timestamp) :
    (e.table t).updateNode id patch .epoch =
      (t.updateNode id patch now).map (Prod.map e.node e.table) := by
  unfold Table.updateNode
  refine bind_eq_map (fetch_table (keeps_of_forest h hid) hreads) fun n _ => ?_
  dsimp only
  rw [← node_patch he n patch now, node_check (.inl he), ← table_edit_payload he]
  exact bind_eq_map_of_same fun _ _ => rfl

/-- As many nodes are deleted as without the excerpt, and the same ones. -/
theorem deleteNode_table (ho : Rooted f) {sp : Uuid} (hsp : e.sees sp = true) {top : Uuid}
    (hid : e.Near f top) :
    (e.table t).deleteNode sp top = (t.deleteNode sp top).map (Prod.map id e.table) := by
  have hcovers := keeps_of_forest h hid
  unfold Table.deleteNode
  refine bind_eq_map (fetch_table hcovers hreads) fun n hn => ?_
  dsimp only
  rw [node_space]
  split
  · rfl
  · refine congrArg Except.ok (Prod.ext ?_ ((divides h ho).delete_table hsp _))
    show (e.table t).countBelow _ _ = t.countBelow _ _
    -- what is counted is below the node, and so in its space
    rw [countSpace_table hsp, (divides h ho).countBelow_table fun x hx q hq hparent => ?_]
    rw [List.mem_singleton.1 hx] at hparent
    obtain ⟨l, hl, -⟩ := h.of_fetch hn
    obtain ⟨hlid, hmem⟩ := h.line hl
    rw [← hlid, ← Record.row_id] at hparent
    rw [(divides h ho).below _ hmem q hq hparent, e.keeps_of_space l.row_space]
    exact hid l hl

/-- A node that is seen is moved in the same way. -/
theorem relocate_table (ho : IsOutline f) {now : Timestamp} (hyear : now.HasPlainYear) {id : Uuid}
    (hid : e.Near f id) {parent : Option Uuid} (hparent : ∀ p, parent = some p → e.Near f p)
    (gap : Gap) (target : Target) :
    (e.table t).relocate gap id parent target .epoch =
      (t.relocate gap id parent target now).map (Prod.map e.node e.table) := by
  have hcovers := keeps_of_forest h hid
  have hcovered : ∀ p, parent = some p → e.CoversRow t p.toText :=
    fun p hp => keeps_of_forest h (hparent p hp)
  unfold Table.relocate
  refine bind_eq_map (fetch_table hcovers hreads) fun n hn => ?_
  have hsp := sees_of_fetch h hid hn
  refine bind_eq_map (fetchParent_table hcovered hreads) fun pn _ => ?_
  rw [node_kind, node_space, node_parent, checkParent_node,
    (divides h ho.rooted).checkClimb_table hsp hcovered]
  dsimp only
  have hsiblings : (e.table t).siblings ⟨n.space, parent⟩ = t.siblings ⟨n.space, parent⟩ :=
    siblings_table hsp
  rw [hsiblings, h.siblings_eq]
  refine bind_eq_map_of_same fun _ _ => bind_eq_map_of_same fun _ _ => ?_
  refine bind_eq_map_of_same fun members hmembers => ?_
  obtain rfl := Except.ok.inj hmembers
  refine bind_eq_map_of_same fun p hplace => ?_
  have hwritten := keeps_of_written h ho.keys hsp hid hplace
  refine bind_eq_map (writeKeys_table hsp hwritten _ now) fun u hu => ?_
  -- the node is read back, with the time that has been written
  exact bind_eq_map (fetch_table (coversRow_writeKeys hcovers hu)
    (reads_writeKeys hyear hreads hu)) fun m _ => rfl

/-- It is given the same key in its group. -/
theorem reorder_table (ho : IsOutline f) {now : Timestamp} (hyear : now.HasPlainYear) {id : Uuid}
    (hid : e.Near f id) (gap : Gap) (sort : SortKey) :
    (e.table t).reorder gap id sort .epoch =
      (t.reorder gap id sort now).map (Prod.map e.node e.table) := by
  unfold Table.reorder
  refine bind_eq_map (fetch_table (keeps_of_forest h hid) hreads) fun n hn => ?_
  rw [node_parent]
  exact relocate_table h hreads ho hyear hid (near_parent h ho.rooted hid hn) gap (.at sort)

/-- It comes to stand beside the same anchor. -/
theorem moveBeside_table (ho : IsOutline f) {now : Timestamp} (hyear : now.HasPlainYear)
    {id anchor : Uuid} (hid : e.Near f id) (hanchor : e.Near f anchor) (gap : Gap) (side : Side) :
    (e.table t).moveBeside gap id anchor side .epoch =
      (t.moveBeside gap id anchor side now).map (Prod.map e.node e.table) := by
  unfold Table.moveBeside
  by_cases hself : anchor = id
  · rw [if_pos hself, if_pos hself]
    rfl
  rw [if_neg hself, if_neg hself]
  refine bind_eq_map (fetch_table (keeps_of_forest h hid) hreads) fun n hn => ?_
  refine bind_eq_map (fetch_table (keeps_of_forest h hanchor) hreads) fun a ha => ?_
  rw [node_space, node_space, node_parent]
  split
  · rfl
  · exact relocate_table h hreads ho hyear hid (near_parent h ho.rooted hanchor ha) gap _

/-- A group that is seen gets the same keys. -/
theorem renumber_table (ho : IsOutline f) {now : Timestamp} (hyear : now.HasPlainYear)
    {group : Group} (hsp : e.sees group.space = true)
    (hparent : ∀ p, group.parent = some p → e.Near f p) (gap : Gap) :
    (e.table t).renumber gap group .epoch =
      (t.renumber gap group now).map (Prod.map (List.map e.node) e.table) := by
  unfold Table.renumber
  refine bind_eq_map (fetchParent_table (fun p hp => keeps_of_forest h (hparent p hp)) hreads)
    fun _ _ => ?_
  rw [siblings_table hsp, h.siblings_eq]
  refine bind_eq_map_of_same fun members hmembers => ?_
  obtain rfl := Except.ok.inj hmembers
  refine bind_eq_map_of_same fun keys hkeys => ?_
  have hcovers := keeps_of_compact h ho.keys hsp (mapError_eq_ok_iff.1 hkeys)
  refine bind_eq_map (writeKeys_table hsp hcovers _ now) fun u hu => ?_
  exact bind_eq_map (fetchChildren_table hsp (reads_writeKeys hyear hreads hu)) fun ns _ => rfl

end Seen

/-! ## Calls on anything else -/

/-- Where payload is not shown, a change of it is not shown either. -/
theorem table_updateNode_of_bare (he : e.payload = false) (id : Uuid) (patch : Patch)
    (now : Timestamp) :
    LeadsTo (fun u => e.table u = e.table t) (t.updateNode id patch now) := by
  have hedit : ∀ (x : String) (n : Node), e.table (t.edit x fun r =>
      { r with
        title := n.title
        properties := n.properties.text
        archived := if n.archived then 1 else 0
        updated := n.updated.toOffsetText }) = e.table t := by
    intro x n
    -- of the row that is rewritten the same is shown as before
    have hsame : (e.table t).edit x (fun r => r) = e.table t := by
      rw [Table.edit]
      simp
    refine Eq.trans (table_edit (fun r => ?_) fun _ => rfl) hsame
    unfold row
    rw [he]
    simp
  unfold Table.updateNode
  exact .bind fun n _ => .bind fun _ _ => .pure (hedit _ _)

/-- A new node of another space does not show, -/
theorem table_insertNode_of_unseen {n : Node} {u : Table} (hu : t.insertNode n = .ok u)
    (hsp : e.sees n.space = false) : e.table u = e.table t := by
  have hspace : (Row.ofNode n).space = n.space.toText := rfl
  have hinsert : t.insert (.ofNode n) = .ok u := mapError_eq_ok_iff.1 hu
  exact table_insert_of_unseen ((e.keeps_of_space hspace).trans hsp) hinsert

section Unseen

variable {f : Forest Row.Payload String} (h : t.Holds f)
include h

/-- nor do the new keys that it brings to its siblings. -/
theorem table_createLast_of_unseen (hk : KeysDistinct f) {n : Node} (hsp : e.sees n.space = false)
    (hid : e.Far f n.id) (gap : Gap) (now : Timestamp) :
    LeadsTo (fun u => e.table u = e.table t) (t.createLast gap n now) := by
  unfold Table.createLast
  refine .bind fun _ _ => .bind fun members hmembers => .bind fun p hplace => ?_
  rw [h.siblings_eq] at hmembers
  obtain rfl := Except.ok.inj hmembers
  cases p with
  | key sort =>
    refine .bind fun u hu => .bind fun v hv => .pure ?_
    obtain rfl := Except.ok.inj hu
    exact table_insertNode_of_unseen hv hsp
  | respread members =>
    refine .bind fun u hu => .bind fun v hv => .pure ?_
    have hmisses := keeps_of_written h hk hsp hid hplace
    have hkeys : e.table u = e.table t := by
      refine table_writeKeys_of_missesRow (fun m hm => ?_) hu
      exact hmisses m (List.mem_of_mem_filter hm)
    exact (table_insertNode_of_unseen hv hsp).trans hkeys

/-- Moves in other spaces do not show. -/
theorem table_relocate_of_far (ho : IsOutline f) {id : Uuid} (hid : e.Far f id) (gap : Gap)
    (parent : Option Uuid) (target : Target) (now : Timestamp) :
    LeadsTo (fun u => e.table u = e.table t) (t.relocate gap id parent target now) := by
  unfold Table.relocate
  refine .bind fun n hn => .bind fun _ _ => .bind fun _ _ => .bind fun _ _ => ?_
  refine .bind fun members hmembers => .bind fun p hplace => .bind fun u hu => ?_
  rw [h.siblings_eq] at hmembers
  obtain rfl := Except.ok.inj hmembers
  refine .bind fun _ _ => .pure (table_writeKeys_of_missesRow ?_ hu)
  exact keeps_of_written h ho.keys (sees_of_fetch h hid hn) hid hplace

/-- What is deleted elsewhere does not show. -/
theorem table_deleteNode_of_unseen (ho : Rooted f) {sp : Uuid} (hsp : e.sees sp = false)
    (id : Uuid) : LeadsTo (fun u => e.table u = e.table t) (t.deleteNode sp id) := by
  unfold Table.deleteNode
  refine .bind fun n hn => .guard fun hspace => .pure ?_
  obtain rfl := not_not.1 hspace
  obtain ⟨l, hl, hnode⟩ := h.of_fetch hn
  obtain ⟨-, hlspace, -⟩ := Row.toNode_row_eq_ok_iff.1 hnode
  have hfar : e.Far f id := fun q hq => by
    rw [hl] at hq
    rw [← Option.some.inj hq, ← hlspace, hsp]
  unfold Table.delete
  split
  · refine (divides h ho).table_cascade_of_missesRow (fun x hx => ?_) (fun x hx q hq hqx => ?_) _
    · rw [List.mem_singleton.1 hx]
      exact keeps_of_forest h hfar
    · obtain ⟨hlid, hmem⟩ := h.line hl
      rw [List.mem_singleton.1 hx, ← hlid, ← Record.row_id] at hqx
      rw [(divides h ho).below _ hmem q hq hqx, e.keeps_of_space l.row_space]
      exact hfar l hl
  · rfl

/-- New keys of other groups do not show. -/
theorem table_renumber_of_unseen (hk : KeysDistinct f) {group : Group}
    (hsp : e.sees group.space = false) (gap : Gap) (now : Timestamp) :
    LeadsTo (fun u => e.table u = e.table t) (t.renumber gap group now) := by
  unfold Table.renumber
  refine .bind fun _ _ => .bind fun members hmembers => .bind fun keys hkeys => ?_
  rw [h.siblings_eq] at hmembers
  obtain rfl := Except.ok.inj hmembers
  refine .bind fun u hu => .bind fun _ _ => .pure (table_writeKeys_of_missesRow ?_ hu)
  exact keeps_of_compact h hk hsp (mapError_eq_ok_iff.1 hkeys)

end Unseen

/-! ## The store as a whole -/

variable (e) in
/-- What is shown of the store. -/
def database (db : Database) : Database :=
  { db with rows := e.table db.rows }

variable {db : Database}

/-- A call that names neither a space that is seen nor a node in one leaves the excerpt as it is. -/
theorem database_serve_of_apart (h : db.Sound) {c : StoreCall}
    (hsp : ∀ sp, c.space? = some sp → e.sees sp = false)
    (hid : ∀ id, c.subject? = some id → e.Far db.rows.forest id) (now : Timestamp) :
    LeadsTo (fun db' => e.database db' = e.database db) (Database.store.serve c now db) := by
  have hh := h.holds
  have ho := h.outline
  have hread : ∀ {α : Type} (outcome : Except StoreError α),
      LeadsTo (fun db' => e.database db' = e.database db) (db.reading outcome) :=
    fun outcome _ _ hs => congrArg e.database (Database.of_reading hs)
  have hwrite : ∀ {α : Type} {outcome : Except StoreError (α × Table)},
      LeadsTo (fun u => e.table u = e.table db.rows) outcome →
      LeadsTo (fun db' => e.database db' = e.database db) (db.writing outcome) := by
    intro α outcome hout a db' hs
    obtain ⟨hrows, hgap⟩ := Database.of_writing hs
    exact congrArg₂ Database.mk hgap (hout a _ hrows)
  -- a call that writes touches rows of one space, and that one is not seen
  cases c with
  | get | list | nextSort => exact hread _
  | create n =>
    refine hwrite ?_
    unfold Table.create
    exact .bind fun _ _ => .bind fun u hu => .pure (table_insertNode_of_unseen hu (hsp _ rfl))
  | createLast n =>
    exact hwrite (table_createLast_of_unseen hh ho.keys (hsp _ rfl) (hid _ rfl) _ now)
  | update id patch =>
    refine hwrite ?_
    unfold Table.updateNode
    refine .bind fun n _ => .bind fun _ _ => .pure ?_
    exact table_edit_of_missesRow (keeps_of_forest hh (hid _ rfl)) fun _ => rfl
  | delete sp id => exact hwrite (table_deleteNode_of_unseen hh ho.rooted (hsp _ rfl) id)
  | moveLast id parent =>
    exact hwrite (table_relocate_of_far hh ho (hid _ rfl) _ parent .last now)
  | moveAt id parent sort =>
    exact hwrite (table_relocate_of_far hh ho (hid _ rfl) _ parent (.at sort) now)
  | reorder id sort =>
    refine hwrite ?_
    unfold Table.reorder
    exact .bind fun n _ => table_relocate_of_far hh ho (hid _ rfl) _ n.parent (.at sort) now
  | moveBeside id anchor side =>
    refine hwrite ?_
    unfold Table.moveBeside
    refine .guard fun _ => .bind fun n _ => .bind fun a _ => .guard fun _ => ?_
    exact table_relocate_of_far hh ho (hid _ rfl) _ a.parent (.beside anchor side) now
  | renumber group => exact hwrite (table_renumber_of_unseen hh ho.keys (hsp _ rfl) _ now)

end Outline.Excerpt
