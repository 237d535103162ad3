import Outline.Proofs.Alone.Reuse
import Outline.Proofs.Stored

/-!
# What a removal removes

A removal succeeds for every node that is stored in the space it names, and for nothing else. It
takes away the node and everything below it, and its answer is how many nodes those are: in memory
the length of the branch that was walked down, in the table a number that is counted over ways down
before the rows go. Every other node keeps its record.

The identifiers that go are free. Nobody is found under them until a call brings one back, and a
node that brings one and is fit to be stored is turned away only for its key.

In the table the row of the node has to be readable.

Main results:

* `Table.Holds.length_of_removed` — the rows that go are as many as the nodes;
* `Shelf.vacant`, `Database.vacant` — an identifier that nobody has can be given again;
* `removes_branches_run` — what a removal does after any run.
-/

namespace Outline

variable {σ π τ : Type}

/-! ## What a removal is to achieve -/

/-- A node passes its own check, and its parent is found and suits it. -/
structure Node.Suits (n : Node) (store : Store σ) (now : Timestamp) (s : σ) : Prop where
  record : n.check = .ok ()
  seated : ∃ parent, store.parent now s n.parent = .ok parent ∧
    checkParent n.kind n.space parent = .ok ()

namespace Store

/-- Nobody has the identifier, and a node that suits is not refused for having it: at its own key
only when the key is taken, at the end of its group only when keys have run out. -/
structure Vacant (store : Store σ) (s : σ) (id : Uuid) : Prop where
  missing    : ∀ now, (store.step (.get id) now s).1 = .error (.notFound id)
  create     : ∀ n now e, n.id = id → n.Suits store now s →
    (store.step (.create n) now s).1 = .error e → e = .duplicateSort n.group n.sort
  createLast : ∀ n now e, n.id = id → n.Suits store now s →
    (store.step (.createLast n) now s).1 = .error e → ∃ cause, e = .exhausted n.group cause

/-- None of the calls brings a node with the identifier. -/
def Spares (calls : List (StoreCall × Timestamp)) (id : Uuid) : Prop :=
  ∀ call ∈ calls, ∀ n, call.1.created? = some n → n.id ≠ id

theorem spares_nil (id : Uuid) : Spares [] id := by
  intro call hcall
  cases hcall

/-- In a state whose records are those of `forest`, a removal takes branches out. -/
structure RemovesBranches (store : Store σ) (forest : σ → Forest π τ) (s : σ) : Prop where
  /-- for the nodes of a space and nothing else -/
  accepted : ∀ space id now, (∃ answered, store.serve (.delete space id) now s = .ok answered) ↔
    ∃ r, forest s id = some r ∧ r.space = space
  refused  : ∀ space id now e, store.serve (.delete space id) now s = .error e → e = .notFound id
  /-- the node and everything below it go, and every other node keeps its record -/
  removed  : ∀ space id now count s', store.serve (.delete space id) now s = .ok (count, s') →
    Removed (forest s) (forest s') id
  /-- the answer is how many those are -/
  counted  : ∀ space id now count s', store.serve (.delete space id) now s = .ok (count, s') →
    ∃ ids : List Uuid, ids.Nodup ∧ (∀ a, a ∈ ids ↔ Within (forest s) id a) ∧ count = ids.length
  /-- their identifiers stay free until they are brought back -/
  freed    : ∀ space id now count s', store.serve (.delete space id) now s = .ok (count, s') →
    ∀ a, Within (forest s) id a → ∀ calls, Spares calls a → store.Vacant (store.run calls s') a

/-- What the calls of a run keep holds after it. -/
theorem run_keeps {store : Store σ} {P : σ → Prop} {calls : List (StoreCall × Timestamp)}
    (hserve : ∀ call ∈ calls, ∀ s answer s', P s →
      store.serve call.1 call.2 s = .ok (answer, s') → P s') {s : σ} (hs : P s) :
    P (store.run calls s) := by
  induction calls generalizing s with
  | nil => exact hs
  | cons call rest ih =>
    refine ih (fun call' hcall => hserve call' (List.mem_cons_of_mem _ hcall)) ?_
    exact step_keeps hs fun answer s' => hserve call List.mem_cons_self s answer s' hs

end Store

/-- No record has the identifier. -/
def Record.Avoids (id : Uuid) (r : Record π τ) : Prop :=
  r.id ≠ id

theorem Record.keeps_avoids (id : Uuid) (stamp : τ) :
    Record.Keeps (Record.Avoids id : Record π τ → Prop) stamp :=
  fun _ _ _ _ hr _ => hr

/-- Where records are found under their identifiers, one that all avoid is not found. -/
theorem Rooted.all_avoids_iff {f : Forest π τ} (h : Rooted f) {id : Uuid} :
    f.All (Record.Avoids id) ↔ f id = none := by
  constructor
  · intro hall
    refine Option.eq_none_iff_forall_ne_some.2 fun r hr => ?_
    exact hall hr (h.own_id hr)
  · rintro hnone a r hr rfl
    rw [h.own_id hr, hr] at hnone
    cases hnone

/-- At the end of a group only keys can be missing. -/
theorem Gap.exhausted_of_placeIn_last {gap : Gap} {group : Group} {members : List Sibling}
    {id : Uuid} {e : StoreError} (h : gap.placeIn group members id .last = .error e) :
    ∃ cause, e = .exhausted group cause := by
  have hplace : (gap.placeLast members id).mapError (.exhausted group) = .error e := h
  cases hlast : gap.placeLast members id with
  | ok p =>
    rw [hlast] at hplace
    cases hplace
  | error cause =>
    rw [hlast] at hplace
    cases hplace
    exact ⟨cause, rfl⟩

/-! ## In memory -/

namespace Shelf

variable {s s' : Shelf} {now : Timestamp} {id : Uuid}

/-- A parent that is found and suits the node is one that the node can be put under. -/
theorem lodged_of_suits (h : s.Agrees) {n : Node} (hn : n.Suits store now s) :
    Lodged s.forest n.record := by
  obtain ⟨parent, hparent, hsuits⟩ := hn.seated
  rw [checkParent_eq_ok_iff] at hsuits
  unfold Lodged
  rw [Node.record_parent]
  cases hp : n.parent with
  | none =>
    rw [hp] at hparent
    cases hparent
    exact hsuits
  | some p =>
    rw [hp] at hparent
    obtain ⟨q, hq, rfl⟩ := map_eq_ok_iff.1 hparent
    have hget : s.get p = .ok q := by
      rw [Store.step, show store.serve (.get p) now s = s.reading (s.get p) from rfl] at hq
      cases hget : s.get p with
      | error e => rw [hget] at hq; cases hq
      | ok m => rw [hget] at hq; exact hq
    exact ⟨q.record, forest_of_node h ((get_eq_ok_iff h).1 hget), hsuits⟩

/-- An identifier that nobody has can be given to a new node. -/
theorem vacant (h : s.Sound) (hid : s.forest id = none) : store.Vacant s id where
  missing now := by
    rw [Store.step_error_iff]
    change s.reading (s.get id) = _
    rw [get_eq_error hid]
    rfl
  create n now e hn hsuits he := by
    subst hn
    rw [Store.step_error_iff] at he
    change s.insert n .own now = .error e at he
    have hl := lodged_of_suits h.agrees hsuits
    -- nothing but its key can be in the way of the node
    by_cases hfree : s.KeyFree n
    · obtain ⟨m, s', stamp, hs, -⟩ := insert_own_eq now h.agrees hsuits.record hid hl hfree
      rw [hs] at he
      cases he
    · rw [insert_own_taken h.agrees hsuits.record hid hl hfree] at he
      exact (Except.error.inj he).symm
  createLast n now e hn hsuits he := by
    subst hn
    rw [Store.step_error_iff] at he
    change s.insert n .last now = .error e at he
    have heq := insert_last_eq now h.agrees hsuits.record hid (lodged_of_suits h.agrees hsuits)
    split at heq
    · next e' hplace =>
      rw [heq] at he
      cases he
      exact Gap.exhausted_of_placeIn_last hplace
    · obtain ⟨m, s', stamp, hs, -⟩ := heq
      rw [hs] at he
      cases he

/-- Nobody comes to have an identifier that no call brings. -/
theorem forest_run_none {calls : List (StoreCall × Timestamp)} (h : s.Sound)
    (hid : s.forest id = none) (hcalls : Store.Spares calls id) :
    (store.run calls s).Sound ∧ (store.run calls s).forest id = none := by
  have hkept : (store.run calls s).Sound ∧
      (store.run calls s).forest.All (Record.Avoids id) := by
    refine Store.run_keeps (P := fun s : Shelf => s.Sound ∧ s.forest.All (Record.Avoids id))
      (fun call hcall s answer s' hs hserve => ⟨hs.1.serve hserve, ?_⟩)
      ⟨h, h.outline.rooted.all_avoids_iff.2 hid⟩
    refine serve_all hs.1 hserve (Record.keeps_avoids id) (fun n hn _ => hcalls call hcall n hn)
      (fun a patch n _ hn _ => ?_) hs.2
    -- an update leaves the identifier as it is
    have hne : n.id ≠ id := hs.2 hn
    exact hne
  exact ⟨hkept.1, hkept.1.outline.rooted.all_avoids_iff.1 hkept.2⟩

theorem removesBranches (h : s.Sound) : store.RemovesBranches forest s := by
  have hserve : ∀ space id now, store.serve (.delete space id) now s = s.delete space id :=
    fun _ _ _ => rfl
  -- what is removed is a stored node of the space that is named
  have hdelete : ∀ space id now count s', store.serve (.delete space id) now s = .ok (count, s') →
      ∃ n : Node, n.id = id ∧ s.forest id = some n.record ∧
        count = ((s.space n.space).branch id).length ∧ s'.Sound ∧
        Removed s.forest s'.forest id := by
    intro space id now count s' hs
    obtain ⟨n, hn, rfl, rfl⟩ := of_delete h.agrees hs
    obtain ⟨heq, -, hremoved⟩ := delete_eq h.agrees h.outline.rooted hn
    have hsound := h.serve hs
    rw [hserve, heq] at hs
    cases hs
    exact ⟨n, rfl, hn, rfl, hsound, hremoved⟩
  refine ⟨fun space id now => ⟨?_, ?_⟩, fun space id now e he => ?_,
    fun space id now count s' hs => ?_, fun space id now count s' hs => ?_,
    fun space id now count s' hs a ha calls hcalls => ?_⟩
  · rintro ⟨⟨count, s'⟩, hs⟩
    obtain ⟨n, hn, hspace, -⟩ := of_delete h.agrees hs
    exact ⟨n.record, hn, hspace⟩
  · rintro ⟨r, hr, rfl⟩
    exact delete_accepted h hr
  · rw [hserve] at he
    by_cases hstored : ∃ r, s.forest id = some r ∧ r.space = space
    · obtain ⟨r, hr, rfl⟩ := hstored
      obtain ⟨answered, hs⟩ := delete_accepted h hr
      rw [hs] at he
      cases he
    · have hout : s.Outside space id := fun r hr hspace => hstored ⟨r, hr, hspace⟩
      rw [delete_refused h.agrees hout] at he
      exact (Except.error.inj he).symm
  · obtain ⟨-, -, -, -, -, hremoved⟩ := hdelete space id now count s' hs
    exact hremoved
  · obtain ⟨n, rfl, hn, rfl, -⟩ := hdelete space id now count s' hs
    exact ⟨_, nodup_branch h.agrees h.outline.rooted hn,
      fun a => mem_branch_iff a h.agrees h.outline.rooted hn, rfl⟩
  · obtain ⟨-, -, -, -, hsound, hremoved⟩ := hdelete space id now count s' hs
    obtain ⟨hrun, hnone⟩ := forest_run_none hsound ((hremoved a).1 ha) hcalls
    exact vacant hrun hnone

end Shelf

/-! ## In the table -/

namespace Table.Holds

variable {t t' : Table} {f g : Forest Row.Payload String} (h : t.Holds f)
include h

/-- The rows that go are as many as the nodes. -/
theorem length_of_removed (h' : t'.Holds g) {top : Uuid} (hremoved : Removed f g top)
    {ids : List Uuid} (hnodup : ids.Nodup) (hids : ∀ a, a ∈ ids ↔ Within f top a) :
    t'.length + ids.length = t.length := by
  -- no row that stays has an identifier of the branch
  have hapart : (t'.map (·.id) ++ ids.map Uuid.toText).Nodup := by
    refine List.nodup_append.2 ⟨h'.nodup, hnodup.map fun _ _ => Uuid.toText_inj.1, ?_⟩
    rintro text htext _ htext' rfl
    obtain ⟨r, hr, hrid⟩ := List.mem_map.1 htext
    obtain ⟨a, ha, rfl⟩ := List.mem_map.1 htext'
    obtain ⟨l, hl, rfl⟩ := h'.row hr
    rw [Record.row_id, Uuid.toText_inj] at hrid
    exact (hremoved.of_some hl).1 (hrid ▸ (hids a).1 ha)
  -- so the rows before are those that stay and one for each node of the branch
  have hperm : (t'.map (·.id) ++ ids.map Uuid.toText).Perm (t.map (·.id)) := by
    refine (List.perm_ext_iff_of_nodup hapart h.nodup).2 fun text => ?_
    rw [List.mem_append, List.mem_map, List.mem_map, List.mem_map]
    constructor
    · rintro (⟨r, hr, rfl⟩ | ⟨a, ha, rfl⟩)
      · obtain ⟨l, hl, rfl⟩ := h'.row hr
        exact ⟨l.row, h.mem_iff.2 (hremoved.of_some hl).2, rfl⟩
      · obtain ⟨path, hpath, -⟩ := (hids a).1 ha
        obtain ⟨l, hl⟩ := hpath.stored hpath.self_mem
        obtain ⟨rfl, hmem⟩ := h.line hl
        exact ⟨l.row, hmem, rfl⟩
    · rintro ⟨r, hr, rfl⟩
      obtain ⟨l, hl, rfl⟩ := h.row hr
      by_cases hw : Within f top l.id
      · exact .inr ⟨l.id, (hids l.id).2 hw, rfl⟩
      · exact .inl ⟨l.row, h'.mem_iff.2 ((hremoved l.id).2 hw ▸ hl), rfl⟩
  have hlength := hperm.length_eq
  rwa [List.length_append, List.length_map, List.length_map, List.length_map] at hlength

/-- A new node goes in at its own key if the key is free. -/
theorem insertNode_of_none {n : Node} (hid : f n.id = none) {e : StoreError}
    (he : t.insertNode n = .error e) : e = .duplicateSort n.group n.sort := by
  by_cases htaken : ∃ q, f q.id = some q ∧ q.group = n.group ∧ q.sort = n.sort
  · obtain ⟨q, hq, hgroup, hsort⟩ := htaken
    rw [h.insertNode_taken hq hgroup hsort] at he
    exact (Except.error.inj he).symm
  · have hfree : ∀ q, f q.id = some q → q.group = n.group → q.sort ≠ n.sort :=
      fun q hq hgroup hsort => htaken ⟨q, hq, hgroup, hsort⟩
    obtain ⟨t', ht'⟩ := h.exists_insertNode hid hfree
    have hins : t.insertNode n = .ok t' := ht'
    rw [hins] at he
    cases he

/-- A new node goes in at the end of its group if there are keys left. -/
theorem createLast_of_none (hk : KeysDistinct f) {gap : Gap} {n : Node} {now : Timestamp}
    (hid : f n.id = none) (hnew : t.checkNew n = .ok ()) {e : StoreError}
    (he : t.createLast gap n now = .error e) : ∃ cause, e = .exhausted n.group cause := by
  cases hplace : gap.placeIn n.group (t.members n.group) n.id .last with
  | error e' =>
    rw [createLast_of_error now hnew (h.siblings_eq _) hplace] at he
    cases he
    exact Gap.exhausted_of_placeIn_last hplace
  | ok p =>
    have hplacing := Placing.of_placeIn (h.isListing_members hk n.group) hplace
    cases p with
    | key sort =>
      obtain ⟨t₁, ht₁⟩ := h.exists_insertNode hid fun q hq hgroup =>
        sort_ne_of_placing (l := n.line) hid hplacing hq hgroup
      rw [createLast_of_key now hnew (h.siblings_eq _) hplace, ht₁] at he
      cases he
    | respread members =>
      obtain ⟨sort, hsort⟩ := hplacing.exists_key
      rw [createLast_of_respread now hnew (h.siblings_eq _) hplace hplacing.nodup_settled hsort]
        at he
      -- only the others' keys can stand in the way, for want of room to park them
      rcases h.writeKeys_eq hk (rewrites_others (l := n.line) hid hplacing) now with
        ⟨t₁, ht₁, hh₁, -⟩ | ⟨-, -, herror⟩
      · have hgid : f.settle n.group (members.filter (·.id ≠ n.id)) now.toOffsetText n.id =
            none := by
          rw [Forest.settle_of_not_mem, hid]
          simp
        obtain ⟨t₂, ht₂⟩ := hh₁.exists_insertNode hgid fun q hq hgroup =>
          sort_ne_of_settle (l := n.line) hid hplacing hsort hq hgroup
        have hwrite : t.writeKeys n.group (members.filter (·.id ≠ n.id)) none now = .ok t₁ := ht₁
        rw [hwrite, bind_ok, ht₂] at he
        cases he
      · have hwrite : t.writeKeys n.group (members.filter (·.id ≠ n.id)) none now =
            .error (.exhausted n.group ⟨(members.filter (·.id ≠ n.id)).length, 0⟩) := herror
        rw [hwrite] at he
        cases he
        exact ⟨_, rfl⟩

end Table.Holds

namespace Database

variable {db db' : Database} {now : Timestamp} {id : Uuid}

/-- A writing call fails as the statements do. -/
theorem writing_eq_error_iff {α : Type} {outcome : Except StoreError (α × Table)}
    {e : StoreError} : db.writing outcome = .error e ↔ outcome = .error e := by
  cases outcome <;> simp [writing, Except.map]

theorem checkNew_of_suits {n : Node} (hn : n.Suits store now db) : db.rows.checkNew n = .ok () := by
  obtain ⟨parent, hparent, hsuits⟩ := hn.seated
  rw [parent_eq] at hparent
  exact (Table.Holds.checkNew_eq hn.record).trans
    (checkFetched_eq_ok_iff.2 ⟨parent, hparent, hsuits⟩)

/-- An identifier that nobody has can be given to a new node. -/
theorem vacant (h : db.Sound) (hid : db.rows.forest id = none) : store.Vacant db id where
  missing now := by
    rw [Store.step_error_iff]
    change db.reading (db.rows.fetch id) = _
    rw [h.holds.fetch_none hid]
    rfl
  create n now e hn hsuits he := by
    subst hn
    rw [Store.step_error_iff] at he
    change db.writing (db.rows.create n) = .error e at he
    rw [writing_eq_error_iff, Table.create, checkNew_of_suits hsuits, bind_ok] at he
    cases hins : db.rows.insertNode n with
    | ok t' =>
      rw [hins] at he
      cases he
    | error e' =>
      rw [hins] at he
      cases he
      exact h.holds.insertNode_of_none hid hins
  createLast n now e hn hsuits he := by
    subst hn
    rw [Store.step_error_iff] at he
    change db.writing (db.rows.createLast db.gap n now) = .error e at he
    rw [writing_eq_error_iff] at he
    exact h.holds.createLast_of_none h.outline.keys hid (checkNew_of_suits hsuits) he

/-- Nobody comes to have an identifier that no call brings. -/
theorem forest_run_none {calls : List (StoreCall × Timestamp)} (h : db.Sound)
    (hid : db.rows.forest id = none) (hcalls : Store.Spares calls id) :
    (store.run calls db).Sound ∧ (store.run calls db).rows.forest id = none := by
  have hkept : (store.run calls db).Sound ∧
      (store.run calls db).rows.forest.All (Record.Avoids id) := by
    refine Store.run_keeps (P := fun db : Database =>
        db.Sound ∧ db.rows.forest.All (Record.Avoids id))
      (fun call hcall db answer db' hdb hserve => ⟨hdb.1.serve hserve, ?_⟩)
      ⟨h, h.outline.rooted.all_avoids_iff.2 hid⟩
    refine serve_all hdb.1 hserve (Record.keeps_avoids id _)
      (fun n hn _ => hcalls call hcall n hn) (fun a patch n l _ hl _ _ => ?_) hdb.2
    -- an update leaves the identifier as it is
    have hne : l.id ≠ id := hdb.2 hl
    exact hne
  exact ⟨hkept.1, hkept.1.outline.rooted.all_avoids_iff.1 hkept.2⟩

/-- What is removed is the branch of a stored node of the space that is named. -/
theorem of_serve_delete (h : db.Sound) {space : Uuid} {count : Nat}
    (hs : store.serve (.delete space id) now db = .ok (count, db')) :
    ∃ (l : Line) (ids : List Uuid), db.rows.forest id = some l ∧ l.space = space ∧ db'.Sound ∧
      Removed db.rows.forest db'.rows.forest id ∧ ids.Nodup ∧
      (∀ a, a ∈ ids ↔ Within db.rows.forest id a) ∧ count = ids.length := by
  obtain ⟨l, g, hl, rfl, hcount, hholds, hremoved⟩ :=
    h.holds.of_deleteNode h.outline.rooted (of_writing hs).1
  obtain ⟨ids, hnodup, hids, hbelow⟩ := h.holds.countBelow_eq h.outline.rooted hl
  refine ⟨l, ids, hl, rfl, h.serve hs, ?_, hnodup, hids, hcount.trans hbelow⟩
  rwa [hholds.forest_eq]

theorem removesBranches (h : db.Sound) (hr : db.rows.Readable) :
    store.RemovesBranches (fun db : Database => db.rows.forest) db := by
  have haccepted : ∀ id now l, db.rows.forest id = some l →
      ∃ answered, store.serve (.delete l.space id) now db = .ok answered := by
    intro id now l hl
    obtain ⟨⟨count, t'⟩, hs⟩ := h.holds.delete_accepted hr hl
    exact ⟨_, by rw [show store.serve (.delete l.space id) now db =
      db.writing (db.rows.deleteNode l.space id) from rfl, hs]; rfl⟩
  -- accepted, refused, removed, counted, and free again
  refine ⟨fun space id now => ⟨?_, ?_⟩, fun space id now e he => ?_,
    fun space id now count db' hs => ?_, fun space id now count db' hs => ?_,
    fun space id now count db' hs a ha calls hcalls => ?_⟩
  · rintro ⟨⟨count, db'⟩, hs⟩
    obtain ⟨l, -, hl, hspace, -⟩ := of_serve_delete h hs
    exact ⟨l, hl, hspace⟩
  · rintro ⟨l, hl, rfl⟩
    exact haccepted id now l hl
  · change db.writing (db.rows.deleteNode space id) = .error e at he
    rw [writing_eq_error_iff] at he
    cases hl : db.rows.forest id with
    | none =>
      rw [Table.deleteNode, h.holds.fetch_none hl] at he
      exact (Except.error.inj he).symm
    | some l =>
      obtain ⟨n, hfetch, -⟩ := h.holds.exists_fetch hr hl
      rw [Table.Holds.deleteNode_eq space hfetch] at he
      split at he
      · exact (Except.error.inj he).symm
      · cases he
  · obtain ⟨-, -, -, -, -, hremoved, -⟩ := of_serve_delete h hs
    exact hremoved
  · obtain ⟨-, ids, -, -, -, -, hnodup, hids, hcount⟩ := of_serve_delete h hs
    exact ⟨ids, hnodup, hids, hcount⟩
  · obtain ⟨-, -, -, -, hsound, hremoved, -⟩ := of_serve_delete h hs
    obtain ⟨hrun, hnone⟩ := forest_run_none hsound ((hremoved a).1 ha) hcalls
    exact vacant hrun hnone

/-- The number that is counted beforehand is that of the rows that go. -/
theorem length_of_delete (h : db.Sound) {space : Uuid} {count : Nat}
    (hs : store.serve (.delete space id) now db = .ok (count, db')) :
    db'.rows.length + count = db.rows.length := by
  obtain ⟨-, ids, -, -, hsound, hremoved, hnodup, hids, rfl⟩ := of_serve_delete h hs
  exact h.holds.length_of_removed hsound.holds hremoved hnodup hids

end Database

/-! ## After every run -/

/-- After every run of either store a removal takes out the branch of the node that it names, if
that is stored in the space that it names, and answers how many nodes the branch had. In the table
every row has to be readable; as many rows go as nodes. -/
theorem removes_branches_run (gap : Gap) (calls : List (StoreCall × Timestamp)) :
    Shelf.store.RemovesBranches Shelf.forest (Shelf.store.run calls (.empty gap)) ∧
    ((Database.store.run calls (.empty gap)).rows.Readable →
      Database.store.RemovesBranches (fun db => db.rows.forest)
        (Database.store.run calls (.empty gap)) ∧
      ∀ space id now count db', Database.store.serve (.delete space id) now
          (Database.store.run calls (.empty gap)) = .ok (count, db') →
        db'.rows.length + count = (Database.store.run calls (.empty gap)).rows.length) := by
  have hdb := Database.sound_run gap calls
  refine ⟨Shelf.removesBranches (Shelf.sound_run gap calls), fun hr => ⟨?_, ?_⟩⟩
  · exact Database.removesBranches hdb hr
  · exact fun space id now count db' hs => Database.length_of_delete hdb hs

/-- A child stands below its parent. -/
theorem Rooted.within_of_child {f : Forest π τ} (h : Rooted f) {id parent : Uuid}
    (hchild : (f id).map (·.parent) = some (some parent)) : Within f parent id := by
  obtain ⟨r, hr, hp⟩ := Option.map_eq_some_iff.1 hchild
  obtain ⟨q, hq, -⟩ := (h.lodged hr).exists_parent hp
  obtain ⟨path, hpath⟩ := h.ascent hq
  exact Within.of_parent hr hp ⟨path, hpath, hpath.self_mem⟩

/-- Of three pages one below the other the middle one is removed: two nodes go, and the identifier
of the last can be given to a new page. -/
theorem removes_branches_run_middle :
    (∃ s', Shelf.store.serve (.delete (Sample.uuid 1) (Sample.uuid 3)) Sample.time
        (Shelf.store.run Sample.calls (.empty .standard)) = .ok (2, s') ∧
      Shelf.store.Vacant s' (Sample.uuid 4)) ∧
    (∃ db', Database.store.serve (.delete (Sample.uuid 1) (Sample.uuid 3)) Sample.time
        (Database.store.run Sample.calls (.empty .standard)) = .ok (2, db') ∧
      db'.rows.length + 2 = 3 ∧ Database.store.Vacant db' (Sample.uuid 4)) := by
  obtain ⟨hshelf, htable⟩ := removes_branches_run .standard Sample.calls
  obtain ⟨htable, hlength⟩ := htable (by decide +kernel)
  constructor
  · obtain ⟨⟨count, s'⟩, hs, rfl⟩ : ∃ a, Shelf.store.serve (.delete (Sample.uuid 1)
        (Sample.uuid 3)) Sample.time (Shelf.store.run Sample.calls (.empty .standard)) = .ok a ∧
          a.1 = 2 := map_eq_ok_iff.1 (by decide +kernel)
    refine ⟨s', hs, hshelf.freed _ _ _ _ _ hs (Sample.uuid 4) ?_ [] (Store.spares_nil _)⟩
    exact (Shelf.sound_run .standard Sample.calls).outline.rooted.within_of_child
      (by decide +kernel)
  · obtain ⟨⟨count, db'⟩, hs, rfl⟩ : ∃ a, Database.store.serve (.delete (Sample.uuid 1)
        (Sample.uuid 3)) Sample.time (Database.store.run Sample.calls (.empty .standard)) =
          .ok a ∧ a.1 = 2 := map_eq_ok_iff.1 (by decide +kernel)
    refine ⟨db', hs, ?_, htable.freed _ _ _ _ _ hs (Sample.uuid 4) ?_ [] (Store.spares_nil _)⟩
    · rw [hlength _ _ _ _ _ hs]
      decide +kernel
    · exact (Database.sound_run .standard Sample.calls).outline.rooted.within_of_child
        (by decide +kernel)

end Outline
