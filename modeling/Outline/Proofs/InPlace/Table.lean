import Outline.Proofs.Outcome
import Outline.Store.Database.Connection

/-!
# The table store works as it says

Statement by statement, the table store does what its calls are said to do. A statement that fails
may leave others before it done, up to the end of the transaction: then they are all undone, and no
call is refused after its transaction has been committed.

Main results:

* `Table.Does` and its lemmas — the calls inside a transaction;
* `Connection.perform_does` — each call does what it says, or nothing.
-/

namespace Outline

open Work (query alter)

variable {α β : Type}

namespace Table

variable {t : Table}

/-- Work on rows does what `x` says; when it is refused, the rows may be changed in part. -/
def Does (w : Work Table α) (t : Table) (x : Except StoreError (α × Table)) : Prop :=
  match x with
  | .ok (a, t') => w t = .ok a t'
  | .error e => ∃ t', w t = .error e t'

namespace Does

/-- A question to the table may go before, since it changes nothing. -/
theorem query_bind {f : Table → Except StoreError β} {g : β → Work Table α}
    {h : β → Except StoreError (α × Table)} (hg : ∀ b, Does (g b) t (h b)) :
    Does (query f >>= g) t (f t >>= h) := by
  have hbind := Work.query_bind f g t
  cases hf : f t with
  | error e => exact ⟨t, by rw [hbind, hf]⟩
  | ok b =>
    rw [hf] at hbind
    have hdoes := hg b
    unfold Does at hdoes ⊢
    rw [hbind]
    exact hdoes

/-- Work that is done is gone on with from the rows that it leaves. -/
theorem bind {w : Work Table β} {g : β → Work Table α} {y : Except StoreError (β × Table)}
    {h : β × Table → Except StoreError (α × Table)} (hw : Does w t y)
    (hg : ∀ b t', Does (g b) t' (h (b, t'))) : Does (w >>= g) t (y >>= h) := by
  have hbind := Work.bind_apply w g t
  cases y with
  | error e =>
    obtain ⟨t', ht'⟩ := hw
    exact ⟨t', by rw [hbind, ht']⟩
  | ok p =>
    have hrun : w t = .ok p.1 p.2 := hw
    rw [hrun] at hbind
    have hdoes := hg p.1 p.2
    unfold Does at hdoes ⊢
    rw [hbind]
    exact hdoes

/-- After statements that change rows. -/
theorem write_bind {w : Work Table Unit} {g : Unit → Work Table α} {y : Except StoreError Table}
    {h : Table → Except StoreError (α × Table)} (hw : Does w t (y.map ((), ·)))
    (hg : ∀ t', Does (g ()) t' (h t')) : Does (w >>= g) t (y >>= h) := by
  have hbind := bind (g := g) (h := fun p => h p.2) hw fun _ t' => hg t'
  cases y with
  | error e => exact hbind
  | ok t' => exact hbind

/-- After a check. -/
theorem check_bind {w : Work Table Unit} {g : Unit → Work Table α} {y : Except StoreError Unit}
    {h : Unit → Except StoreError (α × Table)} (hw : Does w t (y.map (·, t)))
    (hg : Does (g ()) t (h ())) : Does (w >>= g) t (y >>= h) := by
  cases y with
  | error e =>
    obtain ⟨t', ht'⟩ := hw
    exact ⟨t', by rw [Work.bind_apply, ht']⟩
  | ok _ =>
    have hrun : w t = .ok () t := hw
    unfold Does at hg ⊢
    rw [Work.bind_apply, hrun]
    exact hg

end Does

/-- The table in place answers a question as the pure table. -/
theorem does_query (f : Table → Except StoreError α) : Does (query f) t ((f t).map (·, t)) := by
  cases hf : f t with
  | error e => exact ⟨t, by rw [query, hf]⟩
  | ok a =>
    show query f t = _
    rw [query, hf]

/-- The same as a step that hands the table on. -/
theorem does_query_pure (f : Table → Except StoreError α) :
    Does (query f) t (f t >>= fun a => pure (a, t)) := by
  cases hf : f t with
  | error e => exact ⟨t, by rw [query, hf]⟩
  | ok a =>
    show query f t = _
    rw [query, hf]

/-- A single statement that gives the new rows. -/
theorem does_statement (f : Table → Except StoreError (α × Table)) :
    Does (do let (a, t') ← query f; alter (fun _ => t'); return a) t (f t) := by
  cases hf : f t with
  | error e =>
    refine ⟨t, ?_⟩
    rw [Work.query_bind, hf]
  | ok p =>
    show (_ : Work Table α) t = _
    rw [Work.query_bind, hf]
    rfl

/-! ## Statements -/

/-- Updates in place, one statement after the other, up to the first that is refused. -/
theorem writeInPlace_does (group : Group) (writes : List KeyWrite) (t : Table) :
    Does (writeInPlace group writes) t ((write group writes t).map ((), ·)) := by
  induction writes generalizing t with
  | nil => rfl
  | cons w rest ih =>
    unfold writeInPlace write
    cases hu : t.update? w.id.toText w.change with
    | none =>
      refine ⟨t, ?_⟩
      rw [Work.query_bind]
      simp only [hu]
      rfl
    | some t' =>
      have hih := ih t'
      unfold Does at hih ⊢
      rw [Work.query_bind]
      simp only [hu]
      exact hih

/-- New keys in place: parking, if there is need for it, and then settling. -/
theorem writeKeysInPlace_does (group : Group) (keys : List Sibling) (mover : Option Mover)
    (now : Timestamp) (t : Table) :
    Does (writeKeysInPlace group keys mover now) t
      ((t.writeKeys group keys mover now).map ((), ·)) := by
  unfold writeKeys
  rw [map_bind]
  exact .query_bind fun writes => writeInPlace_does group writes t

/-- A row that goes in meets the same taken identifier or key. -/
theorem insertInPlace_does (n : Node) (t : Table) :
    Does (insertInPlace n) t ((t.insertNode n).map ((), ·)) := by
  unfold insertInPlace
  cases hi : t.insertNode n with
  | error e => exact ⟨t, by rw [Work.query_bind, hi]⟩
  | ok t' =>
    show (_ : Work Table Unit) t = _
    rw [Work.query_bind, hi]
    rfl

/-! ## Calls inside a transaction -/

/-- The check of a new node under its parent. -/
def checkUnder (t : Table) (n : Node) : Except StoreError Unit := do
  let parent ← t.fetchParent n.parent
  (checkParent n.kind n.space parent).mapError .violation

/-- The checks of a new node are that of the node itself and that of its parent. -/
theorem checkNew_eq_checkUnder (t : Table) (n : Node) :
    t.checkNew n = n.check.mapError (.invalidRecord ∘ .defect) >>= fun _ => t.checkUnder n :=
  rfl

/-- The second of these in place, which changes nothing. -/
theorem checkParentInPlace_does (n : Node) (t : Table) :
    Does (checkParentInPlace n) t ((t.checkUnder n).map (·, t)) := by
  unfold checkUnder
  rw [map_bind]
  exact .query_bind fun parent => does_query _

/-- A creation in place without the check of the node, which has been made before. -/
theorem createInPlace_does (n : Node) (t : Table) :
    Does (createInPlace n) t
      (t.checkUnder n >>= fun _ => t.insertNode n >>= fun t' => pure (n, t')) :=
  .check_bind (checkParentInPlace_does n t) (.write_bind (insertInPlace_does n t) fun _ => rfl)

/-- What is written for a new node once its placement is found. -/
def enterPlaced (t : Table) (n : Node) (now : Timestamp) (placement : Placement) :
    Except StoreError (Node × Table) :=
  let placed := { n with sort := (placement.keyFor? n.id).getD n.sort }
  match placement with
  | .key _ => t.insertNode placed >>= fun t' => pure (placed, t')
  | .respread members =>
    t.writeKeys n.group (members.filter (·.id ≠ n.id)) none now >>= fun t =>
      t.insertNode placed >>= fun t' => pure (placed, t')

/-- A pure creation at the end of a group, as the steps that are taken in place. -/
theorem createLast_eq (t : Table) (gap : Gap) (n : Node) (now : Timestamp) :
    t.createLast gap n now = n.check.mapError (.invalidRecord ∘ .defect) >>= fun _ =>
      t.checkUnder n >>= fun _ => t.siblings n.group >>= fun siblings =>
        gap.placeIn n.group siblings n.id .last >>= t.enterPlaced n now := by
  unfold createLast
  rw [checkNew_eq_checkUnder, bind_assoc]
  refine congrArg _ (funext fun _ => congrArg _ (funext fun _ => congrArg _ (funext fun siblings =>
    congrArg _ (funext fun placement => ?_))))
  cases placement <;> rfl

/-- And these steps in place. -/
theorem createLastInPlace_does (gap : Gap) (n : Node) (now : Timestamp) (t : Table) :
    Does (createLastInPlace gap n now) t
      (t.checkUnder n >>= fun _ => t.siblings n.group >>= fun siblings =>
        gap.placeIn n.group siblings n.id .last >>= t.enterPlaced n now) := by
  refine .check_bind (checkParentInPlace_does n t) (.query_bind fun siblings =>
    .query_bind fun placement => ?_)
  have hinsert : ∀ (m : Node) (t : Table), Does (insertInPlace m >>= fun _ => pure m) t
      (t.insertNode m >>= fun t' => pure (m, t')) :=
    fun m t => .write_bind (insertInPlace_does m t) fun _ => rfl
  cases placement with
  | key sort => exact hinsert _ t
  | respread members =>
    exact .write_bind (writeKeysInPlace_does _ _ _ _ _) fun t' => hinsert _ t'

/-- A move in place, wherever it goes. -/
theorem relocateInPlace_does (gap : Gap) (id : Uuid) (parent : Option Uuid) (target : Target)
    (now : Timestamp) (t : Table) :
    Does (relocateInPlace gap id parent target now) t (t.relocate gap id parent target now) := by
  unfold relocateInPlace relocate
  refine .query_bind fun n => .query_bind fun parentNode => .query_bind fun _ =>
    .query_bind fun _ => .query_bind fun siblings => .query_bind fun placement => ?_
  exact .write_bind (writeKeysInPlace_does _ _ _ _ _) fun t' => does_query_pure (·.fetch id)

/-- Reordering in place is a move within the group. -/
theorem reorderInPlace_does (gap : Gap) (id : Uuid) (sort : SortKey) (now : Timestamp)
    (t : Table) : Does (reorderInPlace gap id sort now) t (t.reorder gap id sort now) :=
  .query_bind fun n => relocateInPlace_does gap id n.parent (.at sort) now t

/-- New keys in place for a group in its present order. -/
theorem renumberInPlace_does (gap : Gap) (group : Group) (now : Timestamp) (t : Table) :
    Does (renumberInPlace gap group now) t (t.renumber gap group now) := by
  unfold renumberInPlace renumber
  refine .query_bind fun _ => .query_bind fun siblings => .query_bind fun members => ?_
  exact .write_bind (writeKeysInPlace_does _ _ _ _ _) fun t' =>
    does_query_pure (·.fetchChildren group)

/-- A move beside an anchor in place, once the two are known to differ. -/
theorem moveBesideInPlace_does (gap : Gap) (id anchor : Uuid) (side : Side) (now : Timestamp)
    (t : Table) (hne : anchor ≠ id) :
    Does (moveBesideInPlace gap id anchor side now) t (t.moveBeside gap id anchor side now) := by
  unfold moveBesideInPlace moveBeside
  rw [if_neg hne]
  refine .query_bind fun n => .query_bind fun anchorNode => ?_
  by_cases hspace : anchorNode.space ≠ n.space
  · rw [if_pos hspace, if_pos hspace]
    exact ⟨t, rfl⟩
  · rw [if_neg hspace, if_neg hspace]
    exact relocateInPlace_does _ _ _ _ _ _

/-- An update in place. -/
theorem updateInPlace_does (id : Uuid) (patch : Patch) (now : Timestamp) (t : Table) :
    Does (updateInPlace id patch now) t (t.updateNode id patch now) :=
  does_statement (·.updateNode id patch now)

/-- A removal in place, which is one statement with its cascade. -/
theorem deleteInPlace_does (space id : Uuid) (t : Table) :
    Does (deleteInPlace space id) t (t.deleteNode space id) :=
  does_statement (·.deleteNode space id)

end Table

/-! ## Transactions -/

namespace Connection

variable {db : Database}

/-- Between its calls a connection has no transaction open, and a call does what `x` says, or
nothing. -/
def Does (w : Work Connection α) (db : Database) (x : Except StoreError (α × Database)) : Prop :=
  w (ofDatabase db) = match x with
    | .ok (a, db') => .ok a (ofDatabase db')
    | .error e => .error e (ofDatabase db)

/-- A connection that is asked for something changes nothing. -/
theorem does_read (f : Database → Except StoreError α) :
    Does (query fun c => f c.database) db (db.reading (f db)) := by
  have hfrom : (ofDatabase db).database = db := rfl
  unfold Does query Database.reading
  dsimp only
  rw [hfrom]
  cases f db with
  | ok a => rfl
  | error e => rfl

/-- The gap of a connection is that of its database. -/
theorem Does.gap_bind {g : Gap → Work Connection α} {x : Except StoreError (α × Database)}
    (hg : Does (g db.gap) db x) : Does (query (fun c => .ok c.gap) >>= g) db x := by
  unfold Does at hg ⊢
  rw [Work.query_bind]
  exact hg

/-- What a transaction changes is kept as a whole or undone as a whole. -/
theorem transact_does {w : Work Table α} {x : Except StoreError (α × Table)}
    (hw : Table.Does w db.rows x) : Does (transact w) db (db.writing x) := by
  unfold Does transact begin
  rw [Work.alter_bind, Work.bind_apply]
  unfold statements
  dsimp only [ofDatabase]
  cases x with
  | error e =>
    -- the rows are those that were saved, whatever the statements have done
    obtain ⟨t', ht'⟩ := hw
    rw [ht']
    rfl
  | ok p =>
    have hrun : w db.rows = .ok p.1 p.2 := hw
    rw [hrun]
    rfl

/-- A new node is checked by itself before the transaction. -/
theorem transact_checked {n : Node} {w : Work Connection Node}
    {x : Unit → Except StoreError (Node × Database)} (hw : Does w db (x ())) :
    Does (query (fun _ => n.check.mapError (.invalidRecord ∘ .defect)) >>= fun _ => w) db
      (n.check.mapError (.invalidRecord ∘ .defect) >>= x) := by
  unfold Does at hw ⊢
  rw [Work.query_bind]
  cases n.check with
  | error d => rfl
  | ok _ => exact hw

/-- A check before a transaction is a check within it. -/
theorem writing_bind {x : Except StoreError Unit} {f : Unit → Except StoreError (α × Table)} :
    db.writing (x >>= f) = x >>= fun u => db.writing (f u) :=
  map_bind _ _ _

/-- Every call on a connection does what the pure database does. -/
theorem perform_does (c : StoreCall) (now : Timestamp) (db : Database) :
    Does (perform c now) db (Database.serve c now db) := by
  cases c with
  | get id => exact does_read fun db => db.rows.fetch id
  | list group => exact does_read fun db => db.rows.list group
  | nextSort group => exact does_read fun db => db.rows.nextSort db.gap group
  | update id patch => exact transact_does (Table.updateInPlace_does _ _ _ _)
  | delete space id => exact transact_does (Table.deleteInPlace_does _ _ _)
  | moveLast id parent =>
    exact .gap_bind (transact_does (Table.relocateInPlace_does _ _ _ _ _ _))
  | moveAt id parent sort =>
    exact .gap_bind (transact_does (Table.relocateInPlace_does _ _ _ _ _ _))
  | reorder id sort => exact .gap_bind (transact_does (Table.reorderInPlace_does _ _ _ _ _))
  | renumber group => exact .gap_bind (transact_does (Table.renumberInPlace_does _ _ _ _))
  | moveBeside id anchor side =>
    show Does (do
      if anchor = id then throw (.invalidRecord .besideItself)
      let gap ← query fun c => .ok c.gap
      transact (Table.moveBesideInPlace gap id anchor side now)) db
      (db.writing (db.rows.moveBeside db.gap id anchor side now))
    -- the anchor is looked at before the transaction begins
    by_cases hid : anchor = id
    · unfold Table.moveBeside
      rw [if_pos hid, if_pos hid]
      rfl
    · rw [if_neg hid]
      exact .gap_bind (transact_does (Table.moveBesideInPlace_does _ _ _ _ _ _ hid))
  | create n =>
    -- what is checked before the transaction and within it is one check to the pure database
    show Does _ db (db.writing (db.rows.create n))
    unfold Table.create
    rw [Table.checkNew_eq_checkUnder, bind_assoc, writing_bind]
    exact transact_checked (transact_does (Table.createInPlace_does n db.rows))
  | createLast n =>
    show Does _ db (db.writing (db.rows.createLast db.gap n now))
    rw [Table.createLast_eq, writing_bind]
    exact transact_checked (.gap_bind
      (transact_does (Table.createLastInPlace_does db.gap n now db.rows)))

end Connection

end Outline
