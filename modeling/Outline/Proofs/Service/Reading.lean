import Outline.Proofs.Agreement.Requests

/-!
# What an operation does before it writes

An operation first reads and checks. Unless it has failed by then, all that is left of it is its one
write, made once or made again after conflicts. So whatever holds of the write, and cannot be upset
by reading, holds of the operation.

Main results:

* `ReadsBefore` — to read, and then to go on as a given program unless there has been a failure;
* `Operation.readsBefore_create`, `Operation.readsBefore_move` and the like — what is left of each
  operation once it has checked.
-/

namespace Outline

variable {α β σ : Type}

/-! ## Programs that read -/

/-- Only reading calls, whatever comes of them. -/
inductive Reads : Program α → Prop
  | done (a : α) : Reads (.done a)
  | ask {c : StoreCall} {next : c.Outcome → Program α} : c.isRead = true →
      (∀ outcome, Reads (next outcome)) → Reads (.ask c next)

/-- Reading calls, and then the program `q`, unless there is an end before that. -/
inductive ReadsBefore (q : Program α) : Program α → Prop
  | done (a : α) : ReadsBefore q (.done a)
  | reached : ReadsBefore q q
  | read {c : StoreCall} {next : c.Outcome → Program α} : c.isRead = true →
      (∀ outcome, ReadsBefore q (next outcome)) → ReadsBefore q (.ask c next)

/-- A program that only reads may go first, and leave `q` to what goes on with its answer. -/
theorem Reads.readsBefore {p : Program α} {f : α → Program β} {q : Program β} (hp : Reads p)
    (hf : ∀ a, ReadsBefore q (f a)) : ReadsBefore q (p.bind f) := by
  induction hp with
  | done a => exact hf a
  | ask hc _ ih => exact .read hc ih

/-- What is done with the ending of a program, without a call, is done with that of `q`. -/
theorem ReadsBefore.bind {p q : Program α} (f : α → Program β)
    (hf : ∀ a, ∃ b, f a = .done b) (h : ReadsBefore q p) :
    ReadsBefore (q.bind f) (p.bind f) := by
  induction h with
  | done a =>
    obtain ⟨b, hb⟩ := hf a
    show ReadsBefore (q.bind f) (f a)
    rw [hb]
    exact .done b
  | reached => exact .reached
  | read hc _ ih => exact .read hc ih

namespace Operation

/-- An operation that makes only reading calls. -/
def ReadsOnly (p : Operation α) : Prop := Reads p.run

/-- An operation of which `q` is left when it has read and checked. -/
def ReadsBefore (q p : Operation α) : Prop := Outline.ReadsBefore q.run p.run

theorem ReadsOnly.pure (a : α) : ReadsOnly (Pure.pure a : Operation α) :=
  .done _

/-- To give up is to make no call at all. -/
theorem ReadsOnly.throw (e : ServiceError) : ReadsOnly (MonadExcept.throw e : Operation α) :=
  .done _

theorem readsOnly_ask {c : StoreCall} (hc : c.isRead = true) (operation : String) :
    ReadsOnly (ask operation c) :=
  .ask hc fun _ => .done _

/-- Reading may be followed by more reading, which depends on the answers so far. -/
theorem ReadsOnly.bind {p : Operation α} {f : α → Operation β} (hp : ReadsOnly p)
    (hf : ∀ a, ReadsOnly (f a)) : ReadsOnly (p >>= f) := by
  show Reads (p.run.bind _)
  unfold ReadsOnly at hp
  generalize p.run = q at hp
  induction hp with
  | done outcome =>
    cases outcome with
    | ok a => exact hf a
    | error e => exact .done _
  | ask hc _ ih => exact .ask hc ih

/-- Reading may go before. -/
theorem ReadsOnly.before {p : Operation α} {f : α → Operation β} {q : Operation β}
    (hp : ReadsOnly p) (hf : ∀ a, ReadsBefore q (f a)) : ReadsBefore q (p >>= f) :=
  Reads.readsBefore hp fun outcome => match outcome with
    | .ok a => hf a
    | .error e => .done (Except.error e)

namespace ReadsBefore

/-- A guard makes no call. -/
theorem guard {c : Prop} [Decidable c] {e : ServiceError} {f : PUnit → Operation α}
    {q : Operation α} (hf : ReadsBefore q (f ⟨⟩)) :
    ReadsBefore q (if c then MonadExcept.throw e >>= f else f ⟨⟩) := by
  by_cases h : c
  · rw [if_pos h]
    exact .done _
  · rw [if_neg h]
    exact hf

/-- The answer may be wrapped up, here as that of a request. -/
theorem map {p q : Operation α} (f : α → β) (h : ReadsBefore q p) :
    ReadsBefore (f <$> q) (f <$> p) := by
  refine Outline.ReadsBefore.bind _ (fun outcome => ?_) h
  cases outcome with
  | ok a => exact ⟨.ok (f a), rfl⟩
  | error e => exact ⟨.error e, rfl⟩

end ReadsBefore

/-! ## The operations -/

theorem readsOnly_requireId (operation : String) (kind : Kind) (id : Uuid) :
    ReadsOnly (requireId operation kind id) := by
  unfold requireId
  split
  · exact .throw _
  · exact .pure _

theorem readsOnly_requireSpace (operation : String) (space : Uuid) :
    ReadsOnly (requireSpace operation space) := by
  unfold requireSpace
  split
  · exact .throw _
  · exact .pure _

/-- A rule is checked on nodes that have been looked up before. -/
theorem readsOnly_require (operation : String) (rule : Except Violation Unit) :
    ReadsOnly (require operation rule) :=
  .done _

theorem readsOnly_fetch (operation : String) (id : Uuid) : ReadsOnly (fetch operation id) :=
  readsOnly_ask rfl operation

/-- The node is looked up and then judged by its kind. -/
theorem readsOnly_fetchKind (operation : String) (kind : Kind) (id : Uuid) :
    ReadsOnly (fetchKind operation kind id) :=
  (readsOnly_fetch operation id).bind fun n =>
    (readsOnly_require operation (checkKind n kind)).bind fun _ => .pure n

/-- A parent is looked up if there is one. -/
theorem readsOnly_fetchParent (operation : String) (parent : Option Uuid) :
    ReadsOnly (fetchParent operation parent) := by
  cases parent with
  | none => exact .pure none
  | some id => exact (readsOnly_fetch operation id).bind fun n => .pure (some n)

/-- The nodes of a branch are collected by one listing after another, as far as the fuel goes. -/
theorem readsOnly_collect (operation : String) (space : Uuid) (fuel : Nat)
    (visited pending : List Node) :
    ReadsOnly (Branch.collect operation space fuel visited pending) := by
  induction fuel generalizing visited pending with
  | zero => cases pending <;> exact .pure _
  | succ fuel ih =>
    cases pending with
    | nil => exact .pure _
    | cons n rest => exact (readsOnly_ask rfl operation).bind fun listed => ih _ _

theorem readsOnly_get (kind : Kind) (id : Uuid) : ReadsOnly (get kind id) :=
  (readsOnly_requireId _ _ _).bind fun _ => readsOnly_fetchKind _ _ _

theorem readsOnly_children (kind : Kind) (id : Uuid) (archived : Bool) :
    ReadsOnly (children kind id archived) :=
  (readsOnly_requireId _ _ _).bind fun _ => (readsOnly_fetchKind _ _ _).bind fun _ =>
    (readsOnly_ask rfl _).bind fun _ => .pure _

theorem readsOnly_roots (space : Uuid) : ReadsOnly (roots space) :=
  (readsOnly_requireSpace _ _).bind fun _ => readsOnly_ask rfl _

/-- Once the branch is collected, its tree is put together without any call. -/
theorem readsOnly_branch (kind : Kind) (id : Uuid) : ReadsOnly (branch kind id) := by
  unfold branch
  refine (readsOnly_requireId _ _ _).bind fun _ => (readsOnly_fetchKind _ _ _).bind fun root => ?_
  refine (readsOnly_collect _ _ _ _ _).bind fun nodes => ?_
  cases Branch.tree? nodes with
  | some t => exact .pure t
  | none => exact .throw _

/-- A creation looks up the parent, and is left with the new node to be appended. -/
theorem readsBefore_create (config : Config) (kind : Kind) (draft : Draft) (now : Timestamp)
    (fresh : Uuid) :
    ReadsBefore
      (retrying config.conflictRetries
        (ask s!"create_{kind}" (.createLast (draft.made kind now fresh))))
      (create config kind draft now fresh) := by
  unfold create
  refine (readsOnly_requireSpace _ _).before fun _ => .guard ?_
  refine (readsOnly_fetchParent _ _).before fun parent => ?_
  exact (readsOnly_require _ _).before fun _ => .guard .reached

/-- A removal looks up the node, for its kind and space. -/
theorem readsBefore_delete (kind : Kind) (space id : Uuid) :
    ReadsBefore (ask s!"delete_{kind}" (.delete space id)) (delete kind space id) := by
  unfold delete
  refine (readsOnly_requireId _ _ _).before fun _ => (readsOnly_requireSpace _ _).before fun _ => ?_
  exact (readsOnly_fetchKind _ _ _).before fun n => .guard .reached

/-- An update looks up the node, and is done with it when there is nothing to change. -/
theorem readsBefore_update (kind : Kind) (id : Uuid) (patch : Patch) :
    ReadsBefore (ask s!"update_{kind}_properties" (.update id patch)) (update kind id patch) := by
  unfold update
  refine (readsOnly_requireId _ _ _).before fun _ => (readsOnly_fetchKind _ _ _).before fun n => ?_
  split
  · exact .done _
  · exact .guard .reached

/-- A move looks up the node and its new parent, and is left with one of two calls. -/
theorem readsBefore_move (config : Config) (kind : Kind) (id : Uuid) (parent : Option Uuid)
    (sort : Option SortKey) :
    ReadsBefore
      (match sort with
        | some sort => retrying config.conflictRetries
            (ask s!"move_{kind}" (.moveAt id (Uuid.given parent) sort))
        | none => retrying config.conflictRetries
            (ask s!"move_{kind}" (.moveLast id (Uuid.given parent))))
      (move config kind id parent sort) := by
  unfold move
  refine (readsOnly_requireId _ _ _).before fun _ => .guard ?_
  refine (readsOnly_fetchKind _ _ _).before fun n => ?_
  refine (readsOnly_fetchParent _ _).before fun parentNode => ?_
  exact (readsOnly_require _ _).before fun _ => .reached

/-- The move of a block is a move, but for the parent that has to be given. -/
theorem readsBefore_moveBlock {config : Config} {id parent : Uuid} {sort : Option SortKey}
    {q : Operation Node} (h : ReadsBefore q (move config .block id (some parent) sort)) :
    ReadsBefore q (moveBlock config id parent sort) := by
  unfold moveBlock
  exact .guard h

/-- To be reordered a node has to be of its kind. -/
theorem readsBefore_reorder (config : Config) (kind : Kind) (id : Uuid) (sort : SortKey) :
    ReadsBefore
      (retrying config.conflictRetries (ask s!"update_{kind}_sort" (.reorder id sort)))
      (reorder config kind id sort) := by
  unfold reorder
  refine (readsOnly_requireId _ _ _).before fun _ => ?_
  exact (readsOnly_fetchKind _ _ _).before fun _ => .reached

/-- A move beside an anchor looks up the node, the anchor and the parent of the anchor. -/
theorem readsBefore_moveBeside (config : Config) (kind : Kind) (id anchor : Uuid) (side : Side) :
    ReadsBefore
      (retrying config.conflictRetries
        (ask s!"move_{kind}_relative" (.moveBeside id anchor side)))
      (moveBeside config kind id anchor side) := by
  unfold moveBeside
  refine (readsOnly_requireId _ _ _).before fun _ => .guard (.guard ?_)
  refine (readsOnly_fetchKind _ _ _).before fun n => ?_
  refine (readsOnly_fetch _ _).before fun anchorNode => .guard ?_
  refine (readsOnly_fetchParent _ _).before fun parent => ?_
  exact (readsOnly_require _ _).before fun _ => .reached

/-- Renumbering looks up the parent of the group if it has one, and does not go through conflicts.
-/
theorem readsBefore_renumber (group : Group) :
    ReadsBefore (ask "renumber_children" (.renumber ⟨group.space, Uuid.given group.parent⟩))
      (renumber group) := by
  unfold renumber
  refine (readsOnly_requireSpace _ _).before fun _ => ?_
  cases Uuid.given group.parent with
  | none => exact .reached
  | some id => exact (readsOnly_fetch _ _).before fun n => .guard .reached

end Operation

end Outline
