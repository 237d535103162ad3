import Outline.Proofs.Agreement.Requests
import Outline.Proofs.Alone.Calls

/-!
# Operations that look before they write

What a service has fetched is true for as long as nobody else writes. So each operation, as soon as
it writes, makes a call that was checked, and is done with it: the store accepts the call or refuses
it for a reason that the service could not see, and neither is a conflict.

The rules below follow an operation through the answers of a store that shows a forest. The calls
that come first only read, and hand on what they have found out about the forest.

Main results:

* `Cautious.retrying` — a checked call is made once, whatever retries are left;
* `Request.cautious` — every request is such an operation.
-/

namespace Outline

variable {π τ α β : Type} {f : Forest π τ}

/-- An end that is no conflict. -/
def Calm (outcome : Except ServiceError α) : Prop :=
  ∀ e, outcome = .error e → e.isConflict = false

/-- An answer is no conflict. -/
theorem Calm.ok (a : α) : Calm (.ok a : Except ServiceError α) := by
  intro e he
  cases he

theorem Calm.error {e : ServiceError} (he : e.isConflict = false) :
    Calm (.error e : Except ServiceError α) := by
  intro e' he'
  cases he'
  exact he

/-- A program that only reads, and when it is told of the forest either finds out what `Q` says of
its answer or fails calmly. -/
inductive Learns (f : Forest π τ) (Q : α → Prop) : Program (Except ServiceError α) → Prop
  | answer {a : α} : Q a → Learns f Q (.done (.ok a))
  | fail {e : ServiceError} : e.isConflict = false → Learns f Q (.done (.error e))
  | ask {c : StoreCall} {next : c.Outcome → Program (Except ServiceError α)} : c.isRead = true →
      (∀ outcome, c.Tells f outcome → Learns f Q (next outcome)) → Learns f Q (.ask c next)

/-- A program that, told of the forest, only writes what passed the checks, and then is done. -/
inductive Cautious (f : Forest π τ) : Program (Except ServiceError α) → Prop
  | done {outcome : Except ServiceError α} : Calm outcome → Cautious f (.done outcome)
  | read {c : StoreCall} {next : c.Outcome → Program (Except ServiceError α)} : c.isRead = true →
      (∀ outcome, c.Tells f outcome → Cautious f (next outcome)) → Cautious f (.ask c next)
  | write {c : StoreCall} {next : c.Outcome → Program (Except ServiceError α)} : c.Passed f →
      (∀ outcome, Peaceful outcome → ∃ x, next outcome = .done x ∧ Calm x) →
      Cautious f (.ask c next)

namespace Learns

variable {P Q : α → Prop} {R : β → Prop}

theorem pure {a : α} (ha : Q a) : Learns f Q (Pure.pure a : Operation α).run :=
  .answer ha

theorem throw {e : ServiceError} (he : e.isConflict = false) :
    Learns f Q (MonadExcept.throw e : Operation α).run :=
  .fail he

/-- What a program has learnt is at hand in what goes on with its answer. -/
theorem bind {p : Operation α} {k : α → Operation β} (hp : Learns f Q p.run)
    (hk : ∀ a, Q a → Learns f R (k a).run) : Learns f R (p >>= k).run := by
  show Learns f R (p.run.bind _)
  generalize p.run = q at hp
  induction hp with
  | answer ha => exact hk _ ha
  | fail he => exact .fail he
  | ask hc _ ih => exact .ask hc ih

/-- What has been found out is known to the rest of the operation. -/
theorem before {p : Operation α} {k : α → Operation β} (hp : Learns f Q p.run)
    (hk : ∀ a, Q a → Cautious f (k a).run) : Cautious f (p >>= k).run := by
  show Cautious f (p.run.bind _)
  generalize p.run = q at hp
  induction hp with
  | answer ha => exact hk _ ha
  | fail he => exact .done (.error he)
  | ask hc _ ih => exact .read hc ih

/-- A program that learns something is cautious on the way to it. -/
theorem cautious {p : Program (Except ServiceError α)} (hp : Learns f Q p) : Cautious f p := by
  induction hp with
  | answer => exact .done (.ok _)
  | fail he => exact .done (.error he)
  | ask hc _ ih => exact .read hc ih

end Learns

namespace Cautious

/-- What goes on calmly may follow. -/
theorem resume {p : Program (Except ServiceError α)}
    {k : Except ServiceError α → Program (Except ServiceError β)} (hp : Cautious f p)
    (hk : ∀ x, Calm x → ∃ y, k x = .done y ∧ Calm y) : Cautious f (p.bind k) := by
  induction hp with
  | done hx =>
    obtain ⟨y, hy, hcalm⟩ := hk _ hx
    show Cautious f (k _)
    rw [hy]
    exact .done hcalm
  | read hc _ ih => exact .read hc ih
  | write hc hnext =>
    refine .write hc fun outcome houtcome => ?_
    obtain ⟨x, hx, hcalm⟩ := hnext outcome houtcome
    obtain ⟨y, hy, hcalm⟩ := hk x hcalm
    exact ⟨y, by rw [hx]; exact hy, hcalm⟩

/-- Wrapping the answer up does not make it less cautious. -/
theorem map {p : Operation α} (g : α → β) (hp : Cautious f p.run) :
    Cautious f (g <$> p).run := by
  refine resume hp fun x hx => ?_
  cases x with
  | ok a => exact ⟨.ok (g a), rfl, .ok _⟩
  | error e => exact ⟨.error e, rfl, .error (hx e rfl)⟩

/-- Without a conflict the first attempt is the last. -/
theorem retrying {p : Operation α} (hp : Cautious f p.run) (retries : Nat) :
    Cautious f (Operation.retrying retries p).run := by
  cases retries with
  | zero => exact hp
  | succ retries =>
    refine resume hp fun x hx => ?_
    cases x with
    | ok a => exact ⟨.ok a, rfl, .ok a⟩
    | error e =>
      have he : e.isConflict = false := hx e rfl
      exact ⟨.error e, by simp [he], hx⟩

/-- A guard makes no call; behind it its condition is known. -/
theorem guard {c : Prop} [Decidable c] {e : ServiceError} {k : PUnit → Operation α}
    (he : e.isConflict = false) (hk : ¬c → Cautious f (k ⟨⟩).run) :
    Cautious f (if c then MonadExcept.throw e >>= k else k ⟨⟩ : Operation α).run := by
  by_cases hc : c
  · rw [if_pos hc]
    exact .done (.error he)
  · rw [if_neg hc]
    exact hk hc

end Cautious

namespace Operation

/-! ## What the first steps find out -/

/-- Of the refusals of a store only a taken key becomes a conflict. -/
theorem calm_mapError {c : StoreCall} {outcome : c.Outcome} (h : Peaceful outcome)
    (operation : String) : Calm (outcome.mapError (ServiceError.ofStore operation)) := by
  cases outcome with
  | ok answer => exact .ok answer
  | error e => exact .error ((h e rfl).isConflict_ofStore operation)

/-- A checked call is the end of an operation. -/
theorem cautious_ask {c : StoreCall} (hc : c.Passed f) (operation : String) :
    Cautious f (ask operation c).run :=
  .write hc fun _ houtcome => ⟨_, rfl, calm_mapError houtcome operation⟩

/-- A reading call finds out what the store tells. -/
theorem learns_ask {c : StoreCall} (hc : c.isRead = true) (operation : String) :
    Learns f (c.Finds f) (ask operation c).run := by
  refine .ask hc fun outcome htells => ?_
  cases outcome with
  | ok answer => exact .answer htells
  | error e => exact .fail (StoreError.NoConflict.isConflict_ofStore htells operation)

/-- Past a rule the rule is known to be kept, -/
theorem learns_require (operation : String) (rule : Except Violation Unit) :
    Learns f (fun _ => rule = .ok ()) (require operation rule).run := by
  cases rule with
  | ok u => exact .answer rfl
  | error v => exact .fail (ServiceError.isConflict_ofViolation operation v)

theorem learns_requireId (operation : String) (kind : Kind) (id : Uuid) :
    Learns f (fun _ => True) (requireId operation kind id).run := by
  unfold requireId
  split
  · exact .throw rfl
  · exact .pure trivial

/-- past a check of a space it is known not to be nil, -/
theorem learns_requireSpace (operation : String) (space : Uuid) :
    Learns f (fun _ => space ≠ .nil) (requireSpace operation space).run := by
  unfold requireSpace
  split
  · exact .throw rfl
  · next hnil => exact .pure (by simpa [Uuid.isNil] using hnil)

/-- and past a look-up the node is known to be stored. -/
theorem learns_fetch (operation : String) (id : Uuid) :
    Learns f (f.Shows id) (fetch operation id).run :=
  learns_ask (c := .get id) rfl operation

theorem learns_fetchKind (operation : String) (kind : Kind) (id : Uuid) :
    Learns f (f.Shows id) (fetchKind operation kind id).run :=
  (learns_fetch operation id).bind fun n hn =>
    (learns_require operation (checkKind n kind)).bind fun _ _ => .pure hn

/-- The parent of a request, if it has one, is found where it is recorded. -/
theorem learns_fetchParent (operation : String) (parent : Option Uuid) :
    Learns f (fun found => Option.Rel f.Shows parent found) (fetchParent operation parent).run := by
  cases parent with
  | none => exact .pure .none
  | some id => exact (learns_fetch operation id).bind fun n hn => .pure (.some hn)

/-- A parent that passes the check seats the node. -/
theorem seats_of_checkParent {parent : Option Uuid} {found : Option Node}
    (hfound : Option.Rel f.Shows parent found) {kind : Kind} {space : Uuid}
    (hok : checkParent kind space found = .ok ()) : f.Seats kind space parent := by
  cases hfound with
  | none => exact checkParent_eq_ok_iff.1 hok
  | @some p n hn =>
    obtain ⟨r, hr, hrspace, hrkind, -⟩ := hn.place
    obtain ⟨hspace, hkind⟩ : n.space = space ∧ (kind = .page → n.kind = .page) :=
      checkParent_eq_ok_iff.1 hok
    exact ⟨r, hr, hrspace.trans hspace, fun hpage => hrkind.trans (hkind hpage)⟩

/-! ## The operations -/

/-- A new node never gets the nil identifier, since a fresh one is not nil. -/
theorem given_ne_nil {id : Option Uuid} {fresh : Uuid} (hfresh : fresh ≠ .nil) :
    (Uuid.given id).getD fresh ≠ .nil := by
  cases hid : Uuid.given id with
  | none => exact hfresh
  | some id' =>
    obtain ⟨-, hnil⟩ := Option.filter_eq_some_iff.1 hid
    simpa [Uuid.isNil] using hnil

/-- A draft whose parent seats it makes a node that can be stored. -/
theorem passed_createLast {kind : Kind} {draft : Draft} (now : Timestamp) {fresh : Uuid}
    (hid : draft.id.getD fresh ≠ .nil) (hnew : f (draft.id.getD fresh) = none)
    (hspace : draft.space ≠ .nil) (hseats : f.Seats kind draft.space draft.parent)
    (hobject : draft.properties.isObject = true) :
    (StoreCall.createLast (draft.toNode kind now fresh)).Passed f := by
  refine ⟨Node.check_eq_ok_iff.2 ⟨hid, hspace, hobject, fun hloop => ?_⟩, hnew, hseats⟩
  -- its parent is stored, and it is not
  have hparent : draft.parent = some (draft.id.getD fresh) := hloop
  rw [hparent] at hseats
  obtain ⟨q, hq, -⟩ := hseats
  rw [hnew] at hq
  cases hq

/-- A creation makes its write when its parent is known to fit and its identifier to be new. -/
theorem cautious_create (config : Config) (kind : Kind) (draft : Draft) (now : Timestamp)
    {fresh : Uuid} (hfresh : fresh ≠ .nil) (hnew : f ((Uuid.given draft.id).getD fresh) = none) :
    Cautious f (create config kind draft now fresh).run := by
  unfold create
  refine (learns_requireSpace _ _).before fun _ hspace => .guard rfl fun _ => ?_
  refine (learns_fetchParent _ _).before fun found hfound => ?_
  refine (learns_require _ _).before fun _ hok => .guard rfl fun hobject => ?_
  refine Cautious.retrying (cautious_ask ?_ _) _
  exact passed_createLast now (given_ne_nil hfresh) hnew hspace
    (seats_of_checkParent hfound hok) (by simpa using hobject)

/-- A removal makes its write when the node is known to be in the space. -/
theorem cautious_delete (kind : Kind) (space id : Uuid) :
    Cautious f (delete kind space id).run := by
  unfold delete
  refine (learns_requireId _ _ _).before fun _ _ => ?_
  refine (learns_requireSpace _ _).before fun _ _ => ?_
  refine (learns_fetchKind _ _ _).before fun n hn => .guard rfl fun hspace => ?_
  obtain ⟨r, hr, hrspace, -⟩ := hn.place
  exact cautious_ask (c := .delete _ _) ⟨r, hr, hrspace.trans (not_not.1 hspace)⟩ _

/-- An update makes its write when the node is known to be there. -/
theorem cautious_update (kind : Kind) (id : Uuid) (patch : Patch) :
    Cautious f (update kind id patch).run := by
  unfold update
  refine (learns_requireId _ _ _).before fun _ _ => ?_
  refine (learns_fetchKind _ _ _).before fun n hn => ?_
  obtain ⟨r, hr, -⟩ := hn.place
  split
  · exact .done (.ok n)
  · refine .guard rfl fun hobject => cautious_ask (c := .update _ _) ⟨⟨r, hr⟩, ?_⟩ _
    cases hp : patch.properties with
    | none => rfl
    | some v => simpa [hp] using hobject

/-- A move makes its write when the node is known, and its new parent is known to fit. -/
theorem cautious_move (config : Config) (kind : Kind) (id : Uuid) (parent : Option Uuid)
    (sort : Option SortKey) : Cautious f (move config kind id parent sort).run := by
  unfold move
  refine (learns_requireId _ _ _).before fun _ _ => .guard rfl fun _ => ?_
  refine (learns_fetchKind _ _ _).before fun n hn => ?_
  refine (learns_fetchParent _ _).before fun found hfound => ?_
  refine (learns_require _ _).before fun _ hok => ?_
  obtain ⟨r, hr, hspace, hkind, -⟩ := hn.place
  -- the rule was checked for the kind and the space that are recorded
  have hseats : f.Seats r.kind r.space (Uuid.given parent) := by
    rw [hspace, hkind]
    exact seats_of_checkParent hfound hok
  cases sort with
  | some sort =>
    exact Cautious.retrying (cautious_ask (c := .moveAt _ _ _) ⟨r, hr, hseats⟩ _) _
  | none => exact Cautious.retrying (cautious_ask (c := .moveLast _ _) ⟨r, hr, hseats⟩ _) _

/-- The move of a block is a move. -/
theorem cautious_moveBlock (config : Config) (id parent : Uuid) (sort : Option SortKey) :
    Cautious f (moveBlock config id parent sort).run := by
  unfold moveBlock
  exact .guard rfl fun _ => cautious_move config .block id (some parent) sort

/-- Reordering makes its write when the node is known to be there. -/
theorem cautious_reorder (config : Config) (kind : Kind) (id : Uuid) (sort : SortKey) :
    Cautious f (reorder config kind id sort).run := by
  unfold reorder
  refine (learns_requireId _ _ _).before fun _ _ => ?_
  refine (learns_fetchKind _ _ _).before fun n hn => ?_
  obtain ⟨r, hr, -⟩ := hn.place
  exact Cautious.retrying (cautious_ask (c := .reorder _ _) ⟨r, hr⟩ _) _

/-- A move beside an anchor asks in addition for an anchor in the same space. -/
theorem cautious_moveBeside (config : Config) (kind : Kind) (id anchor : Uuid) (side : Side) :
    Cautious f (moveBeside config kind id anchor side).run := by
  unfold moveBeside
  refine (learns_requireId _ _ _).before fun _ _ => .guard rfl fun _ => .guard rfl fun hne => ?_
  refine (learns_fetchKind _ _ _).before fun n hn => ?_
  refine (learns_fetch _ _).before fun a ha => .guard rfl fun hsame => ?_
  refine (learns_fetchParent _ _).before fun found hfound => ?_
  refine (learns_require _ _).before fun _ hok => Cautious.retrying (cautious_ask ?_ _) _
  obtain ⟨r, hr, hspace, hkind, -⟩ := hn.place
  obtain ⟨q, hq, hqspace, -, hqparent⟩ := ha.place
  -- the parent that was checked is the one recorded for the anchor
  refine ⟨hne, r, q, hr, hq, ?_, ?_⟩
  · rw [hqspace, hspace]
    exact not_not.1 hsame
  · rw [hspace, hkind, hqparent]
    exact seats_of_checkParent hfound hok

/-- Renumbering makes its write when the parent of the group is known to be in the space. -/
theorem cautious_renumber (group : Group) : Cautious f (renumber group).run := by
  unfold renumber
  refine (learns_requireSpace _ _).before fun _ _ => ?_
  cases Uuid.given group.parent with
  | none => exact cautious_ask (c := .renumber _) (fun p hp => by cases hp) _
  | some id =>
    refine (learns_fetch _ _).before fun n hn => .guard rfl fun hsame => cautious_ask ?_ _
    -- the group has the parent that was found
    intro p hp
    obtain ⟨r, hr, hspace, -⟩ := hn.place
    cases hp
    exact ⟨r, hr, hspace.trans (not_not.1 hsame)⟩

/-! ## Reading operations -/

theorem cautious_get (kind : Kind) (id : Uuid) : Cautious f (get kind id).run :=
  (learns_requireId _ _ _).before fun _ _ => (learns_fetchKind _ _ _).cautious

theorem cautious_children (kind : Kind) (id : Uuid) (archived : Bool) :
    Cautious f (children kind id archived).run := by
  unfold children
  refine (learns_requireId _ _ _).before fun _ _ => ?_
  refine (learns_fetchKind _ _ _).before fun n _ => ?_
  exact (learns_ask (c := .list _) rfl _).before fun _ _ => .done (.ok _)

theorem cautious_roots (space : Uuid) : Cautious f (roots space).run :=
  (learns_requireSpace _ _).before fun _ _ => (learns_ask (c := .list _) rfl _).cautious

/-- Listing group after group makes reading calls only. -/
theorem learns_collect (operation : String) (space : Uuid) (fuel : Nat)
    (visited pending : List Node) :
    Learns f (fun _ => True) (Branch.collect operation space fuel visited pending).run := by
  -- each round makes one call, whatever has been met before
  induction fuel generalizing visited pending with
  | zero => cases pending <;> exact .pure trivial
  | succ fuel ih =>
    cases pending with
    | nil => exact .pure trivial
    | cons n rest => exact (learns_ask (c := .list _) rfl _).bind fun listed _ => ih _ _

theorem cautious_branch (kind : Kind) (id : Uuid) : Cautious f (branch kind id).run := by
  unfold branch
  refine (learns_requireId _ _ _).before fun _ _ => ?_
  refine (learns_fetchKind _ _ _).before fun root _ => ?_
  refine (learns_collect _ _ _ _ _).before fun nodes _ => ?_
  cases Branch.tree? nodes with
  | some t => exact .done (.ok t)
  | none => exact .done (.error rfl)

end Operation

open Operation

/-- Every request only writes what passed its checks, if a new node gets an identifier that is not
in use. -/
theorem Request.cautious (config : Config) (now : Timestamp) {fresh : Uuid} (hfresh : fresh ≠ .nil)
    (request : Request) (hnew : ∀ id, request.newId? fresh = some id → f id = none) :
    Cautious f (request.operation config now fresh).run := by
  cases request with
  | create kind draft => exact (cautious_create config kind draft now hfresh (hnew _ rfl)).map _
  | delete kind space id => exact (cautious_delete kind space id).map _
  | get kind id => exact (cautious_get kind id).map _
  | update kind id patch => exact (cautious_update kind id patch).map _
  | children kind id archived => exact (cautious_children kind id archived).map _
  | roots space => exact (cautious_roots space).map _
  | move kind id parent sort => exact (cautious_move config kind id parent sort).map _
  | moveBlock id parent sort => exact (cautious_moveBlock config id parent sort).map _
  | reorder kind id sort => exact (cautious_reorder config kind id sort).map _
  | moveBeside kind id anchor side => exact (cautious_moveBeside config kind id anchor side).map _
  | branch kind id => exact (cautious_branch kind id).map _
  | renumber group => exact (cautious_renumber group).map _

end Outline
