import Outline.Proofs.InPlace.Indexed
import Outline.Proofs.InPlace.Table
import Outline.Proofs.Invariants

/-!
# A refused call leaves nothing behind

Both stores work in place, and may have changed something by the time a call turns out to be
refused: places taken out of an index, keys parked, a group respread. None of it stays. What is
stored after the refusal is what was stored before, and whatever is asked later is answered as if
the call had not been made.

Main results:

* `Shelf.outcomes_live`, `Connection.outcomes_live` — the outcomes of calls made in place are those
  that the store is said to give;
* `unchanged_of_refused` — a refused call leaves both stores as they were.
-/

namespace Outline

namespace Store

variable {σ : Type} (store : Store σ)

/-- The outcomes of calls made one after the other. -/
def outcomes : List (StoreCall × Timestamp) → σ → List (Σ c : StoreCall, c.Outcome)
  | [], _ => []
  | (c, now) :: rest, s => ⟨c, (store.step c now s).1⟩ :: outcomes rest (store.step c now s).2

end Store

/-! ## In memory -/

namespace Shelf

variable {s s₁ : Shelf}

/-- A node of a space, as it is stored. -/
def stored (s : Shelf) (sp id : Uuid) : Option Node :=
  (s.space sp).nodes[id]?

theorem Sound.step (h : s.Sound) (c : StoreCall) (now : Timestamp) :
    (store.step c now s).2.Sound := by
  unfold Store.step
  split
  · next hs => exact h.serve hs
  · exact h

/-- A call made in place has the outcome it is said to have, and leaves the same shelf. -/
theorem outcome_live (hs : s₁.Same s) (h : s.Sound) (c : StoreCall) (now : Timestamp) :
    ((live.perform c now).outcome s₁).1 = (store.step c now s).1 ∧
      ((live.perform c now).outcome s₁).2.Same (store.step c now s).2 := by
  have hdoes : Does (performLive c now) s₁ s (serve c now s) := performLive_does hs h.agrees c
  show (Work.outcome (performLive c now) s₁).1 = _ ∧ (Work.outcome (performLive c now) s₁).2.Same _
  unfold Work.outcome Store.step
  have hstore : store.serve c now s = serve c now s := rfl
  rw [hstore]
  cases hserve : serve c now s with
  | ok p =>
    rw [hserve] at hdoes
    obtain ⟨t, ht, hsame⟩ := hdoes
    rw [ht]
    exact ⟨rfl, hsame⟩
  | error e =>
    rw [hserve] at hdoes
    obtain ⟨t, ht, hsame⟩ := hdoes
    rw [ht]
    exact ⟨rfl, hsame⟩

theorem run_live (hs : s₁.Same s) (h : s.Sound) (calls : List (StoreCall × Timestamp)) :
    (live.run calls s₁).Same (store.run calls s) := by
  induction calls generalizing s s₁ with
  | nil => exact hs
  | cons call rest ih =>
    obtain ⟨c, now⟩ := call
    exact ih (outcome_live hs h c now).2 (h.step c now)

theorem outcomes_live (hs : s₁.Same s) (h : s.Sound) (calls : List (StoreCall × Timestamp)) :
    live.outcomes calls s₁ = store.outcomes calls s := by
  induction calls generalizing s s₁ with
  | nil => rfl
  | cons call rest ih =>
    obtain ⟨c, now⟩ := call
    obtain ⟨hout, hsame⟩ := outcome_live hs h c now
    show (⟨c, _⟩ :: live.outcomes rest _ : List (Σ c : StoreCall, c.Outcome)) = ⟨c, _⟩ :: _
    rw [hout, ih hsame (h.step c now)]

end Shelf

/-! ## In a table -/

namespace Connection

theorem outcome_live (db : Database) (c : StoreCall) (now : Timestamp) :
    (live.perform c now).outcome (ofDatabase db) =
      ((Database.store.step c now db).1, ofDatabase (Database.store.step c now db).2) := by
  have hdoes := perform_does c now db
  unfold Does at hdoes
  show Work.outcome (perform c now) (ofDatabase db) = _
  unfold Work.outcome Store.step
  have hstore : Database.store.serve c now db = Database.serve c now db := rfl
  rw [hdoes, hstore]
  cases Database.serve c now db <;> rfl

theorem run_live (db : Database) (calls : List (StoreCall × Timestamp)) :
    live.run calls (ofDatabase db) = ofDatabase (Database.store.run calls db) := by
  induction calls generalizing db with
  | nil => rfl
  | cons call rest ih =>
    obtain ⟨c, now⟩ := call
    show live.run rest ((live.perform c now).outcome (ofDatabase db)).2 = _
    rw [outcome_live, ih]
    rfl

theorem outcomes_live (db : Database) (calls : List (StoreCall × Timestamp)) :
    live.outcomes calls (ofDatabase db) = Database.store.outcomes calls db := by
  induction calls generalizing db with
  | nil => rfl
  | cons call rest ih =>
    obtain ⟨c, now⟩ := call
    show (⟨c, ((live.perform c now).outcome (ofDatabase db)).1⟩ ::
      live.outcomes rest ((live.perform c now).outcome (ofDatabase db)).2 :
        List (Σ c : StoreCall, c.Outcome)) = _
    rw [outcome_live, ih]
    rfl

end Connection

/-! ## Refusals -/

/-- What is stored is as it was, and whatever is asked later is answered as it would have been. -/
structure Live.Unchanged {σ ν : Type} (live : Live σ) (stored : σ → ν) (s s' : σ) : Prop where
  stored : stored s' = stored s
  later  : ∀ calls, live.outcomes calls s' = live.outcomes calls s

/-- After any run of either store, a call that is refused leaves it unchanged. -/
theorem unchanged_of_refused (gap : Gap) (calls : List (StoreCall × Timestamp)) (c : StoreCall)
    (now : Timestamp) :
    (∀ e s', (Shelf.live.perform c now).outcome (Shelf.live.run calls (.empty gap)) =
        (.error e, s') →
      Shelf.live.Unchanged Shelf.stored (Shelf.live.run calls (.empty gap)) s') ∧
    ∀ e k', (Connection.live.perform c now).outcome
        (Connection.live.run calls (.ofDatabase (.empty gap))) = (.error e, k') →
      Connection.live.Unchanged Connection.rows
        (Connection.live.run calls (.ofDatabase (.empty gap))) k' := by
  constructor
  -- in memory the same shelf is left
  · intro e s' href
    have hsound := Shelf.sound_run gap calls
    have hsame := Shelf.run_live (.refl (.empty gap)) (Shelf.sound_empty gap) calls
    obtain ⟨hout, hleft⟩ := Shelf.outcome_live hsame hsound c now
    rw [href] at hout hleft
    rw [Shelf.store.step_of_error hout.symm] at hleft
    refine ⟨?_, fun later => ?_⟩
    · funext sp id
      show (s'.space sp).nodes[id]? = ((Shelf.live.run calls (.empty gap)).space sp).nodes[id]?
      rw [hleft.space, hsame.space]
    · rw [Shelf.outcomes_live hleft hsound, Shelf.outcomes_live hsame hsound]
  -- in a table the rows are restored
  · intro e k' href
    rw [Connection.run_live, Connection.outcome_live] at href
    obtain ⟨hout, rfl⟩ := Prod.mk.inj href
    rw [Connection.run_live, Database.store.step_of_error hout]
    exact ⟨rfl, fun later => rfl⟩

namespace Sample

/-- A time that no row can be read with. -/
def lateTime : Timestamp :=
  { time with date := ⟨10000, 1, 1, by decide⟩ }

/-- A page at the root, where the first page has its key. -/
def taken : StoreCall := .create { page 9 none with sort := Gap.standard.size }

end Sample

/-- In memory a page is created at a taken key; in the table a page is moved at a time with which
its row cannot be read again. -/
theorem unchanged_of_refused_calls :
    (∃ e s', (Shelf.live.perform Sample.taken Sample.time).outcome
        (Shelf.live.run Sample.calls (.empty .standard)) = (.error e, s') ∧
      Shelf.live.Unchanged Shelf.stored (Shelf.live.run Sample.calls (.empty .standard)) s') ∧
    ∃ e k', (Connection.live.perform Sample.move Sample.lateTime).outcome
        (Connection.live.run Sample.calls (.ofDatabase (.empty .standard))) = (.error e, k') ∧
      Connection.live.Unchanged Connection.rows
        (Connection.live.run Sample.calls (.ofDatabase (.empty .standard))) k' := by
  constructor
  · obtain ⟨e, he⟩ : ∃ e, ((Shelf.live.perform Sample.taken Sample.time).outcome
        (Shelf.live.run Sample.calls (.empty .standard))).1 = .error e :=
      exists_eq_error_of_isOk (by decide +kernel)
    exact ⟨e, _, Prod.ext he rfl,
      (unchanged_of_refused .standard Sample.calls Sample.taken Sample.time).1 e _
        (Prod.ext he rfl)⟩
  · obtain ⟨e, he⟩ : ∃ e, ((Connection.live.perform Sample.move Sample.lateTime).outcome
        (Connection.live.run Sample.calls (.ofDatabase (.empty .standard)))).1 = .error e :=
      exists_eq_error_of_isOk (by decide +kernel)
    exact ⟨e, _, Prod.ext he rfl,
      (unchanged_of_refused .standard Sample.calls Sample.move Sample.lateTime).2 e _
        (Prod.ext he rfl)⟩

end Outline
