import Outline.Proofs.Alone.History
import Outline.Proofs.Alone.Programs

/-!
# A service that is alone

A service is alone with its store when nobody else writes there during a request. Then the call by
which a request writes is the only one of its kind: the store takes it, or refuses it because a node
would come to stand below itself, or because the keys of a group do not fit in 64 bits. No request
ends in a conflict, so none is ever tried again, whether retries are allowed or not.

This holds in every state that requests lead to, also requests that failed. About the table the same
is assumed as where the two stores are compared, but only of the state in question that it has
fewer than `2 ^ 31` rows; in memory nothing is assumed of the requests before.

Main results:

* `Cautious.run` — an operation that looks before it writes, on a store that shows the forest;
* `undisturbed_run` — every request after any number of turns, in both stores.
-/

namespace Outline

variable {α σ : Type}

/-- How a request went that nobody disturbed: its ending, and the calls that it made. -/
structure Undisturbed (ending : Option (Except ServiceError α)) (visits : List (Visit σ)) :
    Prop where
  /-- A call that writes is accepted, or refused for a circle or an overflow of keys. -/
  taken : ∀ v ∈ visits, v.call.isRead = false →
    ∃ outcome, v.outcome = some outcome ∧ ∀ e, outcome = .error e → e.Expected
  /-- It is the last one that is made. -/
  last : ∀ earlier v later, visits = earlier ++ v :: later → v.call.isRead = false → later = []
  /-- There is an ending, and it is no conflict. -/
  calm : ∃ outcome, ending = some outcome ∧ Calm outcome

namespace Undisturbed

variable {ending : Option (Except ServiceError α)} {visits : List (Visit σ)} {v : Visit σ}
  {outcome : Except ServiceError α}

theorem nil (hcalm : Calm outcome) : Undisturbed (σ := σ) (some outcome) [] where
  taken v hv := by cases hv
  last earlier v later h := by simp at h
  calm := ⟨outcome, rfl, hcalm⟩

/-- A reading call may go before. -/
theorem cons (h : Undisturbed ending visits) (hv : v.call.isRead = true) :
    Undisturbed ending (v :: visits) where
  taken u hu hwrite := by
    rcases List.mem_cons.1 hu with rfl | hu
    · rw [hv] at hwrite
      cases hwrite
    · exact h.taken u hu hwrite
  last earlier u later hsplit hwrite := by
    cases earlier with
    | nil =>
      obtain ⟨rfl, -⟩ := List.cons.inj hsplit
      rw [hv] at hwrite
      cases hwrite
    | cons x earlier => exact h.last earlier u later (List.cons.inj hsplit).2 hwrite
  calm := h.calm

/-- A call that writes ends the request. -/
theorem single {served : v.call.Outcome} (hserved : v.outcome = some served)
    (hexpected : ∀ e, served = .error e → e.Expected) (hcalm : Calm outcome) :
    Undisturbed (some outcome) [v] where
  taken u hu _ := by
    obtain rfl := List.mem_singleton.1 hu
    exact ⟨served, hserved, hexpected⟩
  last earlier u later hsplit _ := later_of_single hsplit
  calm := ⟨outcome, rfl, hcalm⟩

end Undisturbed

section

open Watched

variable {π τ : Type} {f : Forest π τ} {store : Store σ} {clock : Nat → Timestamp}

/-- Without mishaps a program goes on with what the store makes of its call. -/
theorem Watched.run_ask_alone {c : StoreCall} (next : c.Outcome → Program α) (w : Watched σ) :
    (Program.ask c next).run (server store clock fun _ => .none) w =
      (next (store.step c (clock w.visits.length) w.state).1).run
        (server store clock fun _ => .none) (w.after (w.visit store clock (fun _ => .none) c)) :=
  rfl

/-- What looks before it writes is undisturbed on a store that shows the forest at all times. -/
theorem Cautious.run {p : Program (Except ServiceError α)} (hp : Cautious f p) (w : Watched σ)
    (hstore : ∀ i, Honours store (clock i) w.state f) :
    ∃ made, (p.run (server store clock fun _ => .none) w).2.visits = w.visits ++ made ∧
      Undisturbed (p.run (server store clock fun _ => .none) w).1 made := by
  induction hp generalizing w with
  | done hcalm => exact ⟨[], (List.append_nil _).symm, .nil hcalm⟩
  | @read c next hc _ ih =>
    have hnow := hstore w.visits.length
    have hkept : (w.after (w.visit store clock (fun _ => .none) c)).state = w.state :=
      hnow.kept c hc
    -- the store shows the same forest to the rest of the program
    obtain ⟨made, hvisits, hmade⟩ := ih _ (hnow.tells c hc)
      (w.after (w.visit store clock (fun _ => .none) c)) (by rw [hkept]; exact hstore)
    refine ⟨w.visit store clock (fun _ => .none) c :: made, ?_, ?_⟩
    · rw [run_ask_alone, hvisits, Watched.after, List.append_assoc, List.singleton_append]
    · rw [run_ask_alone]
      exact hmade.cons hc
  | @write c next hc hnext =>
    have hexpected := (hstore w.visits.length).takes c hc
    obtain ⟨x, hx, hcalm⟩ := hnext _ fun e he => (hexpected e he).noConflict
    refine ⟨[w.visit store clock (fun _ => .none) c], ?_, ?_⟩
    · rw [run_ask_alone, hx]
      rfl
    · rw [run_ask_alone, hx]
      exact .single rfl hexpected hcalm

end

/-- A request that is performed in a state by a service that is alone with the store. -/
def Alone (store : Store σ) (config : Config) (clock : Nat → Timestamp) (now : Timestamp)
    (fresh : Uuid) (request : Request) (s : σ) : Prop :=
  let (ending, w) := Service.perform config (Watched.server store clock fun _ => .none) now fresh
    request (.start s)
  Undisturbed ending w.visits

theorem alone_of_honours {π τ : Type} {f : Forest π τ} {store : Store σ} {clock : Nat → Timestamp}
    {fresh : Uuid} {request : Request} {s : σ} (config : Config) (now : Timestamp)
    (hfresh : fresh ≠ .nil) (hnew : ∀ id, request.newId? fresh = some id → f id = none)
    (hstore : ∀ i, Honours store (clock i) s f) :
    Alone store config clock now fresh request s := by
  obtain ⟨made, hvisits, hmade⟩ :=
    (request.cautious config now hfresh hnew).run (.start s) hstore
  unfold Alone Service.perform
  generalize (request.operation config now fresh).run.run
    (Watched.server store clock fun _ => .none) (.start s) = result at hvisits hmade
  obtain ⟨ending, w⟩ := result
  obtain rfl : w.visits = made := hvisits
  -- there is an ending, so no deadline is met
  obtain ⟨outcome, rfl, -⟩ := hmade.calm
  exact hmade

/-- In every state that requests lead to, made one at a time, any request is performed without a
conflict and without a second attempt. -/
theorem undisturbed_run (gap : Gap) (config : Config) (turns : List Turn) (clock : Nat → Timestamp)
    (now : Timestamp) {fresh : Uuid} (hfresh : fresh ≠ .nil) (request : Request) :
    (let s := afterTurns (Turn.onShelf config) turns (.empty gap);
      (∀ id, request.newId? fresh = some id → s.forest id = none) →
        Alone Shelf.store config clock now fresh request s) ∧
    (let db := afterTurns (Turn.onTable config) turns (.empty gap);
      (∀ id, request.newId? fresh = some id → db.rows.forest id = none) →
      (∀ t ∈ turns, t.Storable) → db.rows.length < 2 ^ 31 → (∀ i, (clock i).HasPlainYear) →
        Alone Database.store config clock now fresh request db) := by
  constructor
  · intro s hnew
    have hs : s.Orderly := (Shelf.orderly_empty gap).turns config turns
    refine alone_of_honours config now hfresh hnew fun i => ?_
    exact Shelf.honours hs.sound hs.proper (clock i)
  · intro db hnew hturns hroom hclock
    have hdb : db.Orderly := (Database.orderly_empty gap).turns config hturns
    refine alone_of_honours config now hfresh hnew fun i => ?_
    exact Database.honours hdb.sound hdb.proper hdb.readable hroom (hclock i)

namespace Sample

/-- A turn that brings no properties but the empty object can be stored. -/
theorem storable_turn {request : Request}
    (hempty : ∀ v, request.properties? = some v → v = Json.emptyObject) (fresh : UInt8) :
    (turn request fresh).Storable := by
  have hyear : time.HasPlainYear := by decide
  refine ⟨fun v hv => ?_, hyear, hyear⟩
  rw [hempty v hv]
  exact .obj List.Pairwise.nil (by simp)

theorem storable_turns : ∀ t ∈ turns, t.Storable := by
  have hcreate : ∀ (draft : Draft) (fresh : UInt8), draft.properties = Json.emptyObject →
      (turn (.create .page draft) fresh).Storable := by
    intro draft fresh hdraft
    refine storable_turn (fun v hv => ?_) fresh
    cases hv
    exact hdraft
  intro t ht
  simp only [turns, List.mem_cons, List.not_mem_nil, or_false] at ht
  rcases ht with rfl | rfl | rfl | rfl
  · exact hcreate _ 2 rfl
  · exact hcreate _ 3 rfl
  · exact hcreate _ 4 rfl
  · exact storable_turn (fun v hv => by cases hv) 5

/-- One more page, at the end of the roots. -/
def another : Request :=
  .create .page (.page (uuid 1))

end Sample

/-- The creation of one more page after the turns goes undisturbed. -/
theorem undisturbed_run_another :
    Alone Shelf.store .standard (fun _ => Sample.time) Sample.time (Sample.uuid 6) Sample.another
        (afterTurns (Turn.onShelf .standard) Sample.turns (.empty .standard)) ∧
      Alone Database.store .standard (fun _ => Sample.time) Sample.time (Sample.uuid 6)
        Sample.another (afterTurns (Turn.onTable .standard) Sample.turns (.empty .standard)) := by
  obtain ⟨hshelf, htable⟩ := undisturbed_run .standard .standard Sample.turns (fun _ => Sample.time)
    Sample.time (show Sample.uuid 6 ≠ .nil by decide) Sample.another
  refine ⟨hshelf fun id hid => ?_, htable (fun id hid => ?_) Sample.storable_turns
    (by decide +kernel) fun _ => by decide⟩
  · cases hid
    exact Option.isNone_iff_eq_none.1 (by decide +kernel)
  · cases hid
    exact Option.isNone_iff_eq_none.1 (by decide +kernel)

end Outline
