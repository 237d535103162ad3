import Outline.Proofs.Indexed.Runs
import Outline.Proofs.Service.Reading
import Outline.Proofs.Table.Runs
import Outline.Service.Watched

/-!
# An operation takes effect as a whole or not at all

An operation reads first and writes last: once a call that writes is answered, the operation ends
with an answer. So whatever befalls its calls, only its last call can have changed the store, and if
it has, then the operation does not fail.

Main results:

* `Request.writesLast` — every operation is such a program;
* `WritesLast.run` — what such a program leaves behind, whatever befalls its calls;
* `allOrNothing` — the same of a request and its ending, for both stores.
-/

namespace Outline

variable {α β σ : Type}

/-! ## Programs that write last -/

/-- Whoever has written is done and has an answer. -/
inductive WritesLast : Program (Except ServiceError α) → Prop
  | done (outcome : Except ServiceError α) : WritesLast (.done outcome)
  | read {c : StoreCall} {next : c.Outcome → Program (Except ServiceError α)} : c.isRead = true →
      (∀ outcome, WritesLast (next outcome)) → WritesLast (.ask c next)
  | write {c : StoreCall} {next : c.Outcome → Program (Except ServiceError α)} :
      (∀ answer, ∃ a, next (.ok answer) = .done (.ok a)) →
      (∀ e, WritesLast (next (.error e))) → WritesLast (.ask c next)

/-- Reading may go before. -/
theorem WritesLast.after {p q : Program (Except ServiceError α)} (hq : WritesLast q)
    (h : ReadsBefore q p) : WritesLast p := by
  induction h with
  | done outcome => exact .done outcome
  | reached => exact hq
  | read hc _ ih => exact .read hc ih

/-- What ends with an answer may be followed up after an error only. -/
theorem WritesLast.resume {p : Program (Except ServiceError α)}
    {f : Except ServiceError α → Program (Except ServiceError β)} (hp : WritesLast p)
    (hanswer : ∀ a, ∃ b, f (.ok a) = .done (.ok b)) (herror : ∀ e, WritesLast (f (.error e))) :
    WritesLast (p.bind f) := by
  induction hp with
  | done outcome =>
    cases outcome with
    | ok a =>
      obtain ⟨b, hb⟩ := hanswer a
      show WritesLast (f (.ok a))
      rw [hb]
      exact .done _
    | error e => exact herror e
  | read hc _ ih => exact .read hc ih
  | write hnext _ ih =>
    refine .write (fun answer => ?_) ih
    obtain ⟨a, ha⟩ := hnext answer
    obtain ⟨b, hb⟩ := hanswer a
    exact ⟨b, by rw [ha]; exact hb⟩

namespace Operation

/-- An operation that has an answer as soon as it has written. -/
def EndsWriting (p : Operation α) : Prop := WritesLast p.run

theorem ReadsOnly.endsWriting {p : Operation α} (hp : ReadsOnly p) : EndsWriting p := by
  unfold ReadsOnly at hp
  unfold EndsWriting
  generalize p.run = q at hp
  induction hp with
  | done outcome => exact .done outcome
  | ask hc _ ih => exact .read hc ih

theorem endsWriting_ask (operation : String) (c : StoreCall) : EndsWriting (ask operation c) :=
  .write (fun answer => ⟨answer, rfl⟩) fun _ => .done _

theorem EndsWriting.map {p : Operation α} (f : α → β) (hp : EndsWriting p) :
    EndsWriting (f <$> p) :=
  WritesLast.resume hp (fun a => ⟨f a, rfl⟩) fun e => .done (.error e)

/-- A new attempt is made only after one that has failed. -/
theorem EndsWriting.retrying {p : Operation α} (hp : EndsWriting p) (retries : Nat) :
    EndsWriting (Operation.retrying retries p) := by
  induction retries with
  | zero => exact hp
  | succ retries ih =>
    refine WritesLast.resume hp (fun a => ⟨a, rfl⟩) fun e => ?_
    show WritesLast (if e.isConflict then _ else _)
    by_cases h : e.isConflict
    · rw [if_pos h]
      exact ih
    · rw [if_neg h]
      exact .done _

/-- A write that is made once, or again after conflicts, and the reading before it. -/
theorem ReadsBefore.endsWriting {p q : Operation α} (h : ReadsBefore q p) (hq : EndsWriting q) :
    EndsWriting p :=
  WritesLast.after hq h

theorem endsWriting_move (config : Config) (kind : Kind) (id : Uuid) (parent : Option Uuid)
    (sort : Option SortKey) : EndsWriting (move config kind id parent sort) := by
  refine (readsBefore_move config kind id parent sort).endsWriting ?_
  cases sort with
  | none | some sort => exact (endsWriting_ask _ _).retrying _

end Operation

open Operation

/-- Every operation has an answer as soon as it has written. -/
theorem Request.writesLast (config : Config) (now : Timestamp) (fresh : Uuid) (request : Request) :
    WritesLast (request.operation config now fresh).run := by
  cases request with
  | create kind draft =>
    exact ((readsBefore_create config kind draft now fresh).endsWriting
      ((endsWriting_ask _ _).retrying _)).map _
  | delete kind space id =>
    exact ((readsBefore_delete kind space id).endsWriting (endsWriting_ask _ _)).map _
  | get kind id => exact (readsOnly_get kind id).endsWriting.map _
  | update kind id patch =>
    exact ((readsBefore_update kind id patch).endsWriting (endsWriting_ask _ _)).map _
  | children kind id archived => exact (readsOnly_children kind id archived).endsWriting.map _
  | roots space => exact (readsOnly_roots space).endsWriting.map _
  | move kind id parent sort => exact (endsWriting_move config kind id parent sort).map _
  | moveBlock id parent sort =>
    exact ((readsBefore_moveBlock .reached).endsWriting
      (endsWriting_move config .block id (some parent) sort)).map _
  | reorder kind id sort =>
    exact ((readsBefore_reorder config kind id sort).endsWriting
      ((endsWriting_ask _ _).retrying _)).map _
  | moveBeside kind id anchor side =>
    exact ((readsBefore_moveBeside config kind id anchor side).endsWriting
      ((endsWriting_ask _ _).retrying _)).map _
  | branch kind id => exact (readsOnly_branch kind id).endsWriting.map _
  | renumber group => exact ((readsBefore_renumber group).endsWriting (endsWriting_ask _ _)).map _

/-! ## Runs -/

/-- A store that reading calls leave as it is. -/
def Store.KeptByReading (store : Store σ) : Prop :=
  ∀ (c : StoreCall) (now : Timestamp) (s : σ), c.isRead = true → (store.step c now s).2 = s

theorem Shelf.keptByReading : Shelf.store.KeptByReading := by
  intro c now s hc
  refine Store.step_keeps (P := (· = s)) rfl fun answer s' hserve => ?_
  cases c with
  | get | list | nextSort => exact of_reading hserve
  | _ => cases hc

theorem Database.keptByReading : Database.store.KeptByReading := by
  intro c now db hc
  refine Store.step_keeps (P := (· = db)) rfl fun answer db' hserve => ?_
  cases c with
  | get | list | nextSort => exact of_reading hserve
  | _ => cases hc

namespace Watched

variable {store : Store σ} {clock : Nat → Timestamp} {mishaps : Nat → Mishap} {c : StoreCall}
  {w : Watched σ}

theorem wrote_visit {outcome : Option c.Outcome}
    (h : (w.result store clock mishaps c).1 = outcome) :
    (w.visit store clock mishaps c).wrote = (!c.isRead && outcome.any (·.isOk)) := by
  subst h
  rfl

/-- A visit that has not written has no effect. -/
theorem visit_after (hstore : store.KeptByReading)
    (h : (w.visit store clock mishaps c).wrote = false) :
    (w.visit store clock mishaps c).after = w.state := by
  rw [wrote_visit rfl] at h
  show (w.result store clock mishaps c).2 = w.state
  unfold result at h ⊢
  cases hm : mishaps w.visits.length with
  | none =>
    simp only [hm, Option.any_some] at h ⊢
    rcases Bool.and_eq_false_iff.1 h with hc | ho
    · exact hstore c _ _ (by simpa using hc)
    · -- the store has served the call and refused it
      cases he : (store.step c (clock w.visits.length) w.state).1 with
      | ok answer =>
        rw [he] at ho
        cases ho
      | error e => exact store.step_of_error he
  | fails e => simp only [hm]
  | hangs => simp only [hm]

theorem result_eq_none_iff :
    (w.result store clock mishaps c).1 = none ↔
      (w.visit store clock mishaps c).mishap = .hangs := by
  show _ ↔ mishaps w.visits.length = .hangs
  unfold result
  cases hm : mishaps w.visits.length <;> simp [hm]

theorem mishap_ne_hangs {outcome : c.Outcome}
    (h : (w.result store clock mishaps c).1 = some outcome) :
    (w.visit store clock mishaps c).mishap ≠ .hangs := by
  intro hhangs
  rw [result_eq_none_iff.2 hhangs] at h
  cases h

end Watched

/-- Nothing comes after a member of a list that has only one. -/
theorem later_of_single {a b : α} {earlier later : List α} (h : [a] = earlier ++ b :: later) :
    later = [] := by
  have hlen := congrArg List.length h
  simp only [List.length_append, List.length_cons, List.length_nil] at hlen
  exact List.length_eq_zero_iff.1 (by omega)

/-- A run between two states that changes the state at its end only, if at all. -/
structure WroteLast (s : σ) (ending : Option (Except ServiceError α)) (made : List (Visit σ))
    (s' : σ) : Prop where
  linked : Visit.Linked s made s'
  /-- What has not written has changed nothing. -/
  wrote : ∀ v ∈ made, v.after ≠ v.before → v.wrote = true
  /-- What has written is the last visit. -/
  last : ∀ earlier v later, made = earlier ++ v :: later → v.wrote = true → later = []
  /-- And then there is an answer. -/
  answered : ∀ v ∈ made, v.wrote = true → ∃ a, ending = some (.ok a)
  endless : ending = none ↔ ∃ v ∈ made, v.mishap = .hangs

namespace WroteLast

variable {s s' : σ} {ending : Option (Except ServiceError α)} {made : List (Visit σ)} {v : Visit σ}

theorem nil (outcome : Except ServiceError α) : WroteLast s (some outcome) [] s where
  linked := rfl
  wrote v hv := by cases hv
  last earlier v later h := by simp at h
  answered v hv := by cases hv
  endless := by simp

/-- A visit that has not written may go before. -/
theorem cons (h : WroteLast s ending made s') (hbefore : v.before = s) (hafter : v.after = s)
    (hwrote : v.wrote = false) (hmishap : v.mishap ≠ .hangs) :
    WroteLast s ending (v :: made) s' where
  linked := ⟨hbefore, hafter ▸ h.linked⟩
  wrote u hu := by
    rcases List.mem_cons.1 hu with rfl | hu
    · exact fun hne => absurd (hafter.trans hbefore.symm) hne
    · exact h.wrote u hu
  last earlier u later hsplit hu := by
    cases earlier with
    | nil =>
      obtain ⟨rfl, -⟩ := List.cons.inj hsplit
      rw [hwrote] at hu
      cases hu
    | cons x earlier => exact h.last earlier u later (List.cons.inj hsplit).2 hu
  answered u hu huwrote := by
    rcases List.mem_cons.1 hu with rfl | hu
    · rw [hwrote] at huwrote
      cases huwrote
    · exact h.answered u hu huwrote
  endless := by simp [h.endless, hmishap]

/-- A visit that has written ends the run with an answer. -/
theorem answer (a : α) (hbefore : v.before = s) (hwrote : v.wrote = true)
    (hmishap : v.mishap ≠ .hangs) : WroteLast s (some (.ok a)) [v] v.after where
  linked := ⟨hbefore, rfl⟩
  wrote u hu _ := List.mem_singleton.1 hu ▸ hwrote
  last earlier u later hsplit _ := later_of_single hsplit
  answered _ _ _ := ⟨a, rfl⟩
  endless := by simp [hmishap]

/-- A visit that never returns ends the run without one. -/
theorem hung (hbefore : v.before = s) (hafter : v.after = s) (hwrote : v.wrote = false)
    (hmishap : v.mishap = .hangs) :
    WroteLast s (none : Option (Except ServiceError α)) [v] s where
  linked := ⟨hbefore, hafter⟩
  wrote u hu hne := by
    obtain rfl := List.mem_singleton.1 hu
    exact absurd (hafter.trans hbefore.symm) hne
  last earlier u later hsplit _ := later_of_single hsplit
  answered u hu huwrote := by
    rw [List.mem_singleton.1 hu, hwrote] at huwrote
    cases huwrote
  endless := by simp [hmishap]

/-- Without an answer the run has changed nothing. -/
theorem eq_of_unanswered (h : WroteLast s ending made s') (hending : ∀ a, ending ≠ some (.ok a)) :
    s' = s := by
  have hkept : ∀ v ∈ made, v.after = v.before := by
    intro v hv
    by_contra hne
    obtain ⟨a, ha⟩ := h.answered v hv (h.wrote v hv hne)
    exact hending a ha
  have hlinked := h.linked
  clear h
  induction made generalizing s with
  | nil => exact hlinked.symm
  | cons v rest ih =>
    obtain ⟨rfl, hrest⟩ := hlinked
    rw [hkept v (by simp)] at hrest
    exact ih (fun u hu => hkept u (by simp [hu])) hrest

end WroteLast

/-- A run from one watched state to another, with its ending, that changes the store at its end
only. -/
def EndsLast (w : Watched σ) (result : Option (Except ServiceError α) × Watched σ) : Prop :=
  ∃ made, result.2.visits = w.visits ++ made ∧ WroteLast w.state result.1 made result.2.state

theorem EndsLast.visit {w : Watched σ} {v : Visit σ}
    {result : Option (Except ServiceError α) × Watched σ} (h : EndsLast (w.after v) result)
    (hbefore : v.before = w.state) (hafter : v.after = w.state) (hwrote : v.wrote = false)
    (hmishap : v.mishap ≠ .hangs) : EndsLast w result := by
  obtain ⟨made, hvisits, hmade⟩ := h
  refine ⟨v :: made, ?_, ?_⟩
  · rw [hvisits, Watched.after, List.append_assoc, List.singleton_append]
  · have hmade : WroteLast v.after result.1 made result.2.state := hmade
    rw [hafter] at hmade
    exact hmade.cons hbefore hafter hwrote hmishap

section

open Watched

variable {store : Store σ} {clock : Nat → Timestamp} {mishaps : Nat → Mishap} {c : StoreCall}
  {w : Watched σ}

/-- A call that returns and has not written changes nothing, so the rest of the run counts. -/
theorem EndsLast.returned (hstore : store.KeptByReading) {outcome : c.Outcome}
    (ho : (w.result store clock mishaps c).1 = some outcome)
    (hwrote : (w.visit store clock mishaps c).wrote = false)
    {result : Option (Except ServiceError α) × Watched σ}
    (h : EndsLast (w.after (w.visit store clock mishaps c)) result) : EndsLast w result :=
  h.visit rfl (visit_after hstore hwrote) hwrote (mishap_ne_hangs ho)

/-- A call that never returns ends the run, and has changed nothing. -/
theorem EndsLast.hung (hstore : store.KeptByReading)
    (ho : (w.result store clock mishaps c).1 = none) :
    EndsLast w ((none : Option (Except ServiceError α)),
      w.after (w.visit store clock mishaps c)) := by
  have hwrote : (w.visit store clock mishaps c).wrote = false := by
    rw [wrote_visit ho]
    exact Bool.and_false _
  have hafter := visit_after hstore hwrote
  refine ⟨[w.visit store clock mishaps c], rfl, ?_⟩
  show WroteLast w.state none _ (w.visit store clock mishaps c).after
  rw [hafter]
  exact .hung rfl hafter hwrote (result_eq_none_iff.1 ho)

/-- A call that is answered may end the run with an answer, whether it has written or not. -/
theorem EndsLast.answered (hstore : store.KeptByReading) {answer : c.Answer}
    (ho : (w.result store clock mishaps c).1 = some (.ok answer)) (a : α) :
    EndsLast w (some (.ok a), w.after (w.visit store clock mishaps c)) := by
  cases hwrote : (w.visit store clock mishaps c).wrote with
  | false =>
    refine EndsLast.returned hstore ho hwrote ⟨[], ?_, .nil (.ok a)⟩
    exact (List.append_nil _).symm
  | true => exact ⟨_, rfl, .answer a rfl hwrote (mishap_ne_hangs ho)⟩

/-- Whatever befalls its calls, a program that writes last changes the store at its end only. -/
theorem WritesLast.run (hstore : store.KeptByReading) {p : Program (Except ServiceError α)}
    (hp : WritesLast p) (w : Watched σ) : EndsLast w (p.run (server store clock mishaps) w) := by
  induction hp generalizing w with
  | done outcome => exact ⟨[], by simp [Program.run], .nil outcome⟩
  | read hc _ ih =>
    rcases run_ask _ (w := w) with ⟨outcome, ho, hrun⟩ | ⟨ho, hrun⟩
    · have hwrote := wrote_visit ho
      rw [hc, Bool.not_true, Bool.false_and] at hwrote
      rw [hrun]
      exact .returned hstore ho hwrote (ih outcome _)
    · rw [hrun]
      exact .hung hstore ho
  | @write c next hnext _ ih =>
    rcases run_ask next (w := w) with ⟨outcome, ho, hrun⟩ | ⟨ho, hrun⟩
    · rw [hrun]
      cases outcome with
      | ok answer =>
        obtain ⟨a, ha⟩ := hnext answer
        rw [ha]
        exact .answered hstore ho a
      | error e =>
        -- what has failed has not written, so another attempt may follow
        have hwrote := wrote_visit ho
        rw [Option.any_some] at hwrote
        exact .returned hstore ho (hwrote.trans (Bool.and_false _)) (ih e _)
    · rw [hrun]
      exact .hung hstore ho

end

/-! ## Requests -/

/-- How a request went in a watched store: as a whole or not at all, and within its time. -/
structure AllOrNothing (config : Config) (request : Request) (s : σ)
    (ending : Option (Except ServiceError Answer)) (w : Watched σ) : Prop where
  linked : Visit.Linked s w.visits w.state
  /-- A call that changes the state is the last one. -/
  last : ∀ earlier v later, w.visits = earlier ++ v :: later → v.after ≠ v.before → later = []
  /-- Without an answer the state is the one before the request. -/
  kept : (∀ a, ending ≠ some (.ok a)) → w.state = s
  /-- A call that never returns is given up when the time is limited. -/
  cancelled : ∀ v ∈ w.visits, v.mishap = .hangs → config.timeout.isSome = true →
    ending = some (.error (.cancelled request.name))
  /-- There is an ending unless a call never returns and the time is not limited. -/
  ends : ending = none → config.timeout = none ∧ ∃ v ∈ w.visits, v.mishap = .hangs

theorem allOrNothing_perform {store : Store σ} (hstore : store.KeptByReading) (config : Config)
    (clock : Nat → Timestamp) (mishaps : Nat → Mishap) (now : Timestamp) (fresh : Uuid)
    (request : Request) (s : σ) :
    AllOrNothing config request s
      (Service.perform config (Watched.server store clock mishaps) now fresh request (.start s)).1
      (Service.perform config (Watched.server store clock mishaps) now fresh request
        (.start s)).2 := by
  have hrun : EndsLast (.start s) ((request.operation config now fresh).run.run
      (Watched.server store clock mishaps) (.start s)) :=
    (request.writesLast config now fresh).run hstore (.start s)
  obtain ⟨made, hvisits, hmade⟩ := hrun
  have hvisits : _ = made := hvisits
  unfold Service.perform
  generalize (request.operation config now fresh).run.run
    (Watched.server store clock mishaps) (.start s) = result at hvisits hmade
  obtain ⟨outcome, w⟩ := result
  obtain rfl : w.visits = made := hvisits
  have hmade : WroteLast s outcome w.visits w.state := hmade
  -- the deadline only gives an ending to a run that has none, and leaves the visits as they are
  show AllOrNothing config request s (Service.deadline config request.name outcome) w
  refine ⟨hmade.linked, ?_, ?_, ?_, ?_⟩
  · intro earlier v later hsplit hne
    have hv : v ∈ w.visits := by simp [hsplit]
    exact hmade.last earlier v later hsplit (hmade.wrote v hv hne)
  · intro hending
    refine hmade.eq_of_unanswered fun a ha => hending a ?_
    rw [ha]
    rfl
  · intro v hv hmishap htimeout
    rw [hmade.endless.2 ⟨v, hv, hmishap⟩, Service.deadline, if_pos htimeout]
  · intro hending
    cases houtcome : outcome with
    | some o =>
      rw [houtcome] at hending
      cases hending
    | none =>
      refine ⟨?_, hmade.endless.1 houtcome⟩
      rw [houtcome, Service.deadline] at hending
      cases ht : config.timeout with
      | none => rfl
      | some t => simp [ht] at hending

/-- In both stores and in any state, a request takes effect as a whole or not at all, whichever of
its calls fail or never return. -/
theorem allOrNothing (config : Config) (clock : Nat → Timestamp) (mishaps : Nat → Mishap)
    (now : Timestamp) (fresh : Uuid) (request : Request) :
    (∀ s : Shelf,
      let (ending, w) := Service.perform config (Watched.server Shelf.store clock mishaps) now fresh
        request (.start s)
      AllOrNothing config request s ending w) ∧
    ∀ db : Database,
      let (ending, w) := Service.perform config (Watched.server Database.store clock mishaps) now
        fresh request (.start db)
      AllOrNothing config request db ending w :=
  ⟨fun s => allOrNothing_perform Shelf.keptByReading config clock mishaps now fresh request s,
    fun db => allOrNothing_perform Database.keptByReading config clock mishaps now fresh request db⟩

end Outline
