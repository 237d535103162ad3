import Outline.Proofs.Service.Checks
import Outline.Service.Faults

/-!
# Writes that are made again after a conflict

A request that chooses a sort key makes its write again when the store reports that the key is
taken, as often as the configuration allows. What decides is the sequence of outcomes that the store
would give to one attempt after another: the first that is no conflict ends the request, if there is
one among the attempts that are allowed, and otherwise the last attempt does. Renumbering a group
writes keys too, but its write is made once, so that the first conflict is its end.

Nothing is assumed about who answers the calls, so that any sequence of outcomes can occur. All that
is asked of a request is that it passes its checks, which are about its arguments and the nodes that
are found for them.

Main results:

* `Operation.retrying_run` — what a write comes to that is made again after conflicts;
* `retries_by_outcomes` — the requests that make their write again, for every sequence of outcomes;
* `renumber_attempted_once` — renumbering is attempted once, whatever the configuration allows.
-/

namespace Outline

variable {α β σ : Type}

/-! ## The calls of a run -/

namespace Program

/-- The calls that a run makes, in their order. -/
def calls (server : Server σ) : Program α → σ → List StoreCall
  | .done _, _ => []
  | .ask c next, s =>
    c :: match server.reply c s with
      | (some outcome, s) => (next outcome).calls server s
      | (none, _) => []

theorem calls_bind (server : Server σ) (p : Program α) (f : α → Program β) (s : σ) :
    (p.bind f).calls server s =
      p.calls server s ++ match p.run server s with
        | (some a, s) => (f a).calls server s
        | (none, _) => [] := by
  induction p generalizing s with
  | done a => rfl
  | ask c next ih =>
    rw [bind, calls, calls, run]
    split <;> simp [*]

end Program

/-- Once a run is through with reading, it goes on as what is left then. -/
theorem ReadsBefore.run {server : Server σ} {c c' : StoreCall} {next : c.Outcome → Program α}
    (hc : c.isRead = false) {p : Program α} (h : ReadsBefore (.ask c next) p) {s s' : σ}
    {reads : List StoreCall} (hwrite : p.firstWrite? server s = some (reads, c', s')) :
    c' = c ∧ p.run server s = (Program.ask c next).run server s' ∧
      p.calls server s = reads ++ (Program.ask c next).calls server s' := by
  induction h generalizing s reads with
  | done a => cases hwrite
  | reached =>
    rw [Program.firstWrite?, hc] at hwrite
    cases hwrite
    exact ⟨rfl, rfl, rfl⟩
  | @read d next hd _ ih =>
    rw [Program.firstWrite?, if_pos hd] at hwrite
    rw [Program.run, Program.calls]
    rcases hreply : server.reply d s with ⟨_ | outcome, t⟩
    · rw [hreply] at hwrite
      cases hwrite
    · rw [hreply] at hwrite
      obtain ⟨⟨earlier, found⟩, hfound, heq⟩ := Option.map_eq_some_iff.1 hwrite
      cases heq
      obtain ⟨rfl, hrun, hcalls⟩ := ih outcome hfound
      exact ⟨rfl, hrun, congrArg (d :: ·) hcalls⟩

/-! ## One attempt after another -/

namespace Server

variable (server : Server σ) (c : StoreCall)

/-- The state after the first `n` attempts to make a call. -/
def after (s : σ) : Nat → σ
  | 0 => s
  | n + 1 => (server.reply c (after s n)).2

/-- What comes of attempt `i`, counted from zero; `none` if it never returns. -/
def outcome (s : σ) (i : Nat) : Option c.Outcome :=
  (server.reply c (server.after c s i)).1

/-- Attempt `i` finds its key taken. -/
def Conflicts (s : σ) (i : Nat) : Prop :=
  ∃ group key, server.outcome c s i = some (.error (.duplicateSort group key))

theorem after_succ (s : σ) (n : Nat) :
    server.after c s (n + 1) = server.after c (server.reply c s).2 n := by
  induction n with
  | zero => rfl
  | succ n ih => exact congrArg (fun t => (server.reply c t).2) ih

theorem outcome_succ (s : σ) (i : Nat) :
    server.outcome c s (i + 1) = server.outcome c (server.reply c s).2 i := by
  rw [outcome, after_succ, outcome]

theorem conflicts_succ (s : σ) (i : Nat) :
    server.Conflicts c s (i + 1) ↔ server.Conflicts c (server.reply c s).2 i := by
  rw [Conflicts, outcome_succ, Conflicts]

/-- Attempt `m` is the last one when there may be `retries` more than one: all before it conflict,
and it does not, unless no more are allowed. -/
structure EndsAt (s : σ) (retries m : Nat) : Prop where
  allowed : m ≤ retries
  before  : ∀ i < m, server.Conflicts c s i
  ends    : m < retries → ¬ server.Conflicts c s m

variable {server : Server σ} {c : StoreCall} {s : σ} {retries m : Nat}

/-- The first attempt is the last one if no other is allowed or if it meets no conflict. -/
theorem endsAt_zero (h : retries = 0 ∨ ¬ server.Conflicts c s 0) : server.EndsAt c s retries 0 where
  allowed := Nat.zero_le _
  before i hi := absurd hi (Nat.not_lt_zero i)
  ends hlt := h.resolve_left (Nat.ne_of_gt hlt)

/-- After a conflict everything goes on as if one attempt less were allowed. -/
theorem EndsAt.succ (hconflict : server.Conflicts c s 0)
    (h : server.EndsAt c (server.reply c s).2 retries m) :
    server.EndsAt c s (retries + 1) (m + 1) where
  allowed := Nat.succ_le_succ h.allowed
  before i hi := by
    cases i with
    | zero => exact hconflict
    | succ i => exact (server.conflicts_succ c s i).2 (h.before i (Nat.lt_of_succ_lt_succ hi))
  ends hlt := by
    rw [conflicts_succ]
    exact h.ends (Nat.lt_of_succ_lt_succ hlt)

/-- The first outcome that is no conflict is the last that is asked for, if it is allowed. -/
theorem EndsAt.eq_min (h : server.EndsAt c s retries m) {k : Nat}
    (hbefore : ∀ i < k, server.Conflicts c s i) (hk : ¬ server.Conflicts c s k) :
    m = min k retries := by
  have hle : m ≤ k := by
    by_contra hlt
    exact hk (h.before k (by omega))
  rcases Nat.lt_or_ge m retries with hm | hm
  · have hge : k ≤ m := by
      by_contra hlt
      exact h.ends hm (hbefore m (by omega))
    omega
  · have := h.allowed
    omega

/-- If every attempt meets a conflict, as many are made as are allowed. -/
theorem EndsAt.eq_of_conflicts (h : server.EndsAt c s retries m)
    (hall : ∀ i ≤ retries, server.Conflicts c s i) : m = retries := by
  have := h.allowed
  by_contra hne
  exact h.ends (by omega) (hall m h.allowed)

end Server

namespace Operation

open Server

variable {server : Server σ} {s : σ}

/-- After an attempt there is another one if the key was taken, and an end if not. -/
theorem retrying_succ_run (operation : String) (c : StoreCall) (retries : Nat) :
    ∃ next : c.Outcome → Program (Except ServiceError c.Answer),
      (retrying (retries + 1) (ask operation c)).run = .ask c next ∧
      (∀ group key, next (.error (.duplicateSort group key)) =
        (retrying retries (ask operation c)).run) ∧
      ∀ outcome, (∀ group key, outcome ≠ .error (.duplicateSort group key)) →
        next outcome = .done (outcome.mapError (.ofStore operation)) := by
  refine ⟨_, rfl, fun _ _ => rfl, fun outcome hne => ?_⟩
  cases outcome with
  | ok answer => rfl
  | error e =>
    have hcalm : (ServiceError.ofStore operation e).isConflict = false := by
      refine Bool.eq_false_iff.2 fun hconflict => ?_
      obtain ⟨group, key, rfl⟩ := (ServiceError.isConflict_ofStore operation e).1 hconflict
      exact hne group key rfl
    show (if (ServiceError.ofStore operation e).isConflict then _ else _) = _
    rw [hcalm]
    rfl

/-- What an operation comes to that makes a call as its attempt `m` and ends with the outcome. -/
def comesTo (server : Server σ) (operation : String) (c : StoreCall) (s : σ) (m : Nat) :
    Option (Except ServiceError c.Answer) × σ :=
  ((server.outcome c s m).map (·.mapError (.ofStore operation)), server.after c s (m + 1))

theorem comesTo_zero (operation : String) (c : StoreCall) :
    comesTo server operation c s 0 =
      ((server.reply c s).1.map (·.mapError (.ofStore operation)), (server.reply c s).2) :=
  rfl

theorem comesTo_succ (operation : String) (c : StoreCall) (m : Nat) :
    comesTo server operation c s (m + 1) = comesTo server operation c (server.reply c s).2 m := by
  rw [comesTo, outcome_succ, after_succ, comesTo]

/-- A write that is made again after conflicts is attempted until an outcome is no conflict, and at
most once more than it may be made again. What it comes to is what the last attempt comes to. -/
theorem exec_retrying (server : Server σ) (operation : String) (c : StoreCall) (retries : Nat)
    (s : σ) :
    ∃ m, server.EndsAt c s retries m ∧
      exec (retrying retries (ask operation c)) server s = comesTo server operation c s m ∧
      (retrying retries (ask operation c)).run.calls server s = List.replicate (m + 1) c := by
  -- one attempt fewer may be made from the state that the first attempt leaves
  induction retries generalizing s with
  | zero =>
    refine ⟨0, endsAt_zero (.inl rfl), exec_ask_reply operation c, ?_⟩
    show Program.calls server (.ask c _) s = _
    rw [Program.calls]
    rcases server.reply c s with ⟨_ | outcome, s'⟩ <;> rfl
  | succ retries ih =>
    obtain ⟨next, hrun, hconflict, hend⟩ := retrying_succ_run operation c retries
    rw [exec, hrun, Program.run, Program.calls]
    by_cases h : server.Conflicts c s 0
    · obtain ⟨group, key, hkey⟩ := h
      obtain ⟨m, hm, hexec, hcalls⟩ := ih (server.reply c s).2
      refine ⟨m + 1, hm.succ ⟨group, key, hkey⟩, ?_⟩
      have hreply : server.reply c s =
          (some (.error (.duplicateSort group key)), (server.reply c s).2) := Prod.ext hkey rfl
      rw [hreply]
      dsimp only
      rw [hconflict, comesTo_succ, ← hexec, hcalls]
      exact ⟨rfl, rfl⟩
    · refine ⟨0, endsAt_zero (.inr h), ?_⟩
      rw [comesTo_zero]
      rcases hreply : server.reply c s with ⟨_ | outcome, s'⟩
      · exact ⟨rfl, rfl⟩
      · dsimp only
        rw [hend outcome fun group key heq => h ⟨group, key, ?_⟩]
        · exact ⟨rfl, rfl⟩
        · rw [Server.outcome, after, hreply, heq]

/-- What is done with an answer changes the answer and not the state. -/
theorem exec_map (server : Server σ) (f : α → β) (p : Operation α) (s : σ) :
    exec (f <$> p) server s = ((exec p server s).1.map (·.map f), (exec p server s).2) := by
  refine (Program.run_bind server p.run _ s).trans ?_
  rw [exec]
  rcases p.run.run server s with ⟨_ | _ | _, _⟩ <;> rfl

/-- Nor does it change the calls. -/
theorem calls_map (f : α → β) (p : Operation α) :
    (f <$> p).run.calls server s = p.run.calls server s := by
  refine (Program.calls_bind server p.run _ s).trans ?_
  rcases p.run.run server s with ⟨_ | _ | _, _⟩ <;> exact List.append_nil _

/-- However often it may be made again, the call comes first. -/
theorem exists_ask_retrying {c : StoreCall} (f : c.Answer → α) (retries : Nat)
    (operation : String) :
    ∃ next, (f <$> retrying retries (ask operation c)).run = .ask c next := by
  cases retries with
  | zero | succ retries => exact ⟨_, rfl⟩

end Operation

/-! ## Requests -/

open Operation

/-- What a request answers when its last call is answered. No request ends with a key. -/
def Answer.ofCall? : (c : StoreCall) → c.Answer → Option Answer
  | .get _, n | .create _, n | .createLast _, n | .update _ _, n | .moveLast _ _, n
  | .moveAt _ _ _, n | .reorder _ _, n | .moveBeside _ _ _, n => some (.node n)
  | .list _, ns | .renumber _, ns => some (.nodes ns)
  | .delete _ _, n => some (.count n)
  | .nextSort _, _ => none

/-- What a request ends with when `outcome` comes of its last call, if anything does. -/
def Ending.ofCall (operation : String) (c : StoreCall) :
    Option c.Outcome → Ending
  | some (.ok a) => (Answer.ofCall? c a).map .ok
  | some (.error e) => some (.error (.ofStore operation e))
  | none => none

namespace Request

/-- The requests whose write is made again after a conflict. -/
def retried : Request → Bool
  | .create _ _ | .move _ _ _ _ | .moveBlock _ _ _ | .reorder _ _ _ | .moveBeside _ _ _ _ => true
  | _ => false

theorem exists_readsBefore {request : Request} (hretried : request.retried = true)
    (config : Config) (now : Timestamp) (fresh : Uuid) :
    ∃ (c : StoreCall) (f : c.Answer → Answer), request.write? now fresh = some c ∧
      c.isRead = false ∧ (∀ a, Answer.ofCall? c a = some (f a)) ∧
      Operation.ReadsBefore (f <$> retrying config.conflictRetries (ask request.name c))
        (request.operation config now fresh) := by
  cases request with
  | create kind draft =>
    exact ⟨.createLast _, .node, rfl, rfl, fun _ => rfl,
      (readsBefore_create config kind draft now fresh).map _⟩
  | move kind id parent sort =>
    cases sort with
    | none =>
      exact ⟨.moveLast _ _, .node, rfl, rfl, fun _ => rfl,
        (readsBefore_move config kind id parent none).map _⟩
    | some sort =>
      exact ⟨.moveAt _ _ _, .node, rfl, rfl, fun _ => rfl,
        (readsBefore_move config kind id parent (some sort)).map _⟩
  | moveBlock id parent sort =>
    cases sort with
    | none =>
      exact ⟨.moveLast _ _, .node, rfl, rfl, fun _ => rfl,
        (readsBefore_moveBlock (readsBefore_move config .block id (some parent) none)).map _⟩
    | some sort =>
      exact ⟨.moveAt _ _ _, .node, rfl, rfl, fun _ => rfl,
        (readsBefore_moveBlock
          (readsBefore_move config .block id (some parent) (some sort))).map _⟩
  | reorder kind id sort =>
    exact ⟨.reorder _ _, .node, rfl, rfl, fun _ => rfl,
      (readsBefore_reorder config kind id sort).map _⟩
  | moveBeside kind id anchor side =>
    exact ⟨.moveBeside _ _ _, .node, rfl, rfl, fun _ => rfl,
      (readsBefore_moveBeside config kind id anchor side).map _⟩
  | _ => cases hretried

end Request

theorem Ending.ofCall_eq {c : StoreCall} {f : c.Answer → Answer}
    (hf : ∀ a, Answer.ofCall? c a = some (f a)) (operation : String) (outcome : Option c.Outcome) :
    (outcome.map (·.mapError (.ofStore operation))).map (·.map f) = ofCall operation c outcome := by
  match outcome with
  | none => rfl
  | some (.error e) => rfl
  | some (.ok a) =>
    rw [ofCall, hf]
    rfl

/-- Only a key that is taken becomes a conflict. -/
theorem ServiceError.ofStore_eq_conflict_iff {operation : String} {e : StoreError} {group : Group}
    {key : SortKey} :
    ofStore operation e = .conflict group key ↔ e = .duplicateSort group key := by
  cases e with
  | violation v => cases v <;> simp [ofStore, ofViolation]
  | _ => simp [ofStore]

theorem Ending.ofCall_eq_conflict_iff {operation : String} {c : StoreCall}
    {outcome : Option c.Outcome} {group : Group} {key : SortKey} :
    ofCall operation c outcome = some (.error (.conflict group key)) ↔
      outcome = some (.error (.duplicateSort group key)) := by
  match outcome with
  | none => simp [ofCall]
  | some (.ok a) => simp [ofCall]
  | some (.error e) => simp [ofCall, ServiceError.ofStore_eq_conflict_iff]

/-- The deadline makes no other ending than that the operation is cancelled. -/
theorem Service.deadline_eq_some_iff {config : Config} {operation : String}
    {ending : Option (Except ServiceError α)} {result : Except ServiceError α}
    (hne : result ≠ .error (.cancelled operation)) :
    deadline config operation ending = some result ↔ ending = some result := by
  cases ending with
  | some outcome => exact Iff.rfl
  | none =>
    refine iff_of_false (fun h => ?_) (by simp)
    rw [deadline] at h
    by_cases ht : config.timeout.isSome = true
    · rw [if_pos ht] at h
      exact hne (Option.some.inj h).symm
    · rw [if_neg ht] at h
      cases h

/-- A request makes its write `c` for `attempts` times, first in the state `s` and after the calls
`reads`, and then it ends with what comes of the last attempt. How often it does so is settled by
the outcomes that attempts would have one after another, when there may be `retries` more than one.
-/
structure GoesByOutcomes (server : Server σ) (config : Config) (request : Request) (retries : Nat)
    (c : StoreCall) (s : σ) (reads calls : List StoreCall) (attempts : Nat)
    (result : Ending × σ) : Prop where
  bounds    : 0 < attempts ∧ attempts ≤ retries + 1
  calls_eq  : calls = reads ++ List.replicate attempts c
  state_eq  : result.2 = server.after c s attempts
  ending_eq : result.1 = Service.deadline config request.name
                (Ending.ofCall request.name c (server.outcome c s (attempts - 1)))
  /-- Outcome `k`, counted from zero, is the first that is no conflict. -/
  first     : ∀ k, (∀ i < k, server.Conflicts c s i) → ¬ server.Conflicts c s k →
                attempts = min (k + 1) (retries + 1)
  never     : (∀ i, server.Conflicts c s i) → attempts = retries + 1
  /-- An answer is returned if one comes after conflicts alone, as long as attempts are allowed. -/
  answered  : ∀ answer, result.1 = some (.ok answer) ↔
                ∃ k ≤ retries, (∀ i < k, server.Conflicts c s i) ∧
                  Ending.ofCall request.name c (server.outcome c s k) = some (.ok answer)
  /-- A conflict is returned if there are conflicts alone, and it is that of the last attempt. -/
  conflict  : ∀ group key, result.1 = some (.error (.conflict group key)) ↔
                (∀ i ≤ retries, server.Conflicts c s i) ∧
                  server.outcome c s retries = some (.error (.duplicateSort group key))

theorem Server.EndsAt.goesByOutcomes {server : Server σ} {config : Config} {request : Request}
    {retries : Nat} {c : StoreCall} {s : σ} {reads calls : List StoreCall} {m : Nat}
    {result : Ending × σ} (h : server.EndsAt c s retries m)
    (hcalls : calls = reads ++ List.replicate (m + 1) c)
    (hresult : result = (Service.deadline config request.name
      (Ending.ofCall request.name c (server.outcome c s m)), server.after c s (m + 1))) :
    GoesByOutcomes server config request retries c s reads calls (m + 1) result := by
  subst hresult
  refine ⟨⟨m.succ_pos, Nat.succ_le_succ h.allowed⟩, hcalls, rfl, rfl, ?_, ?_, ?_, ?_⟩
  · intro k hbefore hk
    rw [h.eq_min hbefore hk, Nat.add_min_add_right]
  · intro hall
    rw [h.eq_of_conflicts fun i _ => hall i]
  · intro answer
    refine (Service.deadline_eq_some_iff (by simp)).trans ?_
    refine ⟨fun hanswer => ⟨m, h.allowed, h.before, hanswer⟩, ?_⟩
    rintro ⟨k, hk, hbefore, hanswer⟩
    -- an attempt that is answered is no conflict, so it is the last
    have hcalm : ¬ server.Conflicts c s k := by
      rintro ⟨group, key, hkey⟩
      rw [hkey] at hanswer
      cases hanswer
    rw [h.eq_min hbefore hcalm, Nat.min_eq_left hk]
    exact hanswer
  · intro group key
    refine ((Service.deadline_eq_some_iff (by simp)).trans Ending.ofCall_eq_conflict_iff).trans ?_
    constructor
    · intro hkey
      -- a conflict is the last outcome only when no more attempts are allowed
      have hm : m = retries := by
        by_contra hne
        exact h.ends (Nat.lt_of_le_of_ne h.allowed hne) ⟨group, key, hkey⟩
      subst hm
      refine ⟨fun i hi => ?_, hkey⟩
      rcases Nat.lt_or_eq_of_le hi with hlt | rfl
      · exact h.before i hlt
      · exact ⟨group, key, hkey⟩
    · rintro ⟨hall, hkey⟩
      rw [h.eq_of_conflicts hall]
      exact hkey

/-- What is left of a request after its checks decides how it goes. -/
theorem Operation.ReadsBefore.goesByOutcomes {server : Server σ} {config : Config}
    {now : Timestamp} {fresh : Uuid} {request : Request} {retries : Nat} {c d : StoreCall}
    {f : d.Answer → Answer} (hwrites : d.isRead = false)
    (hf : ∀ a, Answer.ofCall? d a = some (f a))
    (h : Operation.ReadsBefore (f <$> retrying retries (ask request.name d))
      (request.operation config now fresh)) {s s' : σ} {reads : List StoreCall}
    (hwrite : (request.operation config now fresh).run.firstWrite? server s =
      some (reads, c, s')) :
    c = d ∧ ∃ attempts, GoesByOutcomes server config request retries c s' reads
      ((request.operation config now fresh).run.calls server s) attempts
      (Service.perform config server now fresh request s) := by
  obtain ⟨next, hnext⟩ := exists_ask_retrying f retries request.name
  rw [Operation.ReadsBefore, hnext] at h
  obtain ⟨rfl, hrun, hcalls⟩ := h.run hwrites hwrite
  obtain ⟨m, hm, hexec, hmade⟩ := exec_retrying server request.name c retries s'
  refine ⟨rfl, m + 1, hm.goesByOutcomes ?_ ?_⟩
  · rw [hcalls, ← hnext, calls_map, hmade]
  · have hend := exec_map server f (retrying retries (ask request.name c)) s'
    rw [hexec, comesTo, Ending.ofCall_eq hf] at hend
    show (Service.deadline config request.name (Program.run server _ s).1,
      (Program.run server _ s).2) = _
    rw [hrun, ← hnext]
    exact congrArg (fun r : Ending × σ => (Service.deadline config request.name r.1, r.2)) hend

/-- A request that has passed its checks makes its write until an outcome is no conflict, and at
most once more than the configuration lets it be made again. It returns what comes of the last
attempt, whatever outcomes the attempts have. -/
theorem retries_by_outcomes (server : Server σ) (config : Config) (now : Timestamp) (fresh : Uuid)
    (request : Request) (hretried : request.retried = true) {s s' : σ} {reads : List StoreCall}
    (hpasses : request.Passes server s reads s') :
    ∃ c attempts, request.write? now fresh = some c ∧
      GoesByOutcomes server config request config.conflictRetries c s' reads
        ((request.operation config now fresh).run.calls server s) attempts
        (Service.perform config server now fresh request s) := by
  obtain ⟨c, f, hc, hwrites, hf, hbefore⟩ := request.exists_readsBefore hretried config now fresh
  obtain ⟨-, attempts, hgoes⟩ :=
    hbefore.goesByOutcomes hwrites hf (Request.reaches_iff.2 ⟨hc, hpasses⟩)
  exact ⟨c, attempts, hc, hgoes⟩

/-- An answer after one conflict is the end of the second attempt. -/
theorem GoesByOutcomes.attempts_eq_two {server : Server σ} {config : Config} {request : Request}
    {retries : Nat} {c : StoreCall} {s : σ} {reads calls : List StoreCall} {attempts : Nat}
    {result : Ending × σ}
    (h : GoesByOutcomes server config request (retries + 1) c s reads calls attempts result)
    (hconflict : server.Conflicts c s 0) (hanswer : (server.outcome c s 1).any (·.isOk) = true) :
    attempts = 2 := by
  have hfirst : attempts = min (1 + 1) (retries + 1 + 1) := by
    refine h.first 1 (fun i hi => ?_) ?_
    · obtain rfl : i = 0 := by omega
      exact hconflict
    · rintro ⟨group, key, hkey⟩
      rw [hkey] at hanswer
      cases hanswer
  omega

namespace Sample

def contest : Server (Faulty Shelf) := Faulty.server (Shelf.store.server time)

/-- Three pages, each below the one before, and a block below the last of them, in a store of which
the first write finds its key taken. -/
def contested : Faulty Shelf where
  state := Shelf.store.run
    (calls ++ [(.createLast { page 5 (some (uuid 4)) with kind := .block }, time)])
    (.empty .standard)
  fault := .fail .writes 1 (.duplicateSort ⟨uuid 1, none⟩ Gap.standard.size)
  attempts := 0

/-- What is stored is found, and finding it changes nothing. -/
theorem exists_finds (id : Uuid) (kind : Kind) (parent : Option Uuid)
    (h : (contested.state.get id).map (fun n => (n.kind, n.space, n.parent)) =
      .ok (kind, uuid 1, parent)) :
    ∃ n, contest.Finds id contested n contested ∧ n.kind = kind ∧ n.space = uuid 1 ∧
      n.parent = parent := by
  obtain ⟨n, hn, hplace⟩ := map_eq_ok_iff.1 h
  obtain ⟨hkind, hspace, hparent⟩ : n.kind = kind ∧ n.space = uuid 1 ∧ n.parent = parent := by
    simpa using hplace
  have hserve : Shelf.store.serve (.get id) time contested.state = .ok (n, contested.state) :=
    congrArg (Except.map (·, contested.state)) hn
  have hstep : Shelf.store.step (.get id) time contested.state = (.ok n, contested.state) := by
    unfold Store.step
    rw [hserve]
  refine ⟨n, ?_, hkind, hspace, hparent⟩
  exact congrArg (fun r => (some r.1, { contested with state := r.2 })) hstep

/-- The request passes its checks, finds its key taken at its first attempt, and ends with the
second one, which is answered. -/
def AnsweredSecond (request : Request) : Prop :=
  ∃ reads c, request.Passes contest contested reads contested ∧
    (contest.outcome c contested 1).any (·.isOk) = true ∧
    GoesByOutcomes contest .standard request 1 c contested reads
      ((request.operation .standard time (uuid 9)).run.calls contest contested) 2
      (Service.perform .standard contest time (uuid 9) request contested)

end Sample

open Sample in
/-- Each of the requests is answered by its second attempt: a page is created, moved to the end of a
group and to a key, reordered and put beside another, and a block is moved. -/
theorem retries_by_outcomes_conflict :
    AnsweredSecond (.create .page { Draft.page (uuid 1) with parent := some (uuid 2) }) ∧
      AnsweredSecond (.move .page (uuid 4) (some (uuid 2)) none) ∧
      AnsweredSecond (.move .page (uuid 4) none (some Gap.standard.size)) ∧
      AnsweredSecond (.moveBlock (uuid 5) (uuid 3) none) ∧
      AnsweredSecond (.reorder .page (uuid 4) .zero) ∧
      AnsweredSecond (.moveBeside .page (uuid 4) (uuid 3) .before) := by
  -- the first attempt meets the fault, so that the second one decides
  have hsecond : ∀ {request : Request} {reads : List StoreCall} {c : StoreCall},
      request.retried = true → request.Passes contest contested reads contested →
      request.write? time (uuid 9) = some c → contest.Conflicts c contested 0 →
      (contest.outcome c contested 1).any (·.isOk) = true → AnsweredSecond request := by
    intro request reads c hretried hpasses hc hconflict hanswer
    obtain ⟨d, attempts, hd, hgoes⟩ := retries_by_outcomes contest .standard time (uuid 9) request
      hretried hpasses
    obtain rfl := Option.some.inj (hc.symm.trans hd)
    obtain rfl := hgoes.attempts_eq_two hconflict hanswer
    exact ⟨reads, c, hpasses, hanswer, hgoes⟩
  obtain ⟨top, htop, htopkind, htopspace, -⟩ :=
    exists_finds (uuid 2) .page none (by decide +kernel)
  obtain ⟨middle, hmiddle, hmiddlekind, hmiddlespace, hmiddleparent⟩ :=
    exists_finds (uuid 3) .page (some (uuid 2)) (by decide +kernel)
  obtain ⟨low, hlow, hlowkind, hlowspace, -⟩ :=
    exists_finds (uuid 4) .page (some (uuid 3)) (by decide +kernel)
  obtain ⟨block, hblock, hblockkind, hblockspace, -⟩ :=
    exists_finds (uuid 5) .block (some (uuid 4)) (by decide +kernel)
  have hbelow : ∀ {kind : Kind} {n p : Node}, n.kind = kind → n.space = uuid 1 → p.kind = .page →
      p.space = uuid 1 → checkParent n.kind n.space (some p) = .ok () :=
    fun _ hn hkind hspace => checkParent_eq_ok_iff.2 ⟨hspace.trans hn.symm, fun _ => hkind⟩
  have hcreate : checkParent .page (uuid 1) (some top) = .ok () :=
    checkParent_eq_ok_iff.2 ⟨htopspace, fun _ => htopkind⟩
  have habove : contest.FindsParent middle.parent contested [.get (uuid 2)] (some top)
      contested := by
    rw [hmiddleparent]
    exact .some htop
  have hroot : checkParent low.kind low.space none = .ok () := checkParent_eq_ok_iff.2 hlowkind
  refine ⟨?_, ?_, ?_, ?_, ?_, ?_⟩
  · exact hsecond rfl (.create (by decide) rfl (.some htop) hcreate rfl) rfl ⟨_, _, rfl⟩
      (by decide +kernel)
  · exact hsecond rfl (.move (by decide) (by decide) hlow hlowkind (.some htop)
      (hbelow hlowkind hlowspace htopkind htopspace)) rfl ⟨_, _, rfl⟩ (by decide +kernel)
  · exact hsecond rfl (.move (by decide) (by decide) hlow hlowkind .none hroot) rfl ⟨_, _, rfl⟩
      (by decide +kernel)
  · exact hsecond rfl (.moveBlock (by decide) (.move (by decide) (by decide) hblock hblockkind
      (.some hmiddle) (hbelow hblockkind hblockspace hmiddlekind hmiddlespace))) rfl ⟨_, _, rfl⟩
      (by decide +kernel)
  · exact hsecond rfl (.reorder (by decide) hlow hlowkind) rfl ⟨_, _, rfl⟩ (by decide +kernel)
  · exact hsecond rfl (.moveBeside (by decide) (by decide) (by decide) hlow hlowkind hmiddle
      (hmiddlespace.trans hlowspace.symm) habove (hbelow hlowkind hlowspace htopkind htopspace)) rfl
      ⟨_, _, rfl⟩ (by decide +kernel)

/-- Renumbering a group is no such request: once it has passed its checks it makes its write once,
whatever the configuration allows, and the first conflict is what it returns. -/
theorem renumber_attempted_once (server : Server σ) (config : Config) (now : Timestamp)
    (fresh : Uuid) (group : Group) {s s' : σ} {reads : List StoreCall}
    (hpasses : (Request.renumber group).Passes server s reads s') :
    let c : StoreCall := .renumber ⟨group.space, Uuid.given group.parent⟩
    let (ending, after) := Service.perform config server now fresh (.renumber group) s
    ((Request.renumber group).operation config now fresh).run.calls server s = reads ++ [c] ∧
      after = (server.reply c s').2 ∧
      ending = Service.deadline config "renumber_children"
        (Ending.ofCall "renumber_children" c (server.reply c s').1) ∧
      ∀ taken key, ending = some (.error (.conflict taken key)) ↔
        (server.reply c s').1 = some (.error (.duplicateSort taken key)) := by
  -- to be made again no times is to be made once
  have hbefore : Operation.ReadsBefore
      (.nodes <$> retrying 0 (ask "renumber_children"
        (.renumber ⟨group.space, Uuid.given group.parent⟩)))
      ((Request.renumber group).operation config now fresh) :=
    (readsBefore_renumber group).map _
  obtain ⟨-, attempts, hgoes⟩ :=
    hbefore.goesByOutcomes rfl (fun _ => rfl) (Request.reaches_iff.2 ⟨rfl, hpasses⟩)
  obtain rfl : attempts = 1 := by
    have := hgoes.bounds
    omega
  refine ⟨hgoes.calls_eq, hgoes.state_eq, hgoes.ending_eq, fun taken key => ?_⟩
  refine (hgoes.conflict taken key).trans ⟨fun h => h.2, fun h => ⟨fun i hi => ?_, h⟩⟩
  obtain rfl : i = 0 := Nat.le_zero.1 hi
  exact ⟨taken, key, h⟩

open Sample in
/-- The only attempt finds a key taken, although one more is allowed to other requests, at the roots
of a space as well as below a page. -/
theorem renumber_attempted_once_conflict :
    Config.standard.conflictRetries = 1 ∧
      (Service.perform .standard contest time (uuid 9) (.renumber ⟨uuid 1, none⟩) contested).1 =
        some (.error (.conflict ⟨uuid 1, none⟩ Gap.standard.size)) ∧
      (Service.perform .standard contest time (uuid 9) (.renumber ⟨uuid 1, some (uuid 2)⟩)
        contested).1 = some (.error (.conflict ⟨uuid 1, none⟩ Gap.standard.size)) := by
  obtain ⟨top, htop, -, htopspace, -⟩ :=
    exists_finds (uuid 2) .page none (by decide +kernel)
  have hroots : (Request.renumber ⟨uuid 1, none⟩).Passes contest contested [] contested :=
    .renumber (by decide) .none fun n hn => by cases hn
  have hbelow : (Request.renumber ⟨uuid 1, some (uuid 2)⟩).Passes contest contested
      [.get (uuid 2)] contested :=
    .renumber (by decide) (.some htop) fun n hn => Option.some.inj hn ▸ htopspace
  obtain ⟨-, -, -, hconflict⟩ := renumber_attempted_once contest .standard time (uuid 9) _ hroots
  obtain ⟨-, -, -, hconflict'⟩ := renumber_attempted_once contest .standard time (uuid 9) _ hbelow
  exact ⟨rfl, (hconflict _ _).2 rfl, (hconflict' _ _).2 rfl⟩

end Outline
