import Outline.Service.Program

/-!
# A store that is watched

A watched store writes down the calls that a program makes, with the state before and after each of
them. On its way to the store a call may meet a mishap: it fails with an error of any kind, or it
never returns. A call that meets a mishap does not reach the store. Which calls do is given by
their number in the run, and so is the time that the store reads when it serves a call.

Main definitions:

* `Visit.Linked` — visits that lead from one state to another;
* `Watched.server` — the server that writes down the calls it is asked.
-/

namespace Outline

/-- What befalls a call on its way to the store. -/
inductive Mishap where
  | none
  | fails (error : StoreError)
  /-- The call never returns. -/
  | hangs
  deriving DecidableEq

/-- A call, what came of it, and the states around it. -/
structure Visit (σ : Type) where
  call : StoreCall
  mishap : Mishap
  before : σ
  /-- `none` for a call that never returns. -/
  outcome : Option call.Outcome
  after : σ

namespace Visit

variable {σ : Type}

/-- Whether the store has served a call that writes. -/
def wrote (v : Visit σ) : Bool :=
  !v.call.isRead && v.outcome.any (·.isOk)

/-- Visits that lead from one state to another. -/
def Linked : σ → List (Visit σ) → σ → Prop
  | s, [], t => s = t
  | s, v :: rest, t => v.before = s ∧ Linked v.after rest t

end Visit

/-- A store state, and the calls made so far in the order in which they were made. -/
structure Watched (σ : Type) where
  state : σ
  visits : List (Visit σ)

namespace Watched

variable {α σ : Type}

def start (s : σ) : Watched σ := ⟨s, []⟩

/-- What comes of a call made now. -/
def result (store : Store σ) (clock : Nat → Timestamp) (mishaps : Nat → Mishap) (c : StoreCall)
    (w : Watched σ) : Option c.Outcome × σ :=
  let i := w.visits.length
  match mishaps i with
  | .none => (some (store.step c (clock i) w.state).1, (store.step c (clock i) w.state).2)
  | .fails e => (some (.error e), w.state)
  | .hangs => (none, w.state)

/-- The visit that a call made now is. -/
def visit (store : Store σ) (clock : Nat → Timestamp) (mishaps : Nat → Mishap) (c : StoreCall)
    (w : Watched σ) : Visit σ :=
  let (outcome, s) := w.result store clock mishaps c
  ⟨c, mishaps w.visits.length, w.state, outcome, s⟩

/-- Write a visit down. -/
def after (w : Watched σ) (v : Visit σ) : Watched σ :=
  ⟨v.after, w.visits ++ [v]⟩

def server (store : Store σ) (clock : Nat → Timestamp) (mishaps : Nat → Mishap) :
    Server (Watched σ) where
  reply c w := ((w.result store clock mishaps c).1, w.after (w.visit store clock mishaps c))

variable {store : Store σ} {clock : Nat → Timestamp} {mishaps : Nat → Mishap} {c : StoreCall}
  {w : Watched σ}

/-- A program goes on with what comes of its call, or does not come to an end. -/
theorem run_ask (next : c.Outcome → Program α) :
    (∃ outcome, (w.result store clock mishaps c).1 = some outcome ∧
        (Program.ask c next).run (server store clock mishaps) w =
          (next outcome).run (server store clock mishaps)
            (w.after (w.visit store clock mishaps c))) ∨
      (w.result store clock mishaps c).1 = none ∧
        (Program.ask c next).run (server store clock mishaps) w =
          (none, w.after (w.visit store clock mishaps c)) := by
  have hreply : (server store clock mishaps).reply c w =
    ((w.result store clock mishaps c).1, w.after (w.visit store clock mishaps c)) := rfl
  rw [Program.run, hreply]
  cases h : (w.result store clock mishaps c).1 with
  | none => exact .inr ⟨rfl, rfl⟩
  | some outcome => exact .inl ⟨outcome, rfl, rfl⟩

end Watched

end Outline
