import Outline.Service.Error
import Outline.Store.Call

/-!
# Programs that use a store

An operation of the service is a program: it either is done or makes one store call and goes on
with its outcome, whatever that is. Who answers the calls is left open. A server answers from a
store, or lets calls fail, or never answers, and then the program does not come to an end.

Main results:

* `Program.run_bind` — a program that continues another runs in the state the other leaves.
-/

namespace Outline

inductive Program (α : Type) where
  | done (a : α)
  | ask (c : StoreCall) (next : c.Outcome → Program α)

namespace Program

variable {α β σ : Type}

def bind : Program α → (α → Program β) → Program β
  | .done a, f => f a
  | .ask c next, f => .ask c fun outcome => (next outcome).bind f

instance : Monad Program where
  pure := .done
  bind := bind

end Program

/-- Answers store calls; `none` for a call that never returns. -/
structure Server (σ : Type) where
  reply : (c : StoreCall) → σ → Option c.Outcome × σ

namespace Store

/-- The server that answers from a store. -/
def server {σ : Type} (store : Store σ) (now : Timestamp) : Server σ where
  reply c s :=
    let (outcome, s) := store.step c now s
    (some outcome, s)

end Store

namespace Program

variable {α β σ : Type}

/-- Run a program; `none` when a call never returns. -/
def run (server : Server σ) : Program α → σ → Option α × σ
  | .done a, s => (some a, s)
  | .ask c next, s =>
    match server.reply c s with
    | (some outcome, s) => (next outcome).run server s
    | (none, s) => (none, s)

theorem run_bind (server : Server σ) (p : Program α) (f : α → Program β) (s : σ) :
    (p.bind f).run server s =
      match p.run server s with
      | (some a, s) => (f a).run server s
      | (none, s) => (none, s) := by
  induction p generalizing s with
  | done a => rfl
  | ask c next ih =>
    rw [bind, run, run]
    split <;> simp [*]

end Program

/-- A program that may fail. -/
abbrev Operation (α : Type) : Type :=
  ExceptT ServiceError Program α

namespace Operation

variable {α : Type}

/-- Make a store call; a refusal ends the operation called `operation`. -/
def ask (operation : String) (c : StoreCall) : Operation c.Answer :=
  ExceptT.mk (.ask c fun outcome => .done (outcome.mapError (.ofStore operation)))

/-- Go on if a rule is kept. -/
def require (operation : String) (rule : Except Violation Unit) : Operation Unit :=
  ExceptT.mk (.done (rule.mapError (.ofViolation operation)))

/-- Make an attempt, and make it again after a conflict, at most `retries` times. -/
def retrying (retries : Nat) (attempt : Operation α) : Operation α :=
  match retries with
  | 0 => attempt
  | retries + 1 =>
    ExceptT.mk (attempt.run.bind fun outcome =>
      match outcome with
      | .ok a => .done (.ok a)
      | .error e => if e.isConflict then (retrying retries attempt).run else .done (.error e))

end Operation

end Outline
