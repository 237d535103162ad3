import Outline.Service.Program

/-!
# Working in place

A store changes its state step by step. When it stops with a refusal, what it has changed so far
stays changed unless it puts it back itself. Work of this kind is a state transformer whose state
survives a refusal, and a store at work is one such piece of work for each call.

Main definitions:

* `Work` — work on a state that may be refused half-way;
* `Live` — a store at work, with its runs and the outcomes of its calls.
-/

namespace Outline

/-- Work on a state of type `σ`; a refusal keeps what has been changed before it. -/
abbrev Work (σ α : Type) : Type :=
  EStateM StoreError σ α

namespace Work

variable {α β σ : Type}

/-- Look something up. -/
def query (f : σ → Except StoreError α) : Work σ α := fun s =>
  match f s with
  | .ok a => .ok a s
  | .error e => .error e s

/-- Change the state. -/
def alter (f : σ → σ) : Work σ Unit := fun s =>
  .ok () (f s)

/-- The outcome of work, and the state it leaves. -/
def outcome (w : Work σ α) (s : σ) : Except StoreError α × σ :=
  match w s with
  | .ok a s' => (.ok a, s')
  | .error e s' => (.error e, s')

theorem bind_apply (w : Work σ α) (g : α → Work σ β) (s : σ) :
    (w >>= g) s = match w s with
      | .ok a t => g a t
      | .error e t => .error e t := by
  show EStateM.bind w g s = _
  unfold EStateM.bind
  cases w s <;> rfl

theorem query_bind (f : σ → Except StoreError α) (g : α → Work σ β) (s : σ) :
    (query f >>= g) s = match f s with
      | .ok a => g a s
      | .error e => .error e s := by
  rw [bind_apply, query]
  cases f s <;> rfl

theorem alter_bind (f : σ → σ) (g : Unit → Work σ β) (s : σ) : (alter f >>= g) s = g () (f s) :=
  rfl

end Work

/-- A store at work. -/
structure Live (σ : Type) where
  perform : (c : StoreCall) → Timestamp → Work σ c.Answer

namespace Live

variable {σ : Type} (live : Live σ)

def server (now : Timestamp) : Server σ where
  reply c s :=
    let (outcome, s') := (live.perform c now).outcome s
    (some outcome, s')

/-- The state after calls made one after the other. -/
def run : List (StoreCall × Timestamp) → σ → σ
  | [], s => s
  | (c, now) :: rest, s => run rest ((live.perform c now).outcome s).2

/-- The outcomes of calls made one after the other. -/
def outcomes : List (StoreCall × Timestamp) → σ → List (Σ c : StoreCall, c.Outcome)
  | [], _ => []
  | (c, now) :: rest, s =>
    ⟨c, ((live.perform c now).outcome s).1⟩ :: outcomes rest ((live.perform c now).outcome s).2

end Live

end Outline
