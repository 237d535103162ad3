import Outline.Store.Error

/-!
# What a store is asked

A store is reached through twelve calls. Three of them only read. `StoreCall.Answer` is the type of
the answer to a call, so that a store which serves all calls is one function.

Main results:

* `Store.step_of_error` — a refused call leaves the state as it was.
-/

namespace Outline

inductive StoreCall where
  | get (id : Uuid)
  /-- Store a new node with the key that it carries. -/
  | create (n : Node)
  /-- Store a new node at the end of its group. -/
  | createLast (n : Node)
  | update (id : Uuid) (patch : Patch)
  /-- Remove a node of a space with everything below it. -/
  | delete (space id : Uuid)
  /-- The members of a group in order, archived ones included. -/
  | list (group : Group)
  /-- The key that a node appended to the group would get. -/
  | nextSort (group : Group)
  | moveLast (id : Uuid) (parent : Option Uuid)
  | moveAt (id : Uuid) (parent : Option Uuid) (sort : SortKey)
  /-- Change the key of a node in its group. -/
  | reorder (id : Uuid) (sort : SortKey)
  | moveBeside (id anchor : Uuid) (side : Side)
  /-- Respread the keys of a group in its present order. -/
  | renumber (group : Group)

namespace StoreCall

/-- What a store answers when it does not refuse: nodes, a number of removed nodes, or a key. -/
abbrev Answer : StoreCall → Type
  | .get _ | .create _ | .createLast _ | .update _ _ | .moveLast _ _ | .moveAt _ _ _
  | .reorder _ _ | .moveBeside _ _ _ => Node
  | .list _ | .renumber _ => List Node
  | .delete _ _ => Nat
  | .nextSort _ => SortKey

/-- The calls that only read. -/
def isRead : StoreCall → Bool
  | .get _ | .list _ | .nextSort _ => true
  | _ => false

end StoreCall

/-- The outcome of a call: its answer, or why it was refused. -/
abbrev StoreCall.Outcome (c : StoreCall) : Type :=
  Except StoreError c.Answer

/-- A store with states of type `σ`. A call that is not refused gives the next state as well. -/
structure Store (σ : Type) where
  serve : (c : StoreCall) → Timestamp → σ → Except StoreError (c.Answer × σ)

namespace Store

variable {σ : Type} (store : Store σ)

/-- One call at a given time, and the state after it. -/
def step (c : StoreCall) (now : Timestamp) (s : σ) : c.Outcome × σ :=
  match store.serve c now s with
  | .ok (answer, s') => (.ok answer, s')
  | .error e => (.error e, s)

theorem step_of_error {c : StoreCall} {now : Timestamp} {s : σ} {e : StoreError}
    (h : (store.step c now s).1 = .error e) : (store.step c now s).2 = s := by
  unfold step at h ⊢
  split at h <;> simp_all

end Store

end Outline
