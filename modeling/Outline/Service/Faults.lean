import Outline.Service.Program

/-!
# A store that fails

A faulty store puts faults in front of another store: the next calls of one method, or of any that
writes, fail with a given error, or calls of a method never return. A call that meets a fault does
not reach the store behind. All calls that are meant to write are counted.

Main definitions:

* `Faulty.server` — the server that lets calls meet the fault.
-/

namespace Outline

/-- The methods of a store, to say which calls a fault is for. -/
inductive Method where
  | get
  | create
  | createLast
  | update
  | delete
  | list
  | nextSort
  | moveLast
  | moveAt
  | reorder
  | moveBeside
  | renumber
  deriving DecidableEq

namespace StoreCall

def method : StoreCall → Method
  | .get _ => .get
  | .create _ => .create
  | .createLast _ => .createLast
  | .update _ _ => .update
  | .delete _ _ => .delete
  | .list _ => .list
  | .nextSort _ => .nextSort
  | .moveLast _ _ => .moveLast
  | .moveAt _ _ _ => .moveAt
  | .reorder _ _ => .reorder
  | .moveBeside _ _ _ => .moveBeside
  | .renumber _ => .renumber

end StoreCall

/-- Which calls a fault is for. -/
inductive Scope where
  | only (m : Method)
  /-- All calls that write. -/
  | writes
  deriving DecidableEq

namespace Scope

def covers (scope : Scope) (c : StoreCall) : Bool :=
  match scope with
  | .only m => c.method = m
  | .writes => !c.isRead

end Scope

/-- A fault in front of a store. -/
inductive Fault where
  | none
  /-- The next `count` calls fail. -/
  | fail (scope : Scope) (count : Nat) (error : StoreError)
  /-- Calls do not return. -/
  | hang (scope : Scope)
  deriving DecidableEq

/-- A store state with a fault in front of it, and the number of calls so far that write. -/
structure Faulty (σ : Type) where
  state : σ
  fault : Fault
  attempts : Nat

namespace Faulty

variable {σ : Type}

def ofState (s : σ) : Faulty σ := ⟨s, .none, 0⟩

/-- Count a call. -/
def count (f : Faulty σ) (c : StoreCall) : Faulty σ :=
  if c.isRead then f else { f with attempts := f.attempts + 1 }

/-- Pass a call on to the server behind. -/
def pass (server : Server σ) (c : StoreCall) (f : Faulty σ) : Option c.Outcome × Faulty σ :=
  let (outcome, s) := server.reply c f.state
  (outcome, { f with state := s })

/-- The server that lets calls meet the fault. -/
def server (server : Server σ) : Server (Faulty σ) where
  reply c f :=
    let f := f.count c
    match f.fault with
    | .none => f.pass server c
    | .hang scope => if scope.covers c then (none, f) else f.pass server c
    | .fail scope count error =>
      if scope.covers c ∧ 0 < count then
        (some (.error error), { f with fault := .fail scope (count - 1) error })
      else f.pass server c

end Faulty

end Outline
