import Outline.Config.Basic
import Outline.Store.Error

/-!
# Why an operation fails

What a store refuses is sorted for callers: arguments that cannot be used, rules that the request
breaks, nodes that do not exist, a sort key lost to another writer, and failures of the store
itself.

Main results:

* `ServiceError.isConflict_ofStore` — only a taken sort key is a conflict.
-/

namespace Outline

/-- What is wrong with an argument, or which rule a request breaks. -/
inductive Reason where
  | emptySpace
  | emptyId (kind : Kind)
  | emptyAnchor
  | besideItself
  | kindExpected (kind : Kind)
  | propertiesNotObject
  | anchorSpace (anchor actual space : Uuid)
  | violation (v : Violation)
  | record (fault : RecordFault)
  /-- A reason given in words. -/
  | stated (reason : String)
  deriving DecidableEq

namespace Reason

def message : Reason → String
  | .emptySpace => "space id is empty"
  | .emptyId kind => s!"{kind} id is empty"
  | .emptyAnchor => "anchor id is empty"
  | .besideItself => "node cannot be positioned relative to itself"
  | .kindExpected kind => s!"type must be {kind}"
  | .propertiesNotObject => "properties must be a JSON object"
  | .anchorSpace anchor actual space =>
    s!"anchor {anchor} belongs to space {actual}, not {space}"
  | .violation v => v.message
  | .record fault => fault.message
  | .stated reason => reason

end Reason

inductive ServiceError where
  | invalidArgument (operation : String) (reason : Reason)
  | constraintViolation (operation : String) (reason : Reason)
  | notFound (id : Uuid)
  | cycle (node parent : Uuid)
  /-- Another writer has taken the sort key. -/
  | conflict (group : Group) (sort : SortKey)
  | cancelled (operation : String)
  | storage (cause : StoreError)
  | invalidConfig (fault : ConfigFault)
  deriving DecidableEq

namespace ServiceError

/-- The parent of a group in a conflict message. -/
def showParent : Option Uuid → String
  | some parent => s!"Some({parent})"
  | none => "None"

def message : ServiceError → String
  | .invalidArgument operation reason => s!"{operation}: {reason.message}"
  | .constraintViolation operation reason => s!"{operation}: {reason.message}"
  | .notFound id => s!"Node not found: {id}"
  | .cycle node parent => s!"Cycle detected: node {node} cannot move under {parent}"
  | .conflict group sort =>
    s!"Sort {sort} already taken in space {group.space} under parent {showParent group.parent}"
  | .cancelled operation => s!"{operation}: cancelled before completion"
  | .storage cause => s!"Storage operation failed: {cause.message}"
  | .invalidConfig fault => s!"Invalid configuration: {fault.message}"

def isConflict : ServiceError → Bool
  | .conflict _ _ => true
  | _ => false

def isNotFound : ServiceError → Bool
  | .notFound _ => true
  | _ => false

/-- A broken rule met in an operation. A missing parent is the fault of an argument. -/
def ofViolation (operation : String) : Violation → ServiceError
  | .cycle node parent => .cycle node parent
  | .missingParent kind => .invalidArgument operation (.violation (.missingParent kind))
  | v => .constraintViolation operation (.violation v)

/-- A refusal of the store met in an operation. -/
def ofStore (operation : String) : StoreError → ServiceError
  | .notFound id => .notFound id
  | .duplicateSort group sort => .conflict group sort
  | .violation v => ofViolation operation v
  | .invalidRecord fault => .invalidArgument operation (.record fault)
  | cause => .storage cause

/-- The name of the operation when a store is used without one. -/
def bareOperation : String := "store"

theorem isConflict_ofViolation (operation : String) (v : Violation) :
    (ofViolation operation v).isConflict = false := by
  cases v <;> rfl

theorem isConflict_ofStore (operation : String) (e : StoreError) :
    (ofStore operation e).isConflict = true ↔ ∃ group sort, e = .duplicateSort group sort := by
  cases e <;> simp [ofStore, isConflict_ofViolation] <;> simp [isConflict]

end ServiceError

end Outline
