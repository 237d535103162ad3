import Outline.Rules

/-!
# Why a store refuses a call

Each refusal is a cause with its data; `StoreError.message` gives its wording.
-/

namespace Outline

/-- What is wrong with a record that was to be written or read. -/
inductive RecordFault where
  | defect (d : Defect)
  | alreadyExists (id : Uuid)
  /-- A node cannot be put beside itself. -/
  | besideItself
  /-- The text in a column has no value of the column's type. -/
  | badColumn (column value : String)
  | badProperties
  /-- A reason given in words. -/
  | stated (reason : String)
  deriving DecidableEq

namespace RecordFault

/-- Where a column cannot be read, the reader of its text adds its own words after the colon, and so
it does for properties. These words are left out. -/
def message : RecordFault → String
  | .defect d => d.message
  | .alreadyExists id => s!"node {id} already exists"
  | .besideItself => "node cannot be positioned relative to itself"
  | .badColumn column value => s!"Bad {column} '{value}':"
  | .badProperties => "Bad properties"
  | .stated reason => reason

end RecordFault

inductive StoreError where
  | notFound (id : Uuid)
  | duplicateSort (group : Group) (sort : SortKey)
  | violation (v : Violation)
  | exhausted (group : Group) (cause : Exhausted)
  | invalidRecord (fault : RecordFault)
  | initializationFailed (reason : String)
  | statementFailed (reason : String)
  deriving DecidableEq

namespace StoreError

def message : StoreError → String
  | .notFound id => s!"Node not found: {id}"
  | .duplicateSort group sort => s!"Duplicate sort {sort} in sibling group {group}"
  | .violation v => v.message
  | .exhausted group cause => s!"Sibling group {group}: {cause.message}"
  | .invalidRecord fault => s!"Invalid node record: {fault.message}"
  | .initializationFailed reason => s!"Failed to initialize database schema: {reason}"
  | .statementFailed reason => s!"SQL execution failed: {reason}"

end StoreError

/-- Place a node in a group. A store refuses an anchor that is not in the group, and a group whose
keys are exhausted. -/
def Gap.placeIn (gap : Gap) (group : Group) (siblings : List Sibling) (moving : Uuid) :
    Target → Except StoreError Placement
  | .last => (gap.placeLast siblings moving).mapError (.exhausted group)
  | .at sort => (gap.placeAt siblings moving sort).mapError (.exhausted group)
  | .beside anchor side =>
    match gap.placeBeside siblings moving anchor side with
    | some placement => placement.mapError (.exhausted group)
    | none => .error (.notFound anchor)

end Outline
