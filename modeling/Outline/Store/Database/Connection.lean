import Outline.Store.Database
import Outline.Store.InPlace

/-!
# The table store at work

A call that writes opens a transaction, runs its statements on the rows one after the other, and
commits. When a statement fails or a check refuses, the transaction is rolled back, which restores
the rows as they were when it was opened. What can be checked without the rows is checked before.

Main definitions:

* `Table.writeInPlace` — keys written row by row;
* `Connection.transact` — work in a transaction;
* `Connection.live` — all calls.
-/

namespace Outline

namespace Table

/-! ## Statements -/

def writeInPlace (group : Group) : List KeyWrite → Work Table Unit
  | [] => return
  | w :: rest => do
    match ← .query fun t => .ok (t.update? w.id.toText w.change) with
    | some t => .alter fun _ => t
    | none => throw (.duplicateSort group w.sort)
    writeInPlace group rest

def writeKeysInPlace (group : Group) (keys : List Sibling) (mover : Option Mover)
    (now : Timestamp) : Work Table Unit := do
  let writes ← .query (·.writes group keys mover now)
  writeInPlace group writes

def insertInPlace (n : Node) : Work Table Unit := do
  let t ← .query (·.insertNode n)
  .alter fun _ => t

/-! ## Calls inside a transaction -/

def checkParentInPlace (n : Node) : Work Table Unit := do
  let parent ← .query (·.fetchParent n.parent)
  .query fun _ => (checkParent n.kind n.space parent).mapError .violation

def createInPlace (n : Node) : Work Table Node := do
  checkParentInPlace n
  insertInPlace n
  return n

def createLastInPlace (gap : Gap) (n : Node) (now : Timestamp) : Work Table Node := do
  checkParentInPlace n
  let siblings ← .query (·.siblings n.group)
  let placement ← .query fun _ => gap.placeIn n.group siblings n.id .last
  match placement with
  | .key _ => pure ()
  | .respread members => writeKeysInPlace n.group (members.filter (·.id ≠ n.id)) none now
  let n := { n with sort := (placement.keyFor? n.id).getD n.sort }
  insertInPlace n
  return n

def updateInPlace (id : Uuid) (patch : Patch) (now : Timestamp) : Work Table Node := do
  let (n, t) ← .query (·.updateNode id patch now)
  .alter fun _ => t
  return n

def deleteInPlace (space id : Uuid) : Work Table Nat := do
  let (removed, t) ← .query (·.deleteNode space id)
  .alter fun _ => t
  return removed

def relocateInPlace (gap : Gap) (id : Uuid) (parent : Option Uuid) (target : Target)
    (now : Timestamp) : Work Table Node := do
  let n ← .query (·.fetch id)
  let parentNode ← .query (·.fetchParent parent)
  .query fun _ => (checkParent n.kind n.space parentNode).mapError .violation
  .query (·.checkClimb n id parent)
  let group : Group := ⟨n.space, parent⟩
  let siblings ← .query (·.siblings group)
  let placement ← .query fun _ => gap.placeIn group siblings id target
  let keys := match placement with
    | .key sort => [⟨id, sort⟩]
    | .respread members => members
  writeKeysInPlace group keys (some ⟨id, n.parent⟩) now
  -- the row may turn out to be unreadable after it has been written
  .query (·.fetch id)

def reorderInPlace (gap : Gap) (id : Uuid) (sort : SortKey) (now : Timestamp) :
    Work Table Node := do
  let n ← .query (·.fetch id)
  relocateInPlace gap id n.parent (.at sort) now

def moveBesideInPlace (gap : Gap) (id anchor : Uuid) (side : Side) (now : Timestamp) :
    Work Table Node := do
  let n ← .query (·.fetch id)
  let anchorNode ← .query (·.fetch anchor)
  if anchorNode.space ≠ n.space then throw (.notFound anchor)
  relocateInPlace gap id anchorNode.parent (.beside anchor side) now

def renumberInPlace (gap : Gap) (group : Group) (now : Timestamp) :
    Work Table (List Node) := do
  let _ ← .query (·.fetchParent group.parent)
  let siblings ← .query (·.siblings group)
  let members ← .query fun _ => (gap.compact siblings).mapError (.exhausted group)
  writeKeysInPlace group members none now
  .query (·.fetchChildren group)

end Table

/-- A connection to a table. -/
structure Connection where
  gap : Gap
  rows : Table
  /-- The rows to go back to, while a transaction is open. -/
  saved : Option Table

namespace Connection

def ofDatabase (db : Database) : Connection := ⟨db.gap, db.rows, none⟩

def database (c : Connection) : Database := ⟨c.gap, c.rows⟩

def begin : Work Connection Unit :=
  .alter fun c => { c with saved := some c.rows }

def commit : Work Connection Unit :=
  .alter fun c => { c with saved := none }

def rollback : Work Connection Unit :=
  .alter fun c => { c with rows := c.saved.getD c.rows, saved := none }

/-- Look something up in the rows. -/
def read {α : Type} (f : Table → Except StoreError α) : Work Connection α :=
  .query fun c => f c.rows

/-- Run statements on the rows, which are then changed as far as the statements got. -/
def statements {α : Type} (w : Work Table α) : Work Connection (Except StoreError α) := fun c =>
  match w c.rows with
  | .ok a rows => .ok (.ok a) { c with rows := rows }
  | .error e rows => .ok (.error e) { c with rows := rows }

def transact {α : Type} (w : Work Table α) : Work Connection α := do
  begin
  match ← statements w with
  | .ok a =>
    commit
    return a
  | .error e =>
    rollback
    throw e

def perform : (c : StoreCall) → Timestamp → Work Connection c.Answer
  | .get id, _ => read (·.fetch id)
  | .create n, _ => do
    .query fun _ => n.check.mapError (.invalidRecord ∘ .defect)
    transact (Table.createInPlace n)
  | .createLast n, now => do
    .query fun _ => n.check.mapError (.invalidRecord ∘ .defect)
    let gap ← .query fun c => .ok c.gap
    transact (Table.createLastInPlace gap n now)
  | .update id patch, now => transact (Table.updateInPlace id patch now)
  | .delete space id, _ => transact (Table.deleteInPlace space id)
  | .list group, _ => read (·.list group)
  | .nextSort group, _ => .query fun c => c.rows.nextSort c.gap group
  | .moveLast id parent, now => do
    let gap ← .query fun c => .ok c.gap
    transact (Table.relocateInPlace gap id parent .last now)
  | .moveAt id parent sort, now => do
    let gap ← .query fun c => .ok c.gap
    transact (Table.relocateInPlace gap id parent (.at sort) now)
  | .reorder id sort, now => do
    let gap ← .query fun c => .ok c.gap
    transact (Table.reorderInPlace gap id sort now)
  | .moveBeside id anchor side, now => do
    if anchor = id then throw (.invalidRecord .besideItself)
    let gap ← .query fun c => .ok c.gap
    transact (Table.moveBesideInPlace gap id anchor side now)
  | .renumber group, now => do
    let gap ← .query fun c => .ok c.gap
    transact (Table.renumberInPlace gap group now)

/-- The table store at work. -/
def live : Live Connection := ⟨perform⟩

end Connection

end Outline
