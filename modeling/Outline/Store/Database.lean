import Outline.Store.Call
import Outline.Store.Table

/-!
# The table store

Nodes are rows of one table. A call that writes runs its statements one after the other on the
table; if one of them fails the table is as before the call.

New keys are written row by row, while the table refuses two rows with one slot at any time. So
when more than one row gets a key, all of them are first parked on a run of keys that nobody in the
groups concerned uses, and then each gets its own.

Main definitions:

* `freeRun?` — where a run of unused keys begins;
* `Table.writes` — the updates that give a group its new keys.
-/

namespace Outline

/-- The refusal for a row that cannot be read. -/
def StoreError.ofFault {α : Type} (outcome : Except RecordFault α) : Except StoreError α :=
  outcome.mapError .invalidRecord

/-- The first of two neighbouring keys between which `count` keys fit. -/
def firstRoom? (count : Int) : List Int → Option Int
  | a :: b :: rest => if count < b - a then some a else firstRoom? count (b :: rest)
  | _ => none

/-- The first of `count` consecutive keys that are not in `used`: just below the smallest used key
if they fit there, else after the first used key with enough room behind it. -/
def freeRun? (used : List SortKey) (count : Nat) : Option SortKey :=
  let keys := (used.map (·.val)).mergeSort
  match keys.head?, keys.getLast? with
  | some first, some last =>
    SortKey.ofInt? (first - count) <|>
      (firstRoom? count keys).bind (fun a => SortKey.ofInt? (a + 1)) <|>
      (SortKey.ofInt? (last + count)).bind fun _ => SortKey.ofInt? (last + 1)
  | _, _ => SortKey.ofInt? (-count)

/-- An update of the key of one row, perhaps with its parent or its time of change. -/
structure KeyWrite where
  id : Uuid
  sort : SortKey
  /-- The new parent, for a row that changes its group. -/
  parent : Option (Option Uuid)
  updated : Option Timestamp
  deriving DecidableEq

namespace KeyWrite

def change (w : KeyWrite) (r : Row) : Row :=
  { r with
    sort := w.sort
    parent := match w.parent with
      | some parent => parent.map Uuid.toText
      | none => r.parent
    updated := match w.updated with
      | some now => now.toOffsetText
      | none => r.updated }

end KeyWrite

/-- A node that enters a group, and the parent that it leaves. -/
structure Mover where
  id : Uuid
  origin : Option Uuid
  deriving DecidableEq

namespace Table

/-- Run updates in turn; a slot that is taken is reported by the group and the key to be written. -/
def write (group : Group) : List KeyWrite → Table → Except StoreError Table
  | [], t => .ok t
  | w :: rest, t =>
    match t.update? w.id.toText w.change with
    | some t => write group rest t
    | none => .error (.duplicateSort group w.sort)

/-! ## Reading nodes -/

def fetch (t : Table) (id : Uuid) : Except StoreError Node :=
  match t.find id.toText with
  | some r => StoreError.ofFault r.toNode
  | none => .error (.notFound id)

/-- The node that is to be a parent, if one is given. -/
def fetchParent (t : Table) : Option Uuid → Except StoreError (Option Node)
  | none => .ok none
  | some id => (t.fetch id).map some

def fetchChildren (t : Table) (group : Group) : Except StoreError (List Node) :=
  (t.select group).mapM fun r => StoreError.ofFault r.toNode

/-- The members of a group with their keys. Of their rows only the identifiers are read. -/
def siblings (t : Table) (group : Group) : Except StoreError (List Sibling) :=
  (t.select group).mapM fun r => (StoreError.ofFault r.readId).map (⟨·, r.sort⟩)

/-- A row's identifier with that of its parent. -/
def readLink (r : Row) : Except RecordFault (Uuid × Option Uuid) := do
  return (← r.readId, ← r.readParent)

/-- The parents of a node and of at most `depth` nodes above it. -/
def ancestors (t : Table) (id : Uuid) (depth : Nat) :
    Except StoreError (List (Uuid × Option Uuid)) :=
  (t.chain id.toText depth).mapM fun r => StoreError.ofFault (readLink r)

/-- The parent that a list of links gives to a node; a later link counts more. -/
def parentIn (links : List (Uuid × Option Uuid)) (id : Uuid) : Option Uuid :=
  (links.reverse.lookup id).join

/-! ## Writing keys -/

/-- The updates that park the rows of `keys` on the keys from `start` on. -/
def parking (start : SortKey) (keys : List Sibling) : List KeyWrite :=
  keys.zipIdx.filterMap fun (m, i) =>
    (SortKey.ofInt? (start.val + i)).map fun sort => ⟨m.id, sort, none, none⟩

/-- The updates that give each row of `keys` its key, and the mover its parent. -/
def settling (group : Group) (keys : List Sibling) (mover : Option Mover) (now : Timestamp) :
    List KeyWrite :=
  keys.map fun m =>
    ⟨m.id, m.sort, if mover.any (·.id = m.id) then some group.parent else none, some now⟩

/-- The keys in use in the group that is written and in the group that the mover leaves. -/
def usedKeys (t : Table) (group : Group) (keys : List Sibling) (mover : Option Mover) :
    Except StoreError (List SortKey) := do
  let here ← t.siblings group
  let there ← match mover with
    | some m => if m.origin = group.parent then pure [] else t.siblings ⟨group.space, m.origin⟩
    | none => pure []
  return (keys ++ here ++ there).map (·.sort)

/-- All updates that give the rows of `keys` their keys, parking included. -/
def writes (t : Table) (group : Group) (keys : List Sibling) (mover : Option Mover)
    (now : Timestamp) : Except StoreError (List KeyWrite) := do
  if keys.length ≤ 1 then return settling group keys mover now
  match freeRun? (← t.usedKeys group keys mover) keys.length with
  | some start => return parking start keys ++ settling group keys mover now
  | none => throw (.exhausted group ⟨keys.length, 0⟩)

def writeKeys (t : Table) (group : Group) (keys : List Sibling) (mover : Option Mover)
    (now : Timestamp) : Except StoreError Table := do
  t.write group (← t.writes group keys mover now)

/-! ## Writing nodes -/

def insertNode (t : Table) (n : Node) : Except StoreError Table :=
  (t.insert (.ofNode n)).mapError fun
    | .slot => .duplicateSort n.group n.sort
    | .id => .invalidRecord (.alreadyExists n.id)

/-- Check a new node by itself and under its parent. -/
def checkNew (t : Table) (n : Node) : Except StoreError Unit := do
  n.check.mapError (.invalidRecord ∘ .defect)
  let parent ← t.fetchParent n.parent
  (checkParent n.kind n.space parent).mapError .violation

def create (t : Table) (n : Node) : Except StoreError (Node × Table) := do
  t.checkNew n
  return (n, ← t.insertNode n)

/-- Store a new node at the end of its group, respreading the group when there is no key left
behind its last member. -/
def createLast (t : Table) (gap : Gap) (n : Node) (now : Timestamp) :
    Except StoreError (Node × Table) := do
  t.checkNew n
  let placement ← gap.placeIn n.group (← t.siblings n.group) n.id .last
  let t ← match placement with
    | .key _ => pure t
    | .respread members =>
      -- the new node has no row yet and brings its key along
      t.writeKeys n.group (members.filter (·.id ≠ n.id)) none now
  let n := { n with sort := (placement.keyFor? n.id).getD n.sort }
  return (n, ← t.insertNode n)

def updateNode (t : Table) (id : Uuid) (patch : Patch) (now : Timestamp) :
    Except StoreError (Node × Table) := do
  let n := (← t.fetch id).patch patch now
  n.check.mapError (.invalidRecord ∘ .defect)
  let change (r : Row) : Row :=
    { r with
      title := n.title
      properties := n.properties.text
      archived := if n.archived then 1 else 0
      updated := n.updated.toOffsetText }
  return (n, t.edit id.toText change)

def deleteNode (t : Table) (space id : Uuid) : Except StoreError (Nat × Table) := do
  let n ← t.fetch id
  if n.space ≠ space then throw (.notFound id)
  -- counted before the removal, and by ways down instead of rows
  let removed := t.countBelow (t.countSpace space) [id.toText]
  return (removed, t.delete id.toText space.toText)

/-- Check that a node may come to stand under `parent`. -/
def checkClimb (t : Table) (n : Node) (id : Uuid) : Option Uuid → Except StoreError Unit
  | none => .ok ()
  | some parent => do
    let steps := t.countSpace n.space
    let links ← t.ancestors parent steps
    (checkAcyclic (parentIn links) id parent steps).mapError .violation

def relocate (t : Table) (gap : Gap) (id : Uuid) (parent : Option Uuid) (target : Target)
    (now : Timestamp) : Except StoreError (Node × Table) := do
  let n ← t.fetch id
  let parentNode ← t.fetchParent parent
  (checkParent n.kind n.space parentNode).mapError .violation
  t.checkClimb n id parent
  let group : Group := ⟨n.space, parent⟩
  let placement ← gap.placeIn group (← t.siblings group) id target
  let keys := match placement with
    | .key sort => [⟨id, sort⟩]
    | .respread members => members
  let t ← t.writeKeys group keys (some ⟨id, n.parent⟩) now
  -- the answer is what the row holds now
  return (← t.fetch id, t)

def reorder (t : Table) (gap : Gap) (id : Uuid) (sort : SortKey) (now : Timestamp) :
    Except StoreError (Node × Table) := do
  t.relocate gap id (← t.fetch id).parent (.at sort) now

def moveBeside (t : Table) (gap : Gap) (id anchor : Uuid) (side : Side) (now : Timestamp) :
    Except StoreError (Node × Table) := do
  if anchor = id then throw (.invalidRecord .besideItself)
  let n ← t.fetch id
  let anchorNode ← t.fetch anchor
  if anchorNode.space ≠ n.space then throw (.notFound anchor)
  t.relocate gap id anchorNode.parent (.beside anchor side) now

def renumber (t : Table) (gap : Gap) (group : Group) (now : Timestamp) :
    Except StoreError (List Node × Table) := do
  let _ ← t.fetchParent group.parent
  let members ← (gap.compact (← t.siblings group)).mapError (.exhausted group)
  let t ← t.writeKeys group members none now
  return (← t.fetchChildren group, t)

/-! ## Reading groups -/

def list (t : Table) (group : Group) : Except StoreError (List Node) := do
  match ← t.fetchParent group.parent with
  | some parent => if parent.space ≠ group.space then throw (.notFound parent.id)
  | none => pure ()
  t.fetchChildren group

def nextSort (t : Table) (gap : Gap) (group : Group) : Except StoreError SortKey :=
  let rows := t.select group
  match gap.next? (rows.getLast?.map (·.sort)) with
  | some sort => .ok sort
  | none => .error (.exhausted group ⟨rows.length, gap.size.val⟩)

end Table

/-- A table with the gap of the store that opened it. -/
structure Database where
  gap : Gap
  rows : Table

namespace Database

def empty (gap : Gap) : Database := ⟨gap, []⟩

/-- The same rows opened with another gap. -/
def reopen (db : Database) (gap : Gap) : Database := { db with gap := gap }

/-- A reading call leaves the rows as they are. -/
def reading {α : Type} (db : Database) (outcome : Except StoreError α) :
    Except StoreError (α × Database) :=
  outcome.map (·, db)

/-- A writing call that fails is rolled back; one that succeeds gives the new rows. -/
def writing {α : Type} (db : Database) (outcome : Except StoreError (α × Table)) :
    Except StoreError (α × Database) :=
  outcome.map fun (a, rows) => (a, { db with rows := rows })

def serve : (c : StoreCall) → Timestamp → Database → Except StoreError (c.Answer × Database)
  | .get id, _, db => db.reading (db.rows.fetch id)
  | .create n, _, db => db.writing (db.rows.create n)
  | .createLast n, now, db => db.writing (db.rows.createLast db.gap n now)
  | .update id patch, now, db => db.writing (db.rows.updateNode id patch now)
  | .delete space id, _, db => db.writing (db.rows.deleteNode space id)
  | .list group, _, db => db.reading (db.rows.list group)
  | .nextSort group, _, db => db.reading (db.rows.nextSort db.gap group)
  | .moveLast id parent, now, db => db.writing (db.rows.relocate db.gap id parent .last now)
  | .moveAt id parent sort, now, db =>
    db.writing (db.rows.relocate db.gap id parent (.at sort) now)
  | .reorder id sort, now, db => db.writing (db.rows.reorder db.gap id sort now)
  | .moveBeside id anchor side, now, db =>
    db.writing (db.rows.moveBeside db.gap id anchor side now)
  | .renumber group, now, db => db.writing (db.rows.renumber db.gap group now)

/-- The store that keeps its nodes as rows. -/
def store : Store Database := ⟨serve⟩

end Database

end Outline
