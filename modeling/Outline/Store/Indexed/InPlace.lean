import Outline.Store.InPlace
import Outline.Store.Indexed

/-!
# The indexed store at work

A commit first takes the places of the old versions out of the index, noting them, and puts them
back when one of the new places turns out to be taken. A space that is asked for in order to write
to it is there from then on, whether or not anything is written.

Main definitions:

* `Space.commitInPlace` — entering changes with the way back;
* `Shelf.live` — all calls.
-/

namespace Outline

namespace Space

/-- The places of the stored versions of `changes`, with the nodes that stand there. -/
def detached (s : Space) (changes : List Node) : List (Place × Uuid) :=
  changes.filterMap fun n => (s.nodes[n.id]?).map fun old => (old.place, old.id)

/-- Put places back into the index. -/
def attach (s : Space) (places : List (Place × Uuid)) : Space :=
  { s with places := places.foldl (fun index p => index.insert p.1 p.2) s.places }

/-- Enter one record. -/
def enter (s : Space) (n : Node) : Space where
  nodes := s.nodes.insert n.id n
  places := s.places.insert n.place n.id

def commitInPlace (space : Uuid) (changes : List Node) : Work Space Unit := do
  let detached ← .query fun s => .ok (s.detached changes)
  .alter fun s => { s with places := s.release changes }
  match ← .query fun s => .ok (conflict? s.places [] changes) with
  | some n =>
    .alter (·.attach detached)
    throw (.duplicateSort ⟨space, n.parent⟩ n.sort)
  | none => .alter fun s => changes.foldl enter s

def planInsert (s : Space) (gap : Gap) (n : Node) (entry : Shelf.Entry) (now : Timestamp) :
    Except StoreError (List Node) := do
  let parent ← s.getParent n.parent
  (checkParent n.kind n.space parent).mapError .violation
  match entry with
  | .own => pure [n]
  | .last => do
    let placement ← gap.placeIn n.group (s.siblings n.parent) n.id .last
    pure (s.changesForNew n now placement)

def insertInPlace (gap : Gap) (n : Node) (entry : Shelf.Entry) (now : Timestamp) :
    Work Space Unit := do
  let changes ← .query (·.planInsert gap n entry now)
  commitInPlace n.space changes

def updateInPlace (id : Uuid) (patch : Patch) (now : Timestamp) : Work Space Node := do
  let n ← .query (·.get id)
  .query fun _ => (n.patch patch now).check.mapError (.invalidRecord ∘ .defect)
  .alter fun s => { s with nodes := s.nodes.insert id (n.patch patch now) }
  return n.patch patch now

/-- Remove a node and all below it, and tell which nodes those were. -/
def removeInPlace (id : Uuid) : Work Space (List Uuid) := do
  let n ← .query (·.get id)
  let ids ← .query fun s => .ok (s.branch id)
  .alter (·.remove n ids)
  return ids

def moveInPlace (space : Uuid) (gap : Gap) (id : Uuid)
    (parent : Space → Except StoreError (Option Uuid)) (target : Target) (now : Timestamp) :
    Work Space Node := do
  let parent ← .query parent
  let changes ← .query (·.planMove gap id parent target now)
  commitInPlace space changes
  .query (·.get id)

def renumberInPlace (gap : Gap) (group : Group) (now : Timestamp) : Work Space (List Node) := do
  let _ ← .query (·.getParent group.parent)
  let members ← .query fun s => (gap.compact (s.siblings group.parent)).mapError (.exhausted group)
  let changes ← .query fun s => .ok (members.filterMap (s.rekeyed? now))
  commitInPlace group.space changes
  .query fun s => .ok (s.children group.parent)

end Space

namespace Shelf

/-- Let a space be there. -/
def openSpace (id : Uuid) : Work Shelf Unit :=
  .alter fun s => if s.spaces.contains id then s else s.putSpace id .empty

/-- The space of a stored node, which is there from now on. -/
def openSpaceOf (id : Uuid) : Work Shelf Uuid := do
  let space ← .query (·.spaceOf id)
  openSpace space
  return space

/-- Work in a space. -/
def inSpace {α : Type} (id : Uuid) (w : Work Space α) : Work Shelf α := fun s =>
  match w (s.space id) with
  | .ok a space => .ok a (s.putSpace id space)
  | .error e space => .error e (s.putSpace id space)

/-- Go on if a space exists. -/
def ifExists {α : Type} (id : Uuid) (otherwise : Except StoreError α) (w : Work Shelf α) :
    Work Shelf α := do
  if ← .query fun s => .ok (s.spaces.contains id) then w
  else .query fun _ => otherwise

/-- What is below a parent that does not exist, or below none in a space that does not exist. -/
def absent (parent : Option Uuid) : Except StoreError (List Node) :=
  match parent with
  | some id => .error (.notFound id)
  | none => .ok []

def getLive (id : Uuid) : Work Shelf Node := do
  let space ← openSpaceOf id
  inSpace space (.query (·.get id))

def listLive (group : Group) : Work Shelf (List Node) :=
  ifExists group.space (absent group.parent) <| inSpace group.space do
    let _ ← .query (·.getParent group.parent)
    .query fun space => .ok (space.children group.parent)

def nextSortLive (group : Group) : Work Shelf SortKey := do
  openSpace group.space
  .query (·.nextSort group)

def insertLive (n : Node) (entry : Entry) (now : Timestamp) : Work Shelf Node := do
  .query fun _ => n.check.mapError (.invalidRecord ∘ .defect)
  openSpace n.space
  if ← .query fun s => .ok (s.locator.contains n.id) then
    throw (.invalidRecord (.alreadyExists n.id))
  let gap ← .query fun s => .ok s.gap
  inSpace n.space (Space.insertInPlace gap n entry now)
  .alter fun s => { s with locator := s.locator.insert n.id n.space }
  inSpace n.space (.query (·.get n.id))

def updateLive (id : Uuid) (patch : Patch) (now : Timestamp) : Work Shelf Node := do
  let space ← openSpaceOf id
  inSpace space (Space.updateInPlace id patch now)

def deleteLive (space id : Uuid) : Work Shelf Nat :=
  ifExists space (.error (.notFound id)) do
    let ids ← inSpace space (Space.removeInPlace id)
    .alter fun s => { s with locator := s.locator.filter fun id _ => id ∉ ids }
    return ids.length

def relocateLive (id : Uuid) (parent : Space → Except StoreError (Option Uuid)) (target : Target)
    (now : Timestamp) : Work Shelf Node := do
  let space ← openSpaceOf id
  let gap ← .query fun s => .ok s.gap
  inSpace space (Space.moveInPlace space gap id parent target now)

def moveBesideLive (id anchor : Uuid) (side : Side) (now : Timestamp) : Work Shelf Node := do
  if anchor = id then throw (.invalidRecord .besideItself)
  relocateLive id (fun space => (space.get anchor).map (·.parent)) (.beside anchor side) now

def renumberLive (group : Group) (now : Timestamp) : Work Shelf (List Node) :=
  ifExists group.space (absent group.parent) do
    let gap ← .query fun s => .ok s.gap
    inSpace group.space (Space.renumberInPlace gap group now)

def performLive : (c : StoreCall) → Timestamp → Work Shelf c.Answer
  | .get id, _ => getLive id
  | .create n, now => insertLive n .own now
  | .createLast n, now => insertLive n .last now
  | .update id patch, now => updateLive id patch now
  | .delete space id, _ => deleteLive space id
  | .list group, _ => listLive group
  | .nextSort group, _ => nextSortLive group
  | .moveLast id parent, now => relocateLive id (fun _ => .ok parent) .last now
  | .moveAt id parent sort, now => relocateLive id (fun _ => .ok parent) (.at sort) now
  | .reorder id sort, now =>
    relocateLive id (fun space => (space.get id).map (·.parent)) (.at sort) now
  | .moveBeside id anchor side, now => moveBesideLive id anchor side now
  | .renumber group, now => renumberLive group now

/-- The store in memory at work. -/
def live : Live Shelf := ⟨performLive⟩

end Shelf

end Outline
