import Outline.Store.Call
import Std.Data.ExtTreeMap

/-!
# The indexed store

Nodes are held in memory, space by space. A space has a table of its nodes and an index from
places to nodes, a place being a parent and a sort key; the index gives the members of a group in
order. The store as a whole has a locator that tells in which space a node lives.

A write is a set of changed records that is committed at once: the places of their stored versions
are freed, and if then each record finds its place free, all of them are entered. Otherwise the
store refuses and nothing is entered.

Main results:

* `Place.compare_lawful` — the index tells all places apart.
-/

namespace Outline

/-- A position in a space. -/
structure Place where
  parent : Option Uuid
  sort : SortKey
  deriving DecidableEq

namespace Place

instance : Ord Place := ⟨compareLex (compareOn Place.parent) (compareOn Place.sort)⟩

instance compare_trans : Std.TransOrd Place :=
  inferInstanceAs (Std.TransCmp (compareLex (compareOn Place.parent) (compareOn Place.sort)))

instance compare_lawful : Std.LawfulEqOrd Place where
  eq_of_compare {a b} h := by
    have h : compareLex (compareOn Place.parent) (compareOn Place.sort) a b = .eq := h
    obtain ⟨h1, h2⟩ := compareLex_eq_eq.1 h
    obtain ⟨p, s⟩ := a
    obtain ⟨q, t⟩ := b
    obtain rfl : p = q := Std.LawfulEqCmp.eq_of_compare h1
    obtain rfl : s = t := Std.LawfulEqCmp.eq_of_compare h2
    rfl

end Place

namespace Node

def place (n : Node) : Place := ⟨n.parent, n.sort⟩

end Node

/-- The nodes of one space, and which of them is at which place. -/
structure Space where
  nodes : Std.ExtTreeMap Uuid Node
  places : Std.ExtTreeMap Place Uuid

namespace Space

def empty : Space := ⟨∅, ∅⟩

/-- The node with an identifier, or the refusal that names it. -/
def get (s : Space) (id : Uuid) : Except StoreError Node :=
  match s.nodes[id]? with
  | some n => .ok n
  | none => .error (.notFound id)

/-- The node that is to be a parent, if one is given. -/
def getParent (s : Space) : Option Uuid → Except StoreError (Option Node)
  | none => .ok none
  | some id => (s.get id).map some

def parentOf (s : Space) (id : Uuid) : Option Uuid :=
  s.nodes[id]? >>= Node.parent

/-- The members of a group by ascending key. -/
def siblings (s : Space) (parent : Option Uuid) : List Sibling :=
  s.places.toList.filterMap fun (place, id) =>
    if place.parent = parent then some ⟨id, place.sort⟩ else none

def children (s : Space) (parent : Option Uuid) : List Node :=
  (s.siblings parent).filterMap fun m => s.nodes[m.id]?

/-! ## Committing changes -/

/-- The index without the places of the stored versions of `changes`. -/
def release (s : Space) (changes : List Node) : Std.ExtTreeMap Place Uuid :=
  changes.foldl (fun places n =>
    match s.nodes[n.id]? with
    | some old => places.erase old.place
    | none => places) s.places

/-- The first record whose place is in the index or among the places of the records before it. -/
def conflict? (places : Std.ExtTreeMap Place Uuid) (claimed : List Place) :
    List Node → Option Node
  | [] => none
  | n :: rest =>
    if places.contains n.place ∨ n.place ∈ claimed then some n
    else conflict? places (n.place :: claimed) rest

/-- Enter all of `changes`, records of the space `space`, or refuse for a place that is taken. -/
def commit (s : Space) (space : Uuid) (changes : List Node) : Except StoreError Space :=
  -- a record may take over the place of another that changes with it
  let places := s.release changes
  match conflict? places [] changes with
  | some n => .error (.duplicateSort ⟨space, n.parent⟩ n.sort)
  | none => .ok {
      nodes := changes.foldl (fun nodes n => nodes.insert n.id n) s.nodes
      places := changes.foldl (fun places n => places.insert n.place n.id) places }

/-! ## Changes that a placement makes -/

/-- The stored version of a member with its new key; `none` when the key stays. -/
def rekeyed? (s : Space) (now : Timestamp) (m : Sibling) : Option Node :=
  match s.nodes[m.id]? with
  | some n => if n.sort = m.sort then none else some (n.rekey m.sort now)
  | none => none

/-- The records that change when `n` is put under `parent`. -/
def changesFor (s : Space) (n : Node) (parent : Option Uuid) (now : Timestamp) :
    Placement → List Node
  | .key sort => [n.moveTo parent sort now]
  | .respread members =>
    members.filterMap fun m =>
      if m.id = n.id then some (n.moveTo parent m.sort now) else s.rekeyed? now m

/-- The records that change when `n` is created at the end of its group. With a key of its own a
new node keeps its times. -/
def changesForNew (s : Space) (n : Node) (now : Timestamp) : Placement → List Node
  | .key sort => [{ n with sort := sort }]
  | placement => s.changesFor n n.parent now placement

/-- The records that change when a node is moved. -/
def planMove (s : Space) (gap : Gap) (id : Uuid) (parent : Option Uuid) (target : Target)
    (now : Timestamp) : Except StoreError (List Node) := do
  let n ← s.get id
  let parentNode ← s.getParent parent
  (checkParent n.kind n.space parentNode).mapError .violation
  match parent with
  | some p => (checkAcyclic s.parentOf id p s.nodes.size).mapError .violation
  | none => pure ()
  let placement ← gap.placeIn ⟨n.space, parent⟩ (s.siblings parent) id target
  return s.changesFor n parent now placement

/-! ## Branches -/

/-- The nodes of a branch, level by level from `level` down. A branch has no more levels than its
space has nodes. -/
def levels (s : Space) : Nat → List Uuid → List Uuid
  | 0, _ => []
  | fuel + 1, level =>
    if level = [] then []
    else level ++ s.levels fuel (level.flatMap fun id => (s.siblings (some id)).map (·.id))

/-- A node and all nodes below it. -/
def branch (s : Space) (id : Uuid) : List Uuid :=
  s.levels s.nodes.size [id]

/-- The space without some nodes: their records, the place of the topmost of them, and the groups
below them. -/
def remove (s : Space) (top : Node) (ids : List Uuid) : Space where
  nodes := s.nodes.filter fun id _ => id ∉ ids
  places := s.places.filter fun place _ =>
    place ≠ top.place ∧ ∀ id ∈ ids, place.parent ≠ some id

end Space

/-- All spaces, and the space of each node. -/
structure Shelf where
  gap : Gap
  spaces : Std.ExtTreeMap Uuid Space
  locator : Std.ExtTreeMap Uuid Uuid

namespace Shelf

def empty (gap : Gap) : Shelf := ⟨gap, ∅, ∅⟩

def size (s : Shelf) : Nat := s.locator.size

/-- A space; one that holds nothing need not exist. -/
def space (s : Shelf) (id : Uuid) : Space :=
  s.spaces[id]?.getD .empty

/-- The space of a stored node. -/
def spaceOf (s : Shelf) (id : Uuid) : Except StoreError Uuid :=
  match s.locator[id]? with
  | some space => .ok space
  | none => .error (.notFound id)

def putSpace (s : Shelf) (id : Uuid) (space : Space) : Shelf :=
  { s with spaces := s.spaces.insert id space }

/-! ## Reading -/

def get (s : Shelf) (id : Uuid) : Except StoreError Node := do
  (s.space (← s.spaceOf id)).get id

def list (s : Shelf) (group : Group) : Except StoreError (List Node) := do
  let space := s.space group.space
  let _ ← space.getParent group.parent
  return space.children group.parent

def nextSort (s : Shelf) (group : Group) : Except StoreError SortKey :=
  let siblings := (s.space group.space).siblings group.parent
  match s.gap.next? (siblings.getLast?.map (·.sort)) with
  | some sort => .ok sort
  | none => .error (.exhausted group ⟨siblings.length, s.gap.size.val⟩)

/-! ## Writing -/

/-- Where a new node goes: to its own key, or to the end of its group. -/
inductive Entry where
  | own
  | last

/-- Store a new node. -/
def insert (s : Shelf) (n : Node) (entry : Entry) (now : Timestamp) :
    Except StoreError (Node × Shelf) := do
  n.check.mapError (.invalidRecord ∘ .defect)
  if s.locator.contains n.id then throw (.invalidRecord (.alreadyExists n.id))
  let space := s.space n.space
  let parent ← space.getParent n.parent
  (checkParent n.kind n.space parent).mapError .violation
  let changes ← match entry with
    | .own => pure [n]
    | .last => do
      let placement ← s.gap.placeIn n.group (space.siblings n.parent) n.id .last
      pure (space.changesForNew n now placement)
  let space ← space.commit n.space changes
  let stored ← space.get n.id
  return (stored, { s.putSpace n.space space with locator := s.locator.insert n.id n.space })

def update (s : Shelf) (id : Uuid) (patch : Patch) (now : Timestamp) :
    Except StoreError (Node × Shelf) := do
  let spaceId ← s.spaceOf id
  let space := s.space spaceId
  let n := (← space.get id).patch patch now
  n.check.mapError (.invalidRecord ∘ .defect)
  -- a patch keeps the place, so the index stays as it is
  return (n, s.putSpace spaceId { space with nodes := space.nodes.insert id n })

def delete (s : Shelf) (spaceId id : Uuid) : Except StoreError (Nat × Shelf) := do
  let space := s.space spaceId
  let n ← space.get id
  let ids := space.branch id
  return (ids.length, { s.putSpace spaceId (space.remove n ids) with
    locator := s.locator.filter fun id _ => id ∉ ids })

/-- Move a node to a place under the parent that `parent` finds in the node's space. -/
def relocate (s : Shelf) (id : Uuid) (parent : Space → Except StoreError (Option Uuid))
    (target : Target) (now : Timestamp) : Except StoreError (Node × Shelf) := do
  let spaceId ← s.spaceOf id
  let space := s.space spaceId
  let changes ← space.planMove s.gap id (← parent space) target now
  let space ← space.commit spaceId changes
  return (← space.get id, s.putSpace spaceId space)

def moveBeside (s : Shelf) (id anchor : Uuid) (side : Side) (now : Timestamp) :
    Except StoreError (Node × Shelf) :=
  if anchor = id then .error (.invalidRecord .besideItself)
  else s.relocate id (fun space => (space.get anchor).map (·.parent)) (.beside anchor side) now

def renumber (s : Shelf) (group : Group) (now : Timestamp) :
    Except StoreError (List Node × Shelf) := do
  let space := s.space group.space
  let _ ← space.getParent group.parent
  let members ← (s.gap.compact (space.siblings group.parent)).mapError (.exhausted group)
  let space ← space.commit group.space (members.filterMap (space.rekeyed? now))
  return (space.children group.parent, s.putSpace group.space space)

/-- A reading call leaves the state as it is. -/
def reading {α : Type} (s : Shelf) (outcome : Except StoreError α) :
    Except StoreError (α × Shelf) :=
  outcome.map (·, s)

def serve : (c : StoreCall) → Timestamp → Shelf → Except StoreError (c.Answer × Shelf)
  | .get id, _, s => s.reading (s.get id)
  | .create n, now, s => s.insert n .own now
  | .createLast n, now, s => s.insert n .last now
  | .update id patch, now, s => s.update id patch now
  | .delete space id, _, s => s.delete space id
  | .list group, _, s => s.reading (s.list group)
  | .nextSort group, _, s => s.reading (s.nextSort group)
  | .moveLast id parent, now, s => s.relocate id (fun _ => .ok parent) .last now
  | .moveAt id parent sort, now, s => s.relocate id (fun _ => .ok parent) (.at sort) now
  | .reorder id sort, now, s =>
    s.relocate id (fun space => (space.get id).map (·.parent)) (.at sort) now
  | .moveBeside id anchor side, now, s => s.moveBeside id anchor side now
  | .renumber group, now, s => s.renumber group now

/-- The store that keeps its nodes in memory. -/
def store : Store Shelf := ⟨serve⟩

end Shelf

end Outline
