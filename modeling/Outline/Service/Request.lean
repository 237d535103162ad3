import Outline.Service.Branch

/-!
# The operations of the service

Callers create, read, change, move and delete pages and blocks. A request is one operation with its
arguments, and `Request.operation` is the program for it. Each program first checks its arguments,
then fetches the nodes concerned and checks the rules, and makes at most one call that writes.
Writes that choose a sort key are made again after a conflict.

Main definitions:

* `Request.operation` — what each request does;
* `Service.perform` — a request within the time it is given.
-/

namespace Outline

-- powers are the built-in ones, whatever else is imported
attribute [local instance (2000)] instPowNat

inductive Request where
  | create (kind : Kind) (draft : Draft)
  | delete (kind : Kind) (space id : Uuid)
  | get (kind : Kind) (id : Uuid)
  | update (kind : Kind) (id : Uuid) (patch : Patch)
  /-- The children of a node in order, without the archived ones unless they are asked for. -/
  | children (kind : Kind) (id : Uuid) (archived : Bool)
  | roots (space : Uuid)
  /-- Move a node under a parent or to the roots, to a key or to the end. -/
  | move (kind : Kind) (id : Uuid) (parent : Option Uuid) (sort : Option SortKey)
  /-- Move a block under a parent, which it has to have. -/
  | moveBlock (id parent : Uuid) (sort : Option SortKey)
  | reorder (kind : Kind) (id : Uuid) (sort : SortKey)
  | moveBeside (kind : Kind) (id anchor : Uuid) (side : Side)
  | branch (kind : Kind) (id : Uuid)
  | renumber (group : Group)

/-- The result of a request. -/
inductive Answer where
  | node (n : Node)
  | nodes (ns : List Node)
  | count (n : Nat)
  | tree (t : Tree)

namespace Uuid

/-- The nil identifier stands for none. -/
def given (id : Option Uuid) : Option Uuid :=
  id.filter fun id => !id.isNil

end Uuid

namespace Operation

def requireId (operation : String) (kind : Kind) (id : Uuid) : Operation Unit :=
  if id.isNil then throw (.invalidArgument operation (.emptyId kind)) else pure ()

def requireSpace (operation : String) (space : Uuid) : Operation Unit :=
  if space.isNil then throw (.invalidArgument operation .emptySpace) else pure ()

def fetch (operation : String) (id : Uuid) : Operation Node :=
  ask operation (.get id)

/-- The node that is to be a parent, if one is given. -/
def fetchParent (operation : String) : Option Uuid → Operation (Option Node)
  | none => pure none
  | some id => do return some (← fetch operation id)

/-- A node of the kind that the operation is for. -/
def fetchKind (operation : String) (kind : Kind) (id : Uuid) : Operation Node := do
  let n ← fetch operation id
  require operation (checkKind n kind)
  return n

def create (config : Config) (kind : Kind) (draft : Draft) (now : Timestamp) (fresh : Uuid) :
    Operation Node := do
  let operation := s!"create_{kind}"
  requireSpace operation draft.space
  if draft.kind.getD kind ≠ kind then throw (.invalidArgument operation (.kindExpected kind))
  -- the nil identifier counts as a missing one, for the node and for its parent
  let draft := { draft with id := Uuid.given draft.id, parent := Uuid.given draft.parent }
  let parent ← fetchParent operation draft.parent
  require operation (checkParent kind draft.space parent)
  if draft.properties.isObject = false then
    throw (.invalidArgument operation .propertiesNotObject)
  retrying config.conflictRetries (ask operation (.createLast (draft.toNode kind now fresh)))

def delete (kind : Kind) (space id : Uuid) : Operation Nat := do
  let operation := s!"delete_{kind}"
  requireId operation kind id
  requireSpace operation space
  let n ← fetchKind operation kind id
  if n.space ≠ space then throw (.notFound id)
  ask operation (.delete space id)

def get (kind : Kind) (id : Uuid) : Operation Node := do
  let operation := s!"get_{kind}_properties"
  requireId operation kind id
  fetchKind operation kind id

def update (kind : Kind) (id : Uuid) (patch : Patch) : Operation Node := do
  let operation := s!"update_{kind}_properties"
  requireId operation kind id
  let n ← fetchKind operation kind id
  -- nothing to change, so nothing is written and the times stay
  if patch.isEmpty then return n
  if patch.properties.any (!·.isObject) then
    throw (.invalidArgument operation .propertiesNotObject)
  ask operation (.update id patch)

def children (kind : Kind) (id : Uuid) (archived : Bool) : Operation (List Node) := do
  let operation := s!"list_{kind}_children"
  requireId operation kind id
  let parent ← fetchKind operation kind id
  let listed ← ask operation (.list ⟨parent.space, some id⟩)
  return if archived then listed else listed.filter (!·.archived)

def roots (space : Uuid) : Operation (List Node) := do
  let operation := "list_root_pages"
  requireSpace operation space
  ask operation (.list ⟨space, none⟩)

def move (config : Config) (kind : Kind) (id : Uuid) (parent : Option Uuid)
    (sort : Option SortKey) : Operation Node := do
  let operation := s!"move_{kind}"
  requireId operation kind id
  let parent := Uuid.given parent
  -- refused before the node is looked up, so also for a node that does not exist
  if parent = some id then throw (.cycle id id)
  let n ← fetchKind operation kind id
  let parentNode ← fetchParent operation parent
  require operation (checkParent n.kind n.space parentNode)
  match sort with
  | some sort => retrying config.conflictRetries (ask operation (.moveAt id parent sort))
  | none => retrying config.conflictRetries (ask operation (.moveLast id parent))

def moveBlock (config : Config) (id parent : Uuid) (sort : Option SortKey) : Operation Node := do
  if parent.isNil then
    throw (.invalidArgument "move_block" (.violation (.missingParent .block)))
  move config .block id (some parent) sort

def reorder (config : Config) (kind : Kind) (id : Uuid) (sort : SortKey) : Operation Node := do
  let operation := s!"update_{kind}_sort"
  requireId operation kind id
  let _ ← fetchKind operation kind id
  retrying config.conflictRetries (ask operation (.reorder id sort))

def moveBeside (config : Config) (kind : Kind) (id anchor : Uuid) (side : Side) :
    Operation Node := do
  let operation := s!"move_{kind}_relative"
  requireId operation kind id
  if anchor.isNil then throw (.invalidArgument operation .emptyAnchor)
  if anchor = id then throw (.invalidArgument operation .besideItself)
  let n ← fetchKind operation kind id
  let anchorNode ← fetch operation anchor
  if anchorNode.space ≠ n.space then
    throw (.constraintViolation operation (.anchorSpace anchor anchorNode.space n.space))
  let parent ← fetchParent operation anchorNode.parent
  require operation (checkParent n.kind n.space parent)
  retrying config.conflictRetries (ask operation (.moveBeside id anchor side))

def branch (kind : Kind) (id : Uuid) : Operation Tree := do
  let operation := s!"get_{kind}_subtree"
  requireId operation kind id
  let root ← fetchKind operation kind id
  match Branch.tree? (← Branch.collect operation root.space (2 ^ (128 : Nat)) [] [root]) with
  | some t => return t
  | none => throw (.notFound id)

def renumber (group : Group) : Operation (List Node) := do
  let operation := "renumber_children"
  requireSpace operation group.space
  let parent := Uuid.given group.parent
  if let some id := parent then
    let n ← fetch operation id
    if n.space ≠ group.space then throw (.notFound id)
  ask operation (.renumber ⟨group.space, parent⟩)

end Operation

namespace Request

/-- The name of the operation in messages. -/
def name : Request → String
  | .create kind _ => s!"create_{kind}"
  | .delete kind _ _ => s!"delete_{kind}"
  | .get kind _ => s!"get_{kind}_properties"
  | .update kind _ _ => s!"update_{kind}_properties"
  | .children kind _ _ => s!"list_{kind}_children"
  | .roots _ => "list_root_pages"
  | .move kind _ _ _ => s!"move_{kind}"
  | .moveBlock _ _ _ => "move_block"
  | .reorder kind _ _ => s!"update_{kind}_sort"
  | .moveBeside kind _ _ _ => s!"move_{kind}_relative"
  | .branch kind _ => s!"get_{kind}_subtree"
  | .renumber _ => "renumber_children"

/-- The program of a request made at `now`; a node that it creates without an identifier gets
`fresh`. -/
def operation (config : Config) (now : Timestamp) (fresh : Uuid) : Request → Operation Answer
  | .create kind draft => .node <$> Operation.create config kind draft now fresh
  | .delete kind space id => .count <$> Operation.delete kind space id
  | .get kind id => .node <$> Operation.get kind id
  | .update kind id patch => .node <$> Operation.update kind id patch
  | .children kind id archived => .nodes <$> Operation.children kind id archived
  | .roots space => .nodes <$> Operation.roots space
  | .move kind id parent sort => .node <$> Operation.move config kind id parent sort
  | .moveBlock id parent sort => .node <$> Operation.moveBlock config id parent sort
  | .reorder kind id sort => .node <$> Operation.reorder config kind id sort
  | .moveBeside kind id anchor side => .node <$> Operation.moveBeside config kind id anchor side
  | .branch kind id => .tree <$> Operation.branch kind id
  | .renumber group => .nodes <$> Operation.renumber group

end Request

namespace Service

/-- The configuration, if a service accepts it. -/
def open? (config : Config) : Except ServiceError Config :=
  match config.check with
  | .ok () => .ok config
  | .error fault => .error (.invalidConfig fault)

/-- The end of an operation: one that never returns is cancelled when its time is limited. -/
def deadline {α : Type} (config : Config) (operation : String) :
    Option (Except ServiceError α) → Option (Except ServiceError α)
  | some outcome => some outcome
  | none => if config.timeout.isSome then some (.error (.cancelled operation)) else none

/-- Perform a request; `none` when it never ends. -/
def perform {σ : Type} (config : Config) (server : Server σ) (now : Timestamp) (fresh : Uuid)
    (request : Request) (s : σ) : Option (Except ServiceError Answer) × σ :=
  let (outcome, s) := (request.operation config now fresh).run.run server s
  (deadline config request.name outcome, s)

end Service

end Outline
