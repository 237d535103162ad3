import Outline.Json.Value
import Outline.Placement
import Outline.Timestamp.Basic

/-!
# Pages, blocks and trees

An outline is a forest of nodes. Every node belongs to one space, is a page or a block, and may
have a parent. The nodes with one space and one parent form a sibling group and are ordered by
their sort keys. Title and properties are payload and never decide a position.

Besides the stored record this module holds what callers hand in: a `Draft` of a node to create, a
`Patch` of its payload, and what they get back from a whole branch, a `Tree`.

Main results:

* `Node.check_eq_ok_iff` — which records are sound on their own.
-/

namespace Outline

inductive Kind where
  /-- A document: a root or below another page. -/
  | page
  /-- Content: always below a page or a block. -/
  | block
  deriving DecidableEq

namespace Kind

def name : Kind → String
  | .page => "page"
  | .block => "block"

instance : ToString Kind := ⟨name⟩

def ofName? (s : String) : Option Kind :=
  if s = "page" then some .page else if s = "block" then some .block else none

theorem ofName?_name (k : Kind) : ofName? k.name = some k := by
  cases k <;> rfl

end Kind

/-- A sibling group: the nodes of one space with one parent, or its roots. -/
structure Group where
  space : Uuid
  parent : Option Uuid
  deriving DecidableEq

namespace Group

def text (g : Group) : String :=
  match g.parent with
  | some parent => s!"{g.space}/{parent}"
  | none => s!"{g.space}/<root>"

instance : ToString Group := ⟨text⟩

end Group

/-- A stored page or block. -/
structure Node where
  id : Uuid
  space : Uuid
  kind : Kind
  parent : Option Uuid
  title : String
  properties : Json
  /-- The position among the siblings; no two siblings have the same. -/
  sort : SortKey
  /-- Left out of listings that ask for live nodes only. -/
  archived : Bool
  created : Timestamp
  updated : Timestamp

/-- What is wrong with a record, or with the text of a kind. -/
inductive Defect where
  | missingId
  | missingSpace
  | unknownKind (text : String)
  | ownParent
  | propertiesNotObject
  deriving DecidableEq

namespace Defect

def message : Defect → String
  | .missingId => "Missing required field: id"
  | .missingSpace => "Missing required field: space_id"
  | .unknownKind text => s!"Invalid node type: {text}"
  | .ownParent => "Invalid parent reference: Node cannot be its own parent"
  | .propertiesNotObject => "Properties validation failed: properties must be a JSON object"

end Defect

namespace Kind

def parse (s : String) : Except Defect Kind :=
  match ofName? s with
  | some kind => .ok kind
  | none => .error (.unknownKind s)

theorem parse_name (k : Kind) : parse k.name = .ok k := by
  rw [parse, ofName?_name]

end Kind

/-- What a caller gives to create a node; a missing kind is that of the operation. -/
structure Draft where
  id : Option Uuid
  space : Uuid
  kind : Option Kind
  parent : Option Uuid
  title : String
  properties : Json

namespace Draft

/-- A draft without a kind. -/
def new (space : Uuid) : Draft :=
  ⟨none, space, none, none, "", Json.emptyObject⟩

def page (space : Uuid) : Draft :=
  { new space with kind := some .page }

def block (space parent : Uuid) : Draft :=
  { new space with kind := some .block, parent := some parent }

/-- The record of the draft, made at `now`: `fresh` is its identifier unless the draft has one. The
sort key is left to the store. -/
def toNode (d : Draft) (kind : Kind) (now : Timestamp) (fresh : Uuid) : Node where
  id := d.id.getD fresh
  space := d.space
  kind := kind
  parent := d.parent
  title := d.title
  properties := d.properties
  sort := .zero
  archived := false
  created := now
  updated := now

end Draft

/-- A change of payload: what is given replaces what is stored. -/
structure Patch where
  title : Option String
  properties : Option Json
  archived : Option Bool

namespace Patch

def empty : Patch := ⟨none, none, none⟩

def isEmpty (p : Patch) : Bool :=
  p.title.isNone && p.properties.isNone && p.archived.isNone

end Patch

namespace Node

def group (n : Node) : Group := ⟨n.space, n.parent⟩

/-- The node as a member of its sibling group. -/
def sibling (n : Node) : Sibling := ⟨n.id, n.sort⟩

def isRoot (n : Node) : Bool :=
  n.parent.isNone

/-- Check what a record shows on its own: the first defect, if any. -/
def check (n : Node) : Except Defect Unit :=
  if n.id.isNil then .error .missingId
  else if n.space.isNil then .error .missingSpace
  else if n.properties.isObject = false then .error .propertiesNotObject
  else if n.parent = some n.id then .error .ownParent
  else .ok ()

/-- Change the payload at `now`; the position stays. -/
def patch (n : Node) (p : Patch) (now : Timestamp) : Node :=
  { n with
    title := p.title.getD n.title
    properties := p.properties.getD n.properties
    archived := p.archived.getD n.archived
    updated := now }

/-- Give the node another key at `now`. -/
def rekey (n : Node) (sort : SortKey) (now : Timestamp) : Node :=
  { n with sort := sort, updated := now }

/-- Put the node under `parent` with the key `sort` at `now`. -/
def moveTo (n : Node) (parent : Option Uuid) (sort : SortKey) (now : Timestamp) : Node :=
  { n with parent := parent, sort := sort, updated := now }

theorem check_eq_ok_iff {n : Node} :
    n.check = .ok () ↔
      n.id ≠ .nil ∧ n.space ≠ .nil ∧ n.properties.isObject = true ∧ n.parent ≠ some n.id := by
  unfold check Uuid.isNil
  repeat' split
  all_goals simp_all

end Node

/-- A node with the trees of its children in order. -/
inductive Tree where
  | node (root : Node) (children : List Tree)

namespace Tree

def root : Tree → Node
  | .node root _ => root

def children : Tree → List Tree
  | .node _ children => children

def leaf (n : Node) : Tree := .node n []

mutual

/-- How many nodes the tree holds. -/
def size : Tree → Nat
  | .node _ children => 1 + sizes children

def sizes : List Tree → Nat
  | [] => 0
  | t :: rest => t.size + sizes rest

end

end Tree

end Outline
