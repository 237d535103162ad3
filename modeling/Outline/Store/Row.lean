import Outline.Json.Meaning
import Outline.Store.Error
import Outline.Timestamp.Text

/-!
# Nodes as rows of a table

A row holds a node in ten columns. Identifiers, the kind, the properties and the times are text,
the key and the archived flag are integers. Rows are read back column by column, and the first
column whose text has no value is named.
-/

namespace Outline

structure Row where
  id : String
  space : String
  kind : String
  parent : Option String
  title : String
  properties : String
  sort : SortKey
  archived : Int
  created : String
  updated : String
  deriving DecidableEq

namespace Row

def ofNode (n : Node) : Row where
  id := n.id.toText
  space := n.space.toText
  kind := n.kind.name
  parent := n.parent.map Uuid.toText
  title := n.title
  properties := n.properties.text
  sort := n.sort
  archived := if n.archived then 1 else 0
  created := n.created.toOffsetText
  updated := n.updated.toOffsetText

/-- The value that `parse` finds in a column. -/
def column {α : Type} (parse : String → Option α) (name text : String) : Except RecordFault α :=
  match parse text with
  | some a => .ok a
  | none => .error (.badColumn name text)

def readId (r : Row) : Except RecordFault Uuid :=
  column Uuid.ofText? "id" r.id

def readParent (r : Row) : Except RecordFault (Option Uuid) :=
  match r.parent with
  | none => .ok none
  | some text => (column Uuid.ofText? "parent_id" text).map some

def readProperties (r : Row) : Except RecordFault Json :=
  match Json.ofText? r.properties with
  | some v => .ok v
  | none => .error .badProperties

/-- The node in a row, or what is wrong with its first bad column. -/
def toNode (r : Row) : Except RecordFault Node := do
  return {
    id := ← r.readId
    space := ← column Uuid.ofText? "space_id" r.space
    kind := ← (Kind.parse r.kind).mapError .defect
    parent := ← r.readParent
    title := r.title
    properties := ← r.readProperties
    sort := r.sort
    archived := decide (r.archived ≠ 0)
    created := ← column Timestamp.ofText? "created_at" r.created
    updated := ← column Timestamp.ofText? "updated_at" r.updated }

end Row

end Outline
