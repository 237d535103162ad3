import Outline.Json.Record
import Outline.Node.Basic
import Outline.Timestamp.Text

/-!
# JSON forms of nodes

Each type of the model has one written form, a record with its fields in a fixed order, and a
reader that takes every text `Outline.Json.Record` allows for it. Identifiers are read in every
accepted notation and times loosely; both are written in one.
-/

namespace Outline

open Json (Reader Fields Form writeRecord writeString writeInt writeOption)

namespace Uuid

def reader : Reader Uuid := .ofText ofText?

def writeJson (id : Uuid) : List Char := writeString id.toText

end Uuid

namespace Timestamp

def reader : Reader Timestamp := .ofText ofLooseText?

def writeJson (t : Timestamp) : List Char := writeString t.toText

end Timestamp

namespace SortKey

def writeJson (k : SortKey) : List Char := writeInt k.val

end SortKey

namespace Kind

def reader : Reader Kind := .choice ofName?

def writeJson (k : Kind) : List Char := writeString k.name

end Kind

namespace Side

def name : Side → String
  | .before => "before"
  | .after => "after"

def ofName? (s : String) : Option Side :=
  if s = "before" then some .before else if s = "after" then some .after else none

def reader : Reader Side := .choice ofName?

def writeJson (s : Side) : List Char := writeString s.name

end Side

namespace Group

def reader : Reader Group
  | depth, form => do
    let fields ← Fields.ofForm? ["spaceId", "parentId"] depth form
    return {
      space := ← fields.required "spaceId" Uuid.reader
      parent := ← fields.optional "parentId" Uuid.reader }

def writeJson (g : Group) : List Char :=
  writeRecord [
    ("spaceId", g.space.writeJson),
    ("parentId", writeOption Uuid.writeJson g.parent)]

end Group

namespace Node

def reader : Reader Node
  | depth, form => do
    let fields ← Fields.ofForm? ["id", "spaceId", "type", "parentId", "title", "properties",
      "sort", "archived", "createdAt", "updatedAt"] depth form
    return {
      id := ← fields.required "id" Uuid.reader
      space := ← fields.required "spaceId" Uuid.reader
      kind := ← fields.required "type" Kind.reader
      parent := ← fields.optional "parentId" Uuid.reader
      title := ← fields.defaulted "title" .text ""
      properties := ← fields.required "properties" .value
      sort := ← fields.required "sort" .sortKey
      archived := ← fields.defaulted "archived" .bool false
      created := ← fields.required "createdAt" Timestamp.reader
      updated := ← fields.required "updatedAt" Timestamp.reader }

def writeJson (n : Node) : List Char :=
  writeRecord [
    ("id", n.id.writeJson),
    ("spaceId", n.space.writeJson),
    ("type", n.kind.writeJson),
    ("parentId", writeOption Uuid.writeJson n.parent),
    ("title", writeString n.title),
    ("properties", n.properties.write),
    ("sort", n.sort.writeJson),
    ("archived", (Json.bool n.archived).write),
    ("createdAt", n.created.writeJson),
    ("updatedAt", n.updated.writeJson)]

end Node

namespace Draft

def reader : Reader Draft
  | depth, form => do
    let fields ← Fields.ofForm? ["id", "spaceId", "type", "parentId", "title", "properties"]
      depth form
    return {
      id := ← fields.defaultedOptional "id" Uuid.reader
      space := ← fields.required "spaceId" Uuid.reader
      kind := ← fields.defaultedOptional "type" Kind.reader
      parent := ← fields.defaultedOptional "parentId" Uuid.reader
      title := ← fields.defaulted "title" .text ""
      properties := ← fields.defaulted "properties" .value Json.emptyObject }

/-- The identifier and the kind are left out when there are none. -/
def writeJson (d : Draft) : List Char :=
  writeRecord (
    (d.id.map fun id => ("id", id.writeJson)).toList ++
    ("spaceId", d.space.writeJson) ::
    ((d.kind.map fun kind => ("type", kind.writeJson)).toList ++ [
    ("parentId", writeOption Uuid.writeJson d.parent),
    ("title", writeString d.title),
    ("properties", d.properties.write)]))

end Draft

namespace Patch

def reader : Reader Patch
  | depth, form => do
    let fields ← Fields.ofForm? ["title", "properties", "archived"] depth form
    return {
      title := ← fields.optional "title" .text
      properties := ← fields.optional "properties" .value
      archived := ← fields.optional "archived" .bool }

/-- Only what the patch changes is written. -/
def writeJson (p : Patch) : List Char :=
  writeRecord (
    (p.title.map fun title => ("title", writeString title)).toList ++
    (p.properties.map fun properties => ("properties", properties.write)).toList ++
    (p.archived.map fun archived => ("archived", (Json.bool archived).write)).toList)

end Patch

namespace Tree

/-- The list of children takes up a level of nesting of its own. -/
def reader : Reader Tree
  | depth + 2, form => do
    let fields ← Fields.ofForm? ["node", "children"] (depth + 2) form
    let node ← fields.required "node" Node.reader
    match fields.given.lookup "children" with
    | some (.arr items) => return .node node (← items.mapM (reader depth))
    | _ => none
  | _, _ => none

mutual

def writeJson : Tree → List Char
  | .node root children =>
    writeRecord [("node", root.writeJson), ("children", '[' :: writeJsonList children)]

/-- The trees of a list, and the bracket that closes it. -/
def writeJsonList : List Tree → List Char
  | [] => [']']
  | t :: rest => t.writeJson ++ writeJsonMore rest

def writeJsonMore : List Tree → List Char
  | [] => [']']
  | t :: rest => ',' :: (t.writeJson ++ writeJsonMore rest)

end

end Tree

end Outline
