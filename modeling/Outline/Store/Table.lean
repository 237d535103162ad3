import Outline.Store.Row

/-!
# A table of rows

The statements that a store makes on its table of nodes. Each looks at the text in the columns, so
a row whose text no longer names a node is still found, moved and removed by that text.

The table has two constraints: no two rows have the same identifier text, and no two rows have the
same slot, which is the text of the space, the text of the parent (empty when there is none) and
the key. A statement that would break a constraint fails and changes nothing. Removing a row
removes every row whose parent text names it, and so on down.

Main results:

* `update?_eq_none_iff` — an update fails exactly when another row has the new slot.
-/

namespace Outline

/-- What the unique index of keys compares. -/
structure Slot where
  space : String
  parent : String
  sort : SortKey
  deriving DecidableEq

namespace Row

def slot (r : Row) : Slot := ⟨r.space, r.parent.getD "", r.sort⟩

end Row

abbrev Table : Type := List Row

namespace Table

/-- The constraint that a new row breaks; the index of keys is checked first. -/
inductive Conflict where
  | slot
  | id

/-! ## Statements that change rows -/

def insert (t : Table) (r : Row) : Except Conflict Table :=
  if t.any (·.slot = r.slot) then .error .slot
  else if t.any (·.id = r.id) then .error .id
  else .ok (t ++ [r])

/-- Change the row with an identifier, if there is one, in columns that no constraint is about. -/
def edit (t : Table) (id : String) (change : Row → Row) : Table :=
  t.map fun q => if q.id = id then change q else q

/-- Change the row with an identifier, if there is one; `none` when another row has the slot that
it would get. -/
def update? (t : Table) (id : String) (change : Row → Row) : Option Table :=
  match t.find? (·.id = id) with
  | none => some t
  | some r =>
    if t.any fun q => q.id ≠ id ∧ q.slot = (change r).slot then none
    else some (t.edit id change)

/-- Remove the rows named by `ids` and, round by round, those whose parent was removed. Each round
but the last removes a row, so there are no more rounds than rows. -/
def cascade : Nat → List String → Table → Table
  | 0, _, t => t
  | rounds + 1, ids, t =>
    -- a removed row is gone before its children are looked for, so a circle comes to an end
    let rest := t.filter fun r => r.id ∉ ids
    match (rest.filter fun r => r.parent.any (· ∈ ids)).map (·.id) with
    | [] => rest
    | orphans => cascade rounds orphans rest

/-- Remove the row of a space with an identifier, and everything below it. -/
def delete (t : Table) (id space : String) : Table :=
  if t.any fun r => r.id = id ∧ r.space = space then cascade (t.length + 1) [id] t else t

/-! ## Queries -/

def find (t : Table) (id : String) : Option Row :=
  t.find? (·.id = id)

/-- The rows of a group by ascending key. -/
def select (t : Table) (group : Group) : List Row :=
  (t.filter fun r =>
    r.space = group.space.toText ∧ r.parent = group.parent.map Uuid.toText).mergeSort
      (fun a b => a.sort.val ≤ b.sort.val)

def countSpace (t : Table) (space : Uuid) : Nat :=
  t.countP (·.space = space.toText)

/-- How many rows are reached from `ids` by going down at most `depth` levels, each way counted. -/
def countBelow (t : Table) : Nat → List String → Nat
  | 0, ids => ids.length
  | depth + 1, ids =>
    if ids = [] then 0
    else ids.length +
      t.countBelow depth (ids.flatMap fun id => (t.filter (·.parent = some id)).map (·.id))

/-- The row with an identifier and the rows above it, at most `depth` of them. -/
def chain (t : Table) (id : String) : Nat → List Row
  | 0 => (t.find id).toList
  | depth + 1 =>
    match t.find id with
    | none => []
    | some r =>
      r :: match r.parent with
        | none => []
        | some parent => t.chain parent depth

theorem update?_eq_none_iff {t : Table} {id : String} {change : Row → Row} :
    t.update? id change = none ↔
      ∃ r, t.find id = some r ∧ ∃ q ∈ t, q.id ≠ id ∧ q.slot = (change r).slot := by
  unfold update? find
  cases hr : t.find? (·.id = id) with
  | none => simp
  | some r =>
    simp only [Option.some.injEq, exists_eq_left']
    split
    · next h => simpa using h
    · next h => simpa using h

end Table

end Outline
