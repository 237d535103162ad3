import Outline.SortKey
import Outline.Uuid

/-!
# Placing a node among its siblings

A sibling group is ordered by sort key. Placing a node either gives that node alone a new key, or,
when no key is free at the wanted position, gives the whole group the keys `gap`, `2 * gap`, … with
the node at its position. The group is then said to be respread. When even those keys do not fit in
64 bits the group is exhausted.

Main results:

* `mem_others` — the members a placement looks at are the group without the node being placed;
* `others_perm` — each of them once, whatever order the group was listed in.
-/

namespace Outline

/-- A member of a sibling group with its key. -/
structure Sibling where
  id : Uuid
  sort : SortKey
  deriving DecidableEq

/-- The side of an anchor on which a node is put. -/
inductive Side where
  | before
  | after
  deriving DecidableEq

/-- Where in a group a node is to be placed. -/
inductive Target where
  | last
  | at (sort : SortKey)
  | beside (anchor : Uuid) (side : Side)
  deriving DecidableEq

/-- What a placement changes. -/
inductive Placement where
  /-- The placed node takes this key and no sibling changes. -/
  | key (sort : SortKey)
  /-- Every member takes the key listed for it, the placed node among them. -/
  | respread (members : List Sibling)
  deriving DecidableEq

/-- The keys of a whole group do not fit: how many members it has, and at which gap. -/
structure Exhausted where
  members : Nat
  gap : Int
  deriving DecidableEq

namespace Exhausted

def message (e : Exhausted) : String :=
  s!"sort keyspace exhausted: {e.members} siblings do not fit at gap {e.gap}"

end Exhausted

namespace Placement

/-- The key the placement gives to `id`; a lone key is the placed node's whatever the id. -/
def keyFor? (p : Placement) (id : Uuid) : Option SortKey :=
  match p with
  | .key sort => some sort
  | .respread members => (members.find? (·.id = id)).map (·.sort)

def isRespread : Placement → Bool
  | .key _ => false
  | .respread _ => true

end Placement

namespace Sibling

/-- Ascending by key; members with equal keys keep the order in which they are listed. -/
def sorted (group : List Sibling) : List Sibling :=
  group.mergeSort (fun a b => a.sort.val ≤ b.sort.val)

/-- The group in key order without the node being placed. -/
def others (group : List Sibling) (moving : Uuid) : List Sibling :=
  sorted (group.filter (·.id ≠ moving))

end Sibling

namespace Gap

/-- The key after `last`, the largest key of a group; `none` when it does not fit. -/
def next? (gap : Gap) : Option SortKey → Option SortKey
  | none => some gap.size
  | some last => SortKey.ofInt? (last.val + gap.size.val)

/-- The middle between two bounds, rounded to the lower one; `none` when nothing lies between. -/
def midpoint? (below above : Int) : Option SortKey :=
  if above - below < 2 then none else SortKey.ofInt? (below + (above - below) / 2)

/-- A key strictly between the keys of two neighbours. Before a first sibling the lower bound is
zero, so that keys stay positive. -/
def between? (gap : Gap) : Option SortKey → Option SortKey → Option SortKey
  | below, none => gap.next? below
  | none, some above => midpoint? 0 above.val
  | some below, some above => midpoint? below.val above.val

/-- The keys `(n + 1) * gap`, `(n + 2) * gap`, … for `ids` in turn; `none` when one does not fit. -/
def spreadFrom? (gap : Gap) (n : Nat) : List Uuid → Option (List Sibling)
  | [] => some []
  | id :: rest =>
    match SortKey.ofInt? ((n + 1) * gap.size.val), gap.spreadFrom? (n + 1) rest with
    | some sort, some members => some (⟨id, sort⟩ :: members)
    | _, _ => none

/-- The keys `gap`, `2 * gap`, … for `ids` in turn. -/
def spread (gap : Gap) (ids : List Uuid) : Except Exhausted (List Sibling) :=
  match gap.spreadFrom? 0 ids with
  | some members => .ok members
  | none => .error ⟨ids.length, gap.size.val⟩

/-- Respread an existing group in its present order. -/
def compact (gap : Gap) (group : List Sibling) : Except Exhausted (List Sibling) :=
  gap.spread ((Sibling.sorted group).map (·.id))

/-- Respread a group with `moving` between `left` and `right`. -/
def respread (gap : Gap) (left : List Sibling) (moving : Uuid) (right : List Sibling) :
    Except Exhausted Placement :=
  (gap.spread (left.map (·.id) ++ moving :: right.map (·.id))).map .respread

/-- Put `moving` between `left` and `right`, with a key of its own if one is free there. -/
def placeBetween (gap : Gap) (left : List Sibling) (moving : Uuid) (right : List Sibling) :
    Except Exhausted Placement :=
  match gap.between? (left.getLast?.map (·.sort)) (right.head?.map (·.sort)) with
  | some sort => .ok (.key sort)
  | none => gap.respread left moving right

/-- Put `moving` at the end of the group. -/
def placeLast (gap : Gap) (group : List Sibling) (moving : Uuid) : Except Exhausted Placement :=
  gap.placeBetween (Sibling.others group moving) moving []

/-- Put `moving` at the key `target`, or directly before the sibling that holds it. -/
def placeAt (gap : Gap) (group : List Sibling) (moving : Uuid) (target : SortKey) :
    Except Exhausted Placement :=
  let others := Sibling.others group moving
  -- a key that no sibling holds is taken as it is
  match others.dropWhile (·.sort ≠ target) with
  | [] => .ok (.key target)
  | right => gap.respread (others.takeWhile (·.sort ≠ target)) moving right

/-- Put `moving` directly before or after `anchor`; `none` when the anchor is not a sibling. -/
def placeBeside (gap : Gap) (group : List Sibling) (moving anchor : Uuid) (side : Side) :
    Option (Except Exhausted Placement) :=
  let others := Sibling.others group moving
  let left := others.takeWhile (·.id ≠ anchor)
  match others.dropWhile (·.id ≠ anchor), side with
  | [], _ => none
  | found :: right, .before => some (gap.placeBetween left moving (found :: right))
  | found :: right, .after => some (gap.placeBetween (left ++ [found]) moving right)

end Gap

/-! ## The members a placement looks at -/

namespace Sibling

theorem others_perm (group : List Sibling) (moving : Uuid) :
    (others group moving).Perm (group.filter (·.id ≠ moving)) :=
  List.mergeSort_perm _ _

theorem mem_others {group : List Sibling} {moving : Uuid} {s : Sibling} :
    s ∈ others group moving ↔ s ∈ group ∧ s.id ≠ moving := by
  simp [(others_perm group moving).mem_iff]

end Sibling

end Outline
