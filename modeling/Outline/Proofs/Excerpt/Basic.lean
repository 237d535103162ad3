import Outline.Proofs.Forest.Basic
import Outline.Proofs.Undated

/-!
# Excerpts of nodes

Whoever looks at a store may look at some of its spaces only, and may look at the places of nodes
only. An excerpt says which: it shows the nodes of the spaces that it sees, with their payload or
without it, and never their times. What a store does within the spaces that are seen is done to the
excerpt as well, so nothing outside of the excerpt has a say in it.

Here are the excerpts of single nodes; those of the two stores are built from them.

Main results:

* `node_rekey`, `node_moveTo`, `node_patch` — changes of a node are changes of its excerpt;
* `checkParent_node`, `node_check` — the rules judge an excerpt as they judge the node.
-/

namespace Outline

/-- The node without its payload and its times. -/
def Node.bare (n : Node) : Node :=
  { n.undated with title := "", properties := Json.emptyObject, archived := false }

/-- What is shown of a store: the nodes of some spaces, with their payload or without it. -/
structure Excerpt where
  sees : Uuid → Bool
  payload : Bool

namespace Excerpt

variable (e : Excerpt)

/-- What is shown of a node. -/
def node (n : Node) : Node :=
  if e.payload then n.undated else n.bare

@[simp] theorem node_id (n : Node) : (e.node n).id = n.id := by
  unfold node
  split <;> rfl

@[simp] theorem node_space (n : Node) : (e.node n).space = n.space := by
  unfold node
  split <;> rfl

@[simp] theorem node_kind (n : Node) : (e.node n).kind = n.kind := by
  unfold node
  split <;> rfl

@[simp] theorem node_parent (n : Node) : (e.node n).parent = n.parent := by
  unfold node
  split <;> rfl

@[simp] theorem node_sort (n : Node) : (e.node n).sort = n.sort := by
  unfold node
  split <;> rfl

@[simp] theorem node_group (n : Node) : (e.node n).group = n.group := by
  rw [Node.group, node_space, node_parent, Node.group]

/-- Nodes that are shown alike have one place. -/
theorem place_of_node_eq {n m : Node} (h : e.node n = e.node m) :
    m.id = n.id ∧ m.space = n.space ∧ m.kind = n.kind ∧ m.parent = n.parent := by
  refine ⟨?_, ?_, ?_, ?_⟩
  · rw [← e.node_id n, h, node_id]
  · rw [← e.node_space n, h, node_space]
  · rw [← e.node_kind n, h, node_kind]
  · rw [← e.node_parent n, h, node_parent]

/-! ## Changes -/

theorem node_with_sort (n : Node) (sort : SortKey) :
    e.node { n with sort := sort } = { e.node n with sort := sort } := by
  unfold node
  split <;> rfl

theorem node_rekey (n : Node) (sort : SortKey) (now : Timestamp) :
    e.node (n.rekey sort now) = (e.node n).rekey sort .epoch := by
  unfold node
  split <;> rfl

theorem node_moveTo (n : Node) (parent : Option Uuid) (sort : SortKey) (now : Timestamp) :
    e.node (n.moveTo parent sort now) = (e.node n).moveTo parent sort .epoch := by
  unfold node
  split <;> rfl

variable {e}

/-- A patch is seen where payload is shown. -/
theorem node_patch (he : e.payload = true) (n : Node) (patch : Patch) (now : Timestamp) :
    e.node (n.patch patch now) = (e.node n).patch patch .epoch := by
  unfold node
  rw [if_pos he, if_pos he]
  rfl

/-- Elsewhere it is not. -/
theorem node_patch_of_bare (he : e.payload = false) (n : Node) (patch : Patch) (now : Timestamp) :
    e.node (n.patch patch now) = e.node n := by
  unfold node
  rw [he]
  rfl

/-! ## Rules -/

/-- A record is checked alike, its properties apart if they are not shown. -/
theorem node_check {n : Node} (h : e.payload = true ∨ n.properties.isObject = true) :
    (e.node n).check = n.check := by
  unfold node
  split
  · rfl
  · next he =>
    have hobject : n.properties.isObject = true := h.resolve_left he
    have hbare : n.bare.properties.isObject = true := rfl
    unfold Node.check
    rw [hobject, hbare]
    rfl

variable (e)

theorem checkParent_node (kind : Kind) (space : Uuid) (parent : Option Node) :
    checkParent kind space (parent.map e.node) = checkParent kind space parent := by
  cases parent with
  | none => rfl
  | some p =>
    unfold checkParent
    dsimp only [Option.map_some]
    rw [node_space, node_id, node_kind]

/-! ## Where a node is -/

variable {π τ : Type} (f : Forest π τ)

/-- If the node is stored, it is in a space that is seen. -/
def Near (id : Uuid) : Prop :=
  ∀ r, f id = some r → e.sees r.space = true

/-- If the node is stored, it is in a space that is not seen. -/
def Far (id : Uuid) : Prop :=
  ∀ r, f id = some r → e.sees r.space = false

end Excerpt

/-! ## What a call writes to -/

namespace StoreCall

/-- The space that a writing call names. -/
def space? : StoreCall → Option Uuid
  | .create n | .createLast n => some n.space
  | .delete space _ => some space
  | .renumber group => some group.space
  | _ => none

/-- The node that a call is to create or to change. -/
def subject? : StoreCall → Option Uuid
  | .create n | .createLast n => some n.id
  | .update id _ | .moveLast id _ | .moveAt id _ _ | .reorder id _ | .moveBeside id _ _ => some id
  | _ => none

end StoreCall

end Outline
