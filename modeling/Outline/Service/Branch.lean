import Outline.Service.Program

/-!
# Reading a whole branch

A branch is read breadth first, one listing for each node, leaving out archived nodes and nodes met
before. Its tree is put together from the last node found to the first, so that the trees of a
node's children are there when the node is reached.

Main results:

* `Branch.tree?_cons` — the tree of a branch has its first node as root.
-/

namespace Outline.Branch

/-- The nodes among `listed` that are live and met for the first time. -/
def unseen (seen : List Uuid) : List Node → List Node
  | [] => []
  | n :: rest =>
    if n.archived ∨ n.id ∈ seen then unseen seen rest else n :: unseen (n.id :: seen) rest

/-- The nodes of a branch. Those in `visited` have been listed, those in `pending` have not. Since
no node is met twice there are no more listings than identifiers. -/
def collect (operation : String) (space : Uuid) (fuel : Nat) (visited pending : List Node) :
    Operation (List Node) :=
  match fuel, pending with
  | _, [] => pure visited
  | 0, _ => pure (visited ++ pending)
  | fuel + 1, n :: rest => do
    let listed ← Operation.ask operation (.list ⟨space, some n.id⟩)
    let met := (visited ++ n :: rest).map (·.id)
    collect operation space fuel (visited ++ [n]) (rest ++ unseen met listed)

/-- Put a node over those trees whose roots name it as their parent. -/
def attach (n : Node) (trees : List Tree) : List Tree :=
  .node n (trees.filter fun t => t.root.parent = some n.id) ::
    trees.filter fun t => t.root.parent ≠ some n.id

/-- The tree of a branch given as a list of nodes in which parents stand before their children. -/
def tree? (nodes : List Node) : Option Tree :=
  (nodes.foldr attach []).head?

theorem tree?_cons (n : Node) (rest : List Node) :
    ∃ children, tree? (n :: rest) = some (.node n children) :=
  ⟨_, rfl⟩

end Outline.Branch
