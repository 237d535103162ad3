import Outline.Node.Basic

/-!
# The rules of an outline

Which kinds may stand below which, that a node and its parent share a space, that an operation is
addressed to its own kind of node, and that no node comes to stand below itself. The rules only
look at what they are given; who calls them has fetched the nodes.

The last rule climbs from the destination to the root. The number of steps is bounded, so that a
damaged chain that runs in a circle is refused as well.

Main results:

* `climb_lookups_le` — a climb makes no more lookups than its bound.
-/

namespace Outline

/-- A broken rule. -/
inductive Violation where
  | missingParent (kind : Kind)
  | parentKind (kind : Kind) (parent : Uuid) (actual : Kind)
  | parentSpace (parent actual space : Uuid)
  | wrongKind (node : Uuid) (expected actual : Kind)
  | cycle (node parent : Uuid)
  deriving DecidableEq

namespace Violation

def message : Violation → String
  | .missingParent kind => s!"parent id is required for {kind}"
  | .parentKind _ parent actual => s!"parent must be page: {parent} is a {actual}"
  | .parentSpace parent actual space =>
    s!"parent {parent} belongs to space {actual}, not {space}"
  | .wrongKind node expected actual => s!"node {node} is a {actual}, not a {expected}"
  | .cycle node parent =>
    s!"cannot move node {node} under {parent}: it would become its own ancestor"

end Violation

namespace Kind

/-- Whether a node of the first kind may stand directly below one of the second. -/
def mayNest : Kind → Kind → Bool
  | .page, .block => false
  | _, _ => true

def mayBeRoot : Kind → Bool
  | .page => true
  | .block => false

end Kind

/-- Check the parent of a node of some kind in some space: first that there is one if the kind
needs one, then its space, then its kind. -/
def checkParent (kind : Kind) (space : Uuid) : Option Node → Except Violation Unit
  | none => if kind.mayBeRoot then .ok () else .error (.missingParent kind)
  | some parent =>
    if parent.space ≠ space then .error (.parentSpace parent.id parent.space space)
    else if kind.mayNest parent.kind then .ok ()
    else .error (.parentKind kind parent.id parent.kind)

def checkKind (n : Node) (expected : Kind) : Except Violation Unit :=
  if n.kind = expected then .ok () else .error (.wrongKind n.id expected n.kind)

/-! ## Climbing to the root -/

/-- The outcome of a climb: whether it reached a root without meeting the node, and how many
parents were looked up. -/
structure Climb where
  clear : Bool
  lookups : Nat
  deriving DecidableEq

/-- Climb from `current` with at most `steps` lookups of a parent. -/
def climb (parentOf : Uuid → Option Uuid) (node : Uuid) (steps : Nat) :
    Option Uuid → Climb
  | none => ⟨true, 0⟩
  | some id =>
    if id = node then ⟨false, 0⟩
    else
      match steps with
      | 0 => ⟨false, 0⟩
      | steps + 1 =>
        let above := climb parentOf node steps (parentOf id)
        ⟨above.clear, above.lookups + 1⟩
  termination_by structural steps

/-- Check that `node` may be put under `parent`: it is not found on the way up from there. -/
def checkAcyclic (parentOf : Uuid → Option Uuid) (node parent : Uuid) (steps : Nat) :
    Except Violation Unit :=
  if (climb parentOf node steps (some parent)).clear then .ok () else .error (.cycle node parent)

theorem climb_lookups_le (parentOf : Uuid → Option Uuid) (node : Uuid) (steps : Nat)
    (current : Option Uuid) : (climb parentOf node steps current).lookups ≤ steps := by
  induction steps generalizing current with
  | zero =>
    unfold climb
    split
    · simp
    · split <;> simp
  | succ steps ih =>
    unfold climb
    split
    · simp
    · split
      · simp
      · simpa using ih _

end Outline
