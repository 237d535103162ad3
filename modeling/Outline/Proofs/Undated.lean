import Mathlib.Data.List.Forall2
import Outline.Service.Request

/-!
# Nodes and answers without their times

Times are taken from clocks, so two stores that are asked the same do not answer the same. What can
be compared are nodes with their times blanked out. No rule looks at a time, so everything that is
made of nodes is made of them without their times.

Main results:

* `Node.Alike.place`, `Node.Alike.check_eq` — nodes that differ in nothing but times;
* `Branch.tree?_undated` — the tree of a branch does not depend on times.
-/

namespace Outline

/-! ## Single nodes -/

/-- A time to put in the place of another. -/
def Timestamp.epoch : Timestamp := ⟨⟨1970, 1, 1, by decide⟩, 0, 0, 0, 0, by decide⟩

/-- The node with its times blanked out. -/
def Node.undated (n : Node) : Node :=
  { n with created := .epoch, updated := .epoch }

namespace Node

@[simp] theorem undated_id (n : Node) : n.undated.id = n.id := rfl
@[simp] theorem undated_parent (n : Node) : n.undated.parent = n.parent := rfl
@[simp] theorem undated_archived (n : Node) : n.undated.archived = n.archived := rfl

/-- Nodes are alike when all their fields but the times are the same. -/
theorem undated_eq_iff {n m : Node} :
    n.undated = m.undated ↔ n.id = m.id ∧ n.space = m.space ∧ n.kind = m.kind ∧
      n.parent = m.parent ∧ n.title = m.title ∧ n.properties = m.properties ∧ n.sort = m.sort ∧
      n.archived = m.archived := by
  cases n
  cases m
  simp [undated]

end Node

/-- One node at two times. -/
def Node.Alike (n m : Node) : Prop :=
  m.undated = n.undated

namespace Node.Alike

variable {n m : Node} (h : n.Alike m)
include h

/-- They stand at one place, -/
theorem place : m.id = n.id ∧ m.space = n.space ∧ m.kind = n.kind ∧ m.parent = n.parent := by
  obtain ⟨hid, hspace, hkind, hparent, -⟩ := Node.undated_eq_iff.1 h
  exact ⟨hid, hspace, hkind, hparent⟩

/-- and belong to one group of siblings. -/
theorem group : m.group = n.group := by
  obtain ⟨-, hspace, -, hparent⟩ := h.place
  rw [Node.group, Node.group, hspace, hparent]

/-- As a parent a node is judged by its place and kind. -/
theorem checkParent_eq (kind : Kind) (space : Uuid) :
    checkParent kind space (some m) = checkParent kind space (some n) := by
  obtain ⟨hid, hspace, hkind, -⟩ := h.place
  unfold checkParent
  dsimp only
  rw [hid, hspace, hkind]

/-- A record is sound on its own whatever its times. -/
theorem check_eq : m.check = n.check := by
  obtain ⟨hid, hspace, -, hparent, -, hproperties, -⟩ := Node.undated_eq_iff.1 h
  unfold check
  rw [hid, hspace, hparent, hproperties]

/-- A patch changes both alike. -/
theorem patch (patch : Patch) (now now' : Timestamp) :
    (n.patch patch now).Alike (m.patch patch now') := by
  obtain ⟨hid, hspace, hkind, hparent, htitle, hproperties, hsort, harchived⟩ :=
    Node.undated_eq_iff.1 h
  refine Node.undated_eq_iff.2 ⟨hid, hspace, hkind, hparent, ?_, ?_, hsort, ?_⟩
  · exact congrArg patch.title.getD htitle
  · exact congrArg patch.properties.getD hproperties
  · exact congrArg patch.archived.getD harchived

end Node.Alike

/-! ## Trees and answers -/

namespace Tree

mutual

/-- The tree with the times of its nodes blanked out. -/
def undated : Tree → Tree
  | .node n children => .node n.undated (undatedAll children)

def undatedAll : List Tree → List Tree
  | [] => []
  | t :: rest => t.undated :: undatedAll rest

end

theorem undatedAll_eq_map (ts : List Tree) : undatedAll ts = ts.map undated := by
  induction ts with
  | nil => rfl
  | cons t rest ih => rw [undatedAll, ih, List.map_cons]

@[simp] theorem root_undated (t : Tree) : t.undated.root = t.root.undated := by
  cases t
  rfl

end Tree

/-- The answer with all times in it blanked out. -/
def Answer.undated : Answer → Answer
  | .node n => .node n.undated
  | .nodes ns => .nodes (ns.map Node.undated)
  | .count n => .count n
  | .tree t => .tree t.undated

namespace Branch

/-- Which nodes are met for the first time does not depend on their times. -/
theorem map_undated_unseen (seen : List Uuid) (ns : List Node) :
    (unseen seen ns).map Node.undated = unseen seen (ns.map Node.undated) := by
  induction ns generalizing seen with
  | nil => rfl
  | cons n rest ih =>
    rw [unseen, List.map_cons, unseen, Node.undated_archived, Node.undated_id]
    split
    · exact ih seen
    · rw [List.map_cons, ih]

/-- Trees are hung below a node by their identifiers alone. -/
theorem attach_undated (n : Node) (trees : List Tree) :
    attach n.undated (trees.map Tree.undated) = (attach n trees).map Tree.undated := by
  unfold attach
  rw [List.map_cons, Tree.undated, Tree.undatedAll_eq_map, List.filter_map, List.filter_map]
  have hroot : ∀ t : Tree, t.undated.root.parent = t.root.parent := fun t => by
    rw [Tree.root_undated, Node.undated_parent]
  simp only [Function.comp_def, hroot, Node.undated_id]

/-- Nor does the tree that is put together from them. -/
theorem tree?_undated (ns : List Node) :
    tree? (ns.map Node.undated) = (tree? ns).map Tree.undated := by
  have hfold : (ns.map Node.undated).foldr attach [] = (ns.foldr attach []).map Tree.undated := by
    induction ns with
    | nil => rfl
    | cons n rest ih => rw [List.map_cons, List.foldr_cons, ih, attach_undated, List.foldr_cons]
  rw [tree?, hfold, List.head?_map, tree?]

end Branch

/-! ## Lists of nodes -/

/-- One list of nodes, each at two times. -/
def Node.ListedAlike (ns ms : List Node) : Prop :=
  ms.map undated = ns.map undated

namespace Node.ListedAlike

variable {ns ms ns' ms' : List Node}

theorem nil : ListedAlike [] [] := rfl

theorem single {n m : Node} (h : n.Alike m) : ListedAlike [n] [m] :=
  congrArg (· :: []) h

/-- Nodes that are alike one by one are listed alike. -/
theorem of_forall₂ {N : Node → Node → Prop} (hN : ∀ {n m}, N n m → n.Alike m)
    (h : List.Forall₂ N ns ms) : ListedAlike ns ms := by
  induction h with
  | nil => rfl
  | cons hnm _ ih =>
    show List.map undated _ = List.map undated _
    rw [List.map_cons, List.map_cons, ih, hN hnm]

/-- Listings that are alike have nodes that are alike one by one. -/
theorem forall₂ (h : ListedAlike ns ms) : List.Forall₂ Node.Alike ns ms := by
  induction ns generalizing ms with
  | nil =>
    obtain rfl := List.map_eq_nil_iff.1 h
    exact .nil
  | cons n rest ih =>
    obtain ⟨m, rest', rfl, hnm, hrest⟩ := List.map_eq_cons_iff.1 h
    exact .cons hnm (ih hrest)

/-- Listings that are alike show the same identifiers. -/
theorem ids (h : ListedAlike ns ms) : ms.map (·.id) = ns.map (·.id) := by
  have hids := congrArg (List.map Node.id) h
  rw [List.map_map, List.map_map] at hids
  exact hids

theorem append (h : ListedAlike ns ms) (h' : ListedAlike ns' ms') :
    ListedAlike (ns ++ ns') (ms ++ ms') := by
  unfold ListedAlike at *
  rw [List.map_append, List.map_append, h, h']

/-- Archived nodes are left out of both lists. -/
theorem live (h : ListedAlike ns ms) :
    ListedAlike (ns.filter (!·.archived)) (ms.filter (!·.archived)) := by
  have hlive : ∀ l : List Node,
      (l.filter (!·.archived)).map undated = (l.map undated).filter (!·.archived) := by
    intro l
    rw [List.filter_map]
    rfl
  unfold ListedAlike at *
  rw [hlive, hlive, h]

/-- Whoever is met for the first time in the one list is so in the other. -/
theorem unseen (h : ListedAlike ns ms) (seen : List Uuid) :
    ListedAlike (Branch.unseen seen ns) (Branch.unseen seen ms) := by
  unfold ListedAlike at *
  rw [Branch.map_undated_unseen, Branch.map_undated_unseen, h]

end Node.ListedAlike

theorem Branch.mem_of_mem_unseen {seen : List Uuid} {ns : List Node} {n : Node}
    (h : n ∈ unseen seen ns) : n ∈ ns := by
  induction ns generalizing seen with
  | nil => exact h
  | cons m rest ih =>
    rw [unseen] at h
    split at h
    · exact .tail _ (ih h)
    · rcases List.mem_cons.1 h with rfl | h
      · exact .head _
      · exact .tail _ (ih h)

end Outline
