import Outline.Proofs.Branch.Grown

/-!
# The tree of a collected list

The tree of a branch is put together from the last node to the first: a node takes for its children
those trees put together so far whose roots name it as their parent. In a list that has grown from
its first node every other node is taken by somebody before it. So one tree comes out, it holds the
nodes of the list, each as often as the list does, and below a node stand in their order the later
nodes that name it.

A circle among the links does no harm: a node in the list that the first one names as its parent
comes after it, and has its children before the first one is reached.

Main results:

* `Tree.length_nodes` — the size of a tree is the number of its nodes;
* `Branch.exists_tree` — a list that has grown is put together to one tree.
-/

namespace Outline

namespace Tree

mutual

/-- The nodes of the tree, each before those below it. -/
def nodes : Tree → List Node
  | .node root children => root :: nodesAll children

def nodesAll : List Tree → List Node
  | [] => []
  | t :: rest => t.nodes ++ nodesAll rest

end

theorem nodesAll_eq_flatMap (trees : List Tree) : nodesAll trees = trees.flatMap nodes := by
  induction trees with
  | nil => rfl
  | cons t rest ih => rw [nodesAll, ih, List.flatMap_cons]

mutual

theorem length_nodes (t : Tree) : t.nodes.length = t.size := by
  cases t with
  | node root children =>
    rw [nodes, size, List.length_cons, length_nodesAll children, Nat.add_comm]

theorem length_nodesAll (trees : List Tree) : (nodesAll trees).length = sizes trees := by
  cases trees with
  | nil => rfl
  | cons t rest =>
    rw [nodesAll, sizes, List.length_append, length_nodes t, length_nodesAll rest]

end

theorem root_mem_nodes (t : Tree) : t.root ∈ t.nodes := by
  cases t
  exact List.mem_cons_self

/-- Everywhere in the tree the relation holds between a node and its children in order. -/
inductive Licensed (R : Node → List Node → Prop) : Tree → Prop
  | node {root : Node} {children : List Tree} : R root (children.map Tree.root) →
      (∀ t ∈ children, Licensed R t) → Licensed R (.node root children)

end Tree

namespace Branch

variable {root n m : Node} {l : List Node} {trees : List Tree} {R : Node → List Node → Prop}

/-! ## One node -/

theorem map_root_filter (p : Node → Bool) (trees : List Tree) :
    (trees.filter fun t => p t.root).map Tree.root = (trees.map Tree.root).filter p := by
  rw [List.filter_map]
  rfl

theorem roots_attach (n : Node) (trees : List Tree) :
    (attach n trees).map Tree.root =
      n :: (trees.map Tree.root).filter (·.parent ≠ some n.id) := by
  rw [attach, List.map_cons, map_root_filter (·.parent ≠ some n.id)]
  rfl

/-- Every node stays. -/
theorem nodes_attach_perm (n : Node) (trees : List Tree) :
    ((attach n trees).flatMap Tree.nodes).Perm (n :: trees.flatMap Tree.nodes) := by
  rw [attach, List.flatMap_cons, Tree.nodes, Tree.nodesAll_eq_flatMap, List.cons_append,
    ← List.flatMap_append]
  refine List.Perm.cons _ (List.Perm.flatMap_right _ ?_)
  have hsplit := List.filter_append_perm (fun t : Tree => decide (t.root.parent = some n.id)) trees
  simpa using hsplit

/-! ## The list from its end -/

/-- The trees that are there when the nodes of a list have been attached from the last to the
first. -/
def grove (l : List Node) : List Tree :=
  l.foldr attach []

theorem roots_grove_cons (n : Node) (rest : List Node) :
    (grove (n :: rest)).map Tree.root =
      n :: ((grove rest).map Tree.root).filter (·.parent ≠ some n.id) :=
  roots_attach n (grove rest)

theorem nodes_grove_perm (l : List Node) : ((grove l).flatMap Tree.nodes).Perm l := by
  induction l with
  | nil => exact .nil
  | cons n rest ih => exact (nodes_attach_perm n (grove rest)).trans (ih.cons n)

/-- A root is a node that nobody before it has taken. -/
theorem of_mem_roots (h : m ∈ (grove l).map Tree.root) :
    ∃ pre post, l = pre ++ m :: post ∧ ∀ p ∈ pre, m.parent ≠ some p.id := by
  induction l with
  | nil => cases h
  | cons n rest ih =>
    rw [roots_grove_cons] at h
    rcases List.mem_cons.1 h with rfl | h
    · exact ⟨[], rest, rfl, by simp⟩
    · obtain ⟨hm, hne⟩ := List.mem_filter.1 h
      obtain ⟨pre, post, rfl, hpre⟩ := ih hm
      refine ⟨n :: pre, post, rfl, fun p hp => ?_⟩
      rcases List.mem_cons.1 hp with rfl | hp
      · simpa using hne
      · exact hpre p hp

/-- Those who name somebody further to the front are all roots, in their order. -/
theorem filter_roots (hn : n.id ∉ l.map (·.id)) :
    ((grove l).map Tree.root).filter (·.parent = some n.id) =
      l.filter (·.parent = some n.id) := by
  induction l with
  | nil => rfl
  | cons x rest ih =>
    rw [List.map_cons, List.mem_cons, not_or] at hn
    have hkeep : (((grove rest).map Tree.root).filter (·.parent ≠ some x.id)).filter
        (·.parent = some n.id) = ((grove rest).map Tree.root).filter (·.parent = some n.id) := by
      rw [List.filter_filter]
      refine List.filter_congr fun q _ => ?_
      by_cases hq : q.parent = some n.id
      · simp [hq, hn.1]
      · simp [hq]
    rw [roots_grove_cons, List.filter_cons, List.filter_cons, hkeep, ih hn.2]

/-- Below a node stand the later nodes that name it. -/
theorem licensed_grove (hids : (l.map (·.id)).Nodup)
    (hR : ∀ pre n rest, l = pre ++ n :: rest → R n (rest.filter (·.parent = some n.id))) :
    ∀ t ∈ grove l, t.Licensed R := by
  induction l with
  | nil => simp [grove]
  | cons n rest ih =>
    obtain ⟨hn, hrest⟩ := List.nodup_cons.1 hids
    have ih := ih hrest fun pre m post hl => hR (n :: pre) m post (by rw [hl, List.cons_append])
    intro t ht
    rcases List.mem_cons.1 ht with rfl | ht
    · refine .node ?_ fun t ht => ih t (List.mem_filter.1 ht).1
      have hroots := map_root_filter (·.parent = some n.id) (grove rest)
      rw [filter_roots hn] at hroots
      exact hroots ▸ hR [] n rest rfl
    · exact ih t (List.mem_filter.1 ht).1

/-! ## One tree -/

/-- A list that has grown is put together to one tree of all its nodes. -/
theorem exists_tree (h : Grown root l)
    (hR : ∀ pre n rest, l = pre ++ n :: rest → R n (rest.filter (·.parent = some n.id))) :
    ∃ t, tree? l = some t ∧ t.root = root ∧ t.nodes.Perm l ∧ t.Licensed R := by
  obtain ⟨rest, rfl⟩ := h.exists_cons
  -- nobody but the first node is left as a root
  have hroots : ∀ m ∈ (grove (root :: rest)).map Tree.root, m = root := by
    intro m hm
    obtain ⟨pre, post, hl, hpre⟩ := of_mem_roots hm
    rcases h.earlier hl with ⟨-, rfl⟩ | ⟨p, hp, hparent, -⟩
    · rfl
    · exact absurd hparent (hpre p hp)
  have hperm := nodes_grove_perm (root :: rest)
  have hlicensed := licensed_grove h.nodup hR
  obtain ⟨t, others, hgrove, hroot⟩ : ∃ t others, grove (root :: rest) = t :: others ∧
      t.root = root := ⟨_, _, rfl, rfl⟩
  rw [hgrove] at hroots hperm hlicensed
  have hnodup := hperm.nodup_iff.2 (List.Nodup.of_map _ h.nodup)
  -- another tree would have the first node as root once more
  have hothers : others = [] := by
    refine List.eq_nil_iff_forall_not_mem.2 fun u hu => ?_
    have hsame : u.root = root := hroots _ (List.mem_map_of_mem (List.mem_cons_of_mem _ hu))
    rw [List.flatMap_cons] at hnodup
    exact (List.nodup_append.1 hnodup).2.2 _ t.root_mem_nodes _
      (List.mem_flatMap.2 ⟨u, hu, u.root_mem_nodes⟩) (hroot.trans hsame.symm)
  subst hothers
  refine ⟨t, ?_, hroot, ?_, hlicensed t List.mem_cons_self⟩
  · rw [tree?, ← grove, hgrove, List.head?_cons]
  · simpa using hperm

end Branch

end Outline
