import Outline.Proofs.Branch.Reading
import Outline.Proofs.Indexed.View

/-!
# The live part of a branch

A store that lists every child of a node, by ascending keys, answers the request for a branch with
the whole of its live part. Below each node of the tree stand its live children, all of them and in
their order. So a stored node is in the tree when neither it nor a node on its way up to the
topmost one is archived; the topmost node itself may be.

Main results:

* `Branch.Collects.exists_live` — the tree of what is collected is the live part of the branch;
* `Store.Outlined.showsBranches` — so the request for a branch is answered with it.
-/

namespace Outline

variable {σ : Type}

/-! ## What is to be answered -/

/-- The records of the nodes that a store has. -/
def shown (node : Uuid → Option Node) : Forest Node.Payload Timestamp :=
  fun id => (node id).map Node.record

/-- A node stands at or below `top`, and on its way up nobody before `top` is archived. -/
def LiveWithin (node : Uuid → Option Node) (top id : Uuid) : Prop :=
  ∃ path, Ascent (shown node) id path ∧ top ∈ path ∧
    ∀ a ∈ path.takeWhile (· ≠ top), ∀ n, node a = some n → n.archived = false

/-- The live children of a node, all of them and in the order of their keys. -/
def LiveChildren (node : Uuid → Option Node) (n : Node) (children : List Node) : Prop :=
  children.Pairwise (·.sort.val < ·.sort.val) ∧
    ∀ m, m ∈ children ↔ node m.id = some m ∧ m.parent = some n.id ∧ m.archived = false

/-- The tree is the live part of the branch of `top`. -/
structure Tree.IsLive (node : Uuid → Option Node) (top : Uuid) (t : Tree) : Prop where
  root     : node top = some t.root
  children : t.Licensed (LiveChildren node)
  /-- its nodes are the live ones at and below the topmost, each of them once -/
  mem_iff  : ∀ n, n ∈ t.nodes ↔ node n.id = some n ∧ LiveWithin node top n.id
  nodup    : (t.nodes.map (·.id)).Nodup
  size     : t.size = t.nodes.length

namespace Store

/-- Every request for the branch of a stored node of its kind ends with the live part of it. -/
def ShowsBranches (store : Store σ) (s : σ) (node : Uuid → Option Node) : Prop :=
  ∀ id root, node id = some root → ∃ t : Tree, t.IsLive node id ∧
    ∀ config clock now fresh, store.EndsWithTree config clock now fresh root.kind id s t

/-- Whoever knows the kind of a node can ask for its branch. -/
theorem ShowsBranches.of_kind {store : Store σ} {s : σ} {node : Uuid → Option Node}
    (h : store.ShowsBranches s node) {id : Uuid} {kind : Kind}
    (hkind : (node id).map (·.kind) = some kind) : ∃ t : Tree, t.IsLive node id ∧
      ∀ config clock now fresh, store.EndsWithTree config clock now fresh kind id s t := by
  obtain ⟨root, hroot, rfl⟩ := Option.map_eq_some_iff.1 hkind
  exact h id root hroot

/-- The store lists all children of a node in the order of their keys, and every node has a way up
to a root. -/
structure Outlined (store : Store σ) (s : σ) (node : Uuid → Option Node)
    (listing : Group → List Node) : Prop extends store.Browsable s node listing where
  sorted   : ∀ {id n}, node id = some n →
    (listing ⟨n.space, some id⟩).Pairwise (·.sort.val < ·.sort.val)
  complete : ∀ {id n m}, node id = some n → node m.id = some m → m.parent = some id →
    m ∈ listing ⟨n.space, some id⟩
  ascent   : ∀ {id n}, node id = some n → ∃ path, Ascent (shown node) id path
  proper   : ∀ {id n}, node id = some n → id ≠ .nil

end Store

/-! ## Collected nodes and live nodes -/

theorem Ascent.exists_cons {π τ : Type} {f : Forest π τ} {id : Uuid} {path : List Uuid}
    (h : Ascent f id path) : ∃ rest, path = id :: rest := by
  cases h <;> exact ⟨_, rfl⟩

namespace LiveWithin

open Branch

variable {node : Uuid → Option Node} {root : Node} {order : List Node}

/-- Collected nodes are live. -/
theorem of_grown (h : Grown root order) (hnode : ∀ n ∈ order, node n.id = some n)
    (hroot : ∃ path, Ascent (shown node) root.id path) :
    ∀ n ∈ order, LiveWithin node root.id n.id := by
  induction h with
  | root =>
    intro n hn
    obtain rfl := List.mem_singleton.1 hn
    obtain ⟨path, hpath⟩ := hroot
    obtain ⟨rest, rfl⟩ := hpath.exists_cons
    exact ⟨_, hpath, List.mem_cons_self, by simp⟩
  | @grow l p m hl hp hparent hlive hnew ih =>
    have ih := ih fun n hn => hnode n (List.mem_append_left _ hn)
    intro n hn
    rcases List.mem_append.1 hn with hn | hn
    · exact ih n hn
    -- one more node on the way up, which is live and not the topmost
    obtain rfl := List.mem_singleton.1 hn
    have hstored := hnode n (by simp)
    obtain ⟨path, hpath, hmem, hall⟩ := ih p hp
    have hrecord : shown node n.id = some n.record := by
      rw [shown, hstored]
      rfl
    have hne : n.id ≠ root.id := by
      obtain ⟨rest, rfl⟩ := hl.exists_cons
      exact fun hid => hnew (hid ▸ List.mem_cons_self)
    refine ⟨n.id :: path, .step hrecord hparent hpath, List.mem_cons_of_mem _ hmem, ?_⟩
    rw [List.takeWhile_cons_of_pos (by simpa using hne)]
    intro a ha m hm
    rcases List.mem_cons.1 ha with rfl | ha
    · rw [hstored] at hm
      rwa [← Option.some.inj hm]
    · exact hall a ha m hm

/-- Live nodes are collected, when no live child of a collected node is left out. -/
theorem mem_order (hown : ∀ {id n}, node id = some n → n.id = id) (hroot : root ∈ order)
    (hclosed : ∀ p ∈ order, ∀ m, node m.id = some m → m.parent = some p.id → m.archived = false →
      m.id ∈ order.map (·.id))
    {id : Uuid} (h : LiveWithin node root.id id) : id ∈ order.map (·.id) := by
  obtain ⟨path, hpath, hmem, hlive⟩ := h
  induction hpath with
  | root =>
    obtain rfl := List.mem_singleton.1 hmem
    exact List.mem_map_of_mem hroot
  | @step id parent r path hr hp _ ih =>
    by_cases hid : id = root.id
    · exact hid ▸ List.mem_map_of_mem hroot
    have htake : (id :: path).takeWhile (· ≠ root.id) = id :: path.takeWhile (· ≠ root.id) :=
      List.takeWhile_cons_of_pos (by simpa using hid)
    rw [htake] at hlive
    obtain ⟨n, hn, rfl⟩ := Option.map_eq_some_iff.1 hr
    obtain rfl := hown hn
    obtain ⟨q, hq, rfl⟩ := List.mem_map.1 (ih ((List.mem_cons.1 hmem).resolve_left (Ne.symm hid))
      fun a ha => hlive a (List.mem_cons_of_mem _ ha))
    exact hclosed q hq n hn hp (hlive _ List.mem_cons_self n hn)

/-- A node that the topmost one names as its parent is not below it. -/
theorem ne_parent {id : Uuid} (h : LiveWithin node root.id id)
    (hroot : node root.id = some root) : root.parent ≠ some id := by
  intro hparent
  obtain ⟨path, hpath, hmem, -⟩ := h
  have hrecord : shown node root.id = some root.record := by
    rw [shown, hroot]
    rfl
  exact (List.nodup_cons.1 (Ascent.step hrecord hparent hpath).nodup).1 hmem

end LiveWithin

/-! ## The tree of the live part -/

namespace Branch

/-- What a walk from a stored node collects where every child is listed. -/
structure Collects (node : Uuid → Option Node) (root : Node) (order : List Node) : Prop where
  grown     : Grown root order
  stored    : ∀ n ∈ order, node n.id = some n
  closed    : ∀ p ∈ order, ∀ m, node m.id = some m → m.parent = some p.id → m.archived = false →
    m ∈ order
  ascending : order.tail.Pairwise fun a b => a.parent = b.parent → a.sort.val < b.sort.val
  ascent    : ∃ path, Ascent (shown node) root.id path

namespace Collects

variable {node : Uuid → Option Node} {root : Node} {order : List Node}
  (h : Collects node root order)
include h

theorem root_mem : root ∈ order := by
  obtain ⟨rest, rfl⟩ := h.grown.exists_cons
  exact List.mem_cons_self

theorem live : ∀ n ∈ order, LiveWithin node root.id n.id :=
  .of_grown h.grown h.stored h.ascent

theorem mem_iff (hown : ∀ {id n}, node id = some n → n.id = id) {n : Node} :
    n ∈ order ↔ node n.id = some n ∧ LiveWithin node root.id n.id := by
  refine ⟨fun hn => ⟨h.stored n hn, h.live n hn⟩, fun ⟨hn, hlive⟩ => ?_⟩
  have hmem := LiveWithin.mem_order hown h.root_mem
    (fun p hp m hm hparent hlive => List.mem_map_of_mem (h.closed p hp m hm hparent hlive)) hlive
  obtain ⟨m, hm, hid⟩ := List.mem_map.1 hmem
  have hstored := h.stored m hm
  rw [hid, hn] at hstored
  rwa [Option.some.inj hstored]

/-- Behind a node stand all its live children, in the order of their keys. -/
theorem liveChildren {pre rest : List Node} {n : Node} (horder : order = pre ++ n :: rest) :
    LiveChildren node n (rest.filter (·.parent = some n.id)) := by
  have hn : n ∈ order := by simp [horder]
  constructor
  · have hsub : rest.Sublist order.tail := by
      rw [horder]
      cases pre with
      | nil => exact List.Sublist.refl _
      | cons p pre => exact (List.sublist_cons_self n rest).trans (List.sublist_append_right _ _)
    refine ((h.ascending.sublist hsub).filter _).imp_of_mem fun {a b} ha hb hlt => hlt ?_
    have ha := of_decide_eq_true (List.mem_filter.1 ha).2
    have hb := of_decide_eq_true (List.mem_filter.1 hb).2
    exact ha.trans hb.symm
  · intro m
    rw [List.mem_filter, decide_eq_true_eq]
    constructor
    -- who comes later than somebody is not the first, so it is live
    · rintro ⟨hm, hparent⟩
      obtain ⟨front, back, rfl⟩ := List.append_of_mem hm
      have hsplit : order = (pre ++ n :: front) ++ m :: back := by
        rw [horder, List.append_assoc, List.cons_append]
      refine ⟨h.stored m (by simp [hsplit]), hparent, ?_⟩
      rcases h.grown.earlier hsplit with ⟨hnil, -⟩ | ⟨-, -, -, hlive⟩
      · simp at hnil
      · exact hlive
    -- a live child is collected, and only the topmost node could stand before its parent
    · rintro ⟨hm, hparent, hlive⟩
      have hmem := h.closed n hn m hm hparent hlive
      refine ⟨?_, hparent⟩
      by_contra hrest
      have hbefore : m ∈ pre ++ [n] := by
        rw [horder] at hmem
        simpa [hrest] using hmem
      obtain rfl := h.grown.eq_root_of_parent horder hbefore hparent
      exact (h.live n hn).ne_parent (h.stored m h.root_mem) hparent

/-- The tree of what is collected is the live part of the branch. -/
theorem exists_live (hown : ∀ {id n}, node id = some n → n.id = id) :
    ∃ t, tree? order = some t ∧ t.size = order.length ∧ t.IsLive node root.id := by
  obtain ⟨t, ht, rfl, hperm, hlicensed⟩ := exists_tree h.grown fun pre n rest => h.liveChildren
  have hsize : t.size = order.length := by rw [← t.length_nodes, hperm.length_eq]
  refine ⟨t, ht, hsize, h.stored _ h.root_mem, hlicensed, fun n => ?_, ?_, t.length_nodes.symm⟩
  · rw [hperm.mem_iff, h.mem_iff hown]
  · exact (hperm.map _).nodup_iff.2 h.grown.nodup

end Collects

end Branch

namespace Store.Outlined

open Branch

variable {store : Store σ} {s : σ} {node : Uuid → Option Node} {listing : Group → List Node}
  (h : store.Outlined s node listing)
include h

theorem collects {root : Node} (hroot : node root.id = some root) {order : List Node}
    (hwalk : Walk (fun id => listing ⟨root.space, some id⟩) [] [root] order) :
    Collects node root order := by
  have hspans := h.spans root.space
  have hscope := hwalk.mem_scope hspans ⟨hroot, rfl⟩
  refine ⟨hwalk.grown hspans ⟨hroot, rfl⟩, fun n hn => (hscope n hn).1,
    fun p hp m hm hparent hlive => ?_, hwalk.ascending hspans ⟨hroot, rfl⟩ fun n hn => ?_,
    h.ascent hroot⟩
  · obtain ⟨hpn, hspace⟩ := hscope p hp
    have hlisted := h.complete hpn hm hparent
    rw [hspace] at hlisted
    obtain ⟨q, hq, hid⟩ := List.mem_map.1 (hwalk.closed p hp m hlisted hlive)
    have hstored := (hscope q hq).1
    rw [hid, hm] at hstored
    rwa [Option.some.inj hstored]
  · rw [← hn.2]
    exact h.sorted hn.1

/-- The tree that is answered is the live part of the branch. -/
theorem showsBranches : store.ShowsBranches s node := by
  intro id root hroot
  obtain rfl := h.own_id hroot
  obtain ⟨order, hwalk, hends⟩ := h.exists_branch hroot (h.proper hroot) rfl
  obtain ⟨t, ht, hsize, hlive⟩ := (h.collects hroot hwalk).exists_live h.own_id
  exact ⟨t, hlive, hends t ht hsize⟩

end Store.Outlined

end Outline
