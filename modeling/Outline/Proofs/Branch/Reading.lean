import Outline.Proofs.Alone.Reuse
import Outline.Proofs.Branch.Trees

/-!
# Reading a branch from a store

A store can be browsed when it finds the nodes it has and lists below each of them nodes that it
has, in the same space, and that name it as their parent. No more is needed for a branch to be read
to its end: the request answers a tree, after one call for the node itself and one listing for each
node of the tree, and leaves the store as it was.

Main results:

* `Operation.exec_collect` — the collected nodes are those of a walk;
* `Store.Browsable.exists_branch` — the request for a branch comes to an end with a tree.
-/

namespace Outline

variable {α σ : Type}

/-! ## What is asked of the store, and what is to come out -/

namespace Store

/-- The store finds the nodes that `node` gives, and below each of them it lists nodes of that
kind. -/
structure Browsable (store : Store σ) (s : σ) (node : Uuid → Option Node)
    (listing : Group → List Node) : Prop where
  own_id : ∀ {id n}, node id = some n → n.id = id
  get    : ∀ {id n}, node id = some n → ∀ now, store.serve (.get id) now s = .ok (n, s)
  list   : ∀ {id n}, node id = some n → ∀ now,
    store.serve (.list ⟨n.space, some id⟩) now s = .ok (listing ⟨n.space, some id⟩, s)
  below  : ∀ {id n}, node id = some n → ∀ m ∈ listing ⟨n.space, some id⟩,
    node m.id = some m ∧ m.space = n.space ∧ m.parent = some id

/-- The request for the branch of a node ends with a tree. It looks for the node, lists the children
of every node of the tree, makes no other call, and leaves the state as it was. -/
def EndsWithTree (store : Store σ) (config : Config) (clock : Nat → Timestamp) (now : Timestamp)
    (fresh : Uuid) (kind : Kind) (id : Uuid) (s : σ) (t : Tree) : Prop :=
  let (ending, w) := Service.perform config (Watched.server store clock fun _ => .none) now fresh
    (.branch kind id) (.start s)
  ending = some (.ok (.tree t)) ∧ w.state = s ∧ w.visits.length = t.size + 1

end Store

/-! ## The calls that are made -/

namespace Operation

variable {store : Store σ} (clock : Nat → Timestamp) {w : Watched σ} (operation : String)

/-- A call that is served and changes nothing is written down. -/
theorem exec_ask_served {c : StoreCall} {answer : c.Answer}
    (hserve : ∀ now, store.serve c now w.state = .ok (answer, w.state)) :
    ∃ w', exec (ask operation c) (Watched.server store clock fun _ => .none) w =
        (some (.ok answer), w') ∧ w'.state = w.state ∧ w'.visits.length = w.visits.length + 1 := by
  have hstep : ∀ now, store.step c now w.state = (.ok answer, w.state) := fun now => by
    rw [Store.step, hserve]
  refine ⟨w.after (w.visit store clock (fun _ => .none) c), ?_, ?_, ?_⟩
  · refine (Watched.run_ask_alone _ w).trans ?_
    rw [hstep]
    rfl
  · exact congrArg Prod.snd (hstep (clock w.visits.length))
  · rw [Watched.after, List.length_append, List.length_singleton]

open Branch in
/-- What is collected is what a walk collects, with one listing for each node that is visited. -/
theorem exec_collect {root : Node} {scope : Node → Prop} {kids : Uuid → List Node} {space : Uuid}
    {visited pending order : List Node} (hwalk : Walk kids visited pending order)
    (hkids : Spans scope kids) (hunder : Underway root scope visited pending)
    (hlist : ∀ n, scope n → ∀ now,
      store.serve (.list ⟨space, some n.id⟩) now w.state = .ok (kids n.id, w.state))
    {fuel : Nat} (hfuel : order.length ≤ fuel + visited.length) :
    ∃ w', exec (collect operation space fuel visited pending)
          (Watched.server store clock fun _ => .none) w = (some (.ok order), w') ∧
        w'.state = w.state ∧
        w'.visits.length + visited.length = w.visits.length + order.length := by
  induction hwalk generalizing fuel w with
  | @done visited =>
    refine ⟨w, ?_, rfl, rfl⟩
    cases fuel <;> rfl
  | @step visited rest order n hwalk ih =>
    obtain ⟨found, hfound⟩ := hwalk.exists_append
    -- a node is pending, so there is fuel left
    cases fuel with
    | zero =>
      rw [hfound] at hfuel
      simp only [List.length_append, List.length_singleton] at hfuel
      omega
    | succ fuel =>
      obtain ⟨w₁, hask, hstate₁, hvisits₁⟩ := exec_ask_served clock operation
        (hlist n (hunder.scope n (by simp)))
      have hless : order.length ≤ fuel + (visited ++ [n]).length := by
        rw [List.length_append, List.length_singleton]
        omega
      obtain ⟨w₂, hrest, hstate₂, hvisits₂⟩ := ih (w := w₁) (hunder.step hkids)
        (by rw [hstate₁]; exact hlist) hless
      refine ⟨w₂, ?_, hstate₂.trans hstate₁, ?_⟩
      · rw [collect]
        refine (exec_bind _ _).trans ?_
        rw [hask]
        exact hrest
      · rw [List.length_append, List.length_singleton] at hvisits₂
        omega

end Operation

namespace Store

namespace Browsable

open Branch Operation

variable {store : Store σ} {s : σ} {node : Uuid → Option Node} {listing : Group → List Node}
  (h : store.Browsable s node listing)
include h

/-- The nodes below `root` that are walked over: those of its space. -/
theorem spans (space : Uuid) : Spans (fun n => node n.id = some n ∧ n.space = space)
    (fun id => listing ⟨space, some id⟩) := by
  rintro n ⟨hn, rfl⟩ m hm
  obtain ⟨hm, hspace, hparent⟩ := h.below hn m hm
  exact ⟨⟨hm, hspace⟩, hparent⟩

/-- The request for a branch comes to an end with the tree of a walk, whatever the links are
like. -/
theorem exists_branch {id : Uuid} {root : Node} (hroot : node id = some root)
    (hid : id ≠ .nil) {kind : Kind} (hkind : root.kind = kind) :
    ∃ order, Walk (fun id => listing ⟨root.space, some id⟩) [] [root] order ∧
      ∀ t, tree? order = some t → t.size = order.length →
        ∀ config clock now fresh, store.EndsWithTree config clock now fresh kind id s t := by
  have hown := h.own_id hroot
  have hscope : node root.id = some root ∧ root.space = root.space := ⟨hown.symm ▸ hroot, rfl⟩
  obtain ⟨order, hwalk⟩ := exists_walk (h.spans root.space) (.start hscope)
  refine ⟨order, hwalk, fun t ht hsize config clock now fresh => ?_⟩
  have hlength := Uuid.length_le_of_nodup (hwalk.grown (h.spans root.space) hscope).nodup
  rw [List.length_map] at hlength
  have hfuel : order.length ≤ 2 ^ 128 + ([] : List Node).length := by simpa using hlength
  -- the node itself
  obtain ⟨w₁, hget, hstate₁, hvisits₁⟩ := exec_ask_served clock
    s!"get_{kind}_subtree" (w := .start s) (h.get hroot)
  -- and the nodes below it
  have hlist : ∀ n, node n.id = some n ∧ n.space = root.space → ∀ t,
      store.serve (.list ⟨root.space, some n.id⟩) t w₁.state =
        .ok (listing ⟨root.space, some n.id⟩, w₁.state) := by
    intro n hn t
    rw [hstate₁, ← hn.2]
    exact h.list hn.1 t
  obtain ⟨w₂, hcollect, hstate₂, hvisits₂⟩ := exec_collect clock s!"get_{kind}_subtree"
    hwalk (h.spans root.space) (.start hscope) hlist hfuel
  have hfetch : exec (fetchKind s!"get_{kind}_subtree" kind id)
      (Watched.server store clock fun _ => .none) (.start s) = (some (.ok root), w₁) := by
    have hkind : checkKind root kind = .ok () := if_pos hkind
    unfold fetchKind fetch
    refine (exec_bind _ _).trans ?_
    rw [hget]
    refine (exec_bind _ _).trans ?_
    rw [hkind]
    rfl
  have hexec : exec (Operation.branch kind id) (Watched.server store clock fun _ => .none)
      (.start s) = (some (.ok t), w₂) := by
    unfold Operation.branch requireId
    simp only [show id.isNil = false from decide_eq_false hid, Bool.false_eq_true, if_false]
    refine (exec_bind _ _).trans ((exec_bind _ _).trans ?_)
    rw [hfetch]
    refine (exec_bind _ _).trans ?_
    rw [hcollect]
    dsimp only
    rw [ht]
    rfl
  have hperform : exec (Request.operation config now fresh (.branch kind id))
      (Watched.server store clock fun _ => .none) (.start s) = (some (.ok (.tree t)), w₂) := by
    refine (exec_bind (Operation.branch kind id) fun t => pure (Answer.tree t)).trans ?_
    rw [hexec]
    rfl
  unfold EndsWithTree Service.perform
  rw [show (Request.operation config now fresh (.branch kind id)).run.run
    (Watched.server store clock fun _ => .none) (.start s) = _ from hperform]
  refine ⟨rfl, hstate₂.trans hstate₁, ?_⟩
  rw [hsize]
  have hstart : (Watched.start s).visits.length = 0 := rfl
  rw [List.length_nil] at hvisits₂
  omega

end Browsable

end Store

end Outline
