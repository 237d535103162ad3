import Mathlib.Algebra.Group.Nat.Defs
import Mathlib.Data.List.Nodup
import Mathlib.Data.List.Perm.Subperm
import Outline.Service.Branch

/-!
# How a branch is collected

The nodes of a branch are collected in a list that grows while it is gone through: a node that is
reached puts behind the others those of its children that are live and have not been met. Nothing
is assumed of the links between the nodes; they may lead round in a circle.

A walk is the loop without a bound on its rounds. Each node of the list is met once, and there are
only so many identifiers, so every walk comes to an end. What it leaves has grown from its first
node: each later one is live and new and names one before it as its parent.

Main results:

* `Branch.exists_walk` — every walk comes to an end;
* `Branch.Walk.grown` — the collected list has grown from the first node;
* `Branch.Walk.closed` — no live child of a collected node is left out.
-/

namespace Outline

/-- There are only so many identifiers. -/
theorem Uuid.length_le_of_nodup {ids : List Uuid} (h : ids.Nodup) : ids.length ≤ 2 ^ 128 := by
  have hvals : (ids.map Uuid.val).Nodup := by
    refine List.Nodup.map (fun a b hab => ?_) h
    cases a
    cases b
    cases hab
    rfl
  have hsub : ids.map Uuid.val ⊆ List.range (2 ^ 128) := by
    intro n hn
    obtain ⟨id, -, rfl⟩ := List.mem_map.1 hn
    exact List.mem_range.2 id.isLt
  have hlen := (List.Nodup.subperm hvals hsub).length_le
  rwa [List.length_map, List.length_range] at hlen

namespace Branch

/-! ## Lists that have grown -/

/-- The list begins with `root`, and each later node is live, has an identifier of its own, and
names a node before it as its parent. -/
inductive Grown (root : Node) : List Node → Prop
  | root : Grown root [root]
  | grow {l : List Node} {p n : Node} : Grown root l → p ∈ l → n.parent = some p.id →
      n.archived = false → n.id ∉ l.map (·.id) → Grown root (l ++ [n])

namespace Grown

variable {root : Node} {l new : List Node}

theorem nodup (h : Grown root l) : (l.map (·.id)).Nodup := by
  induction h with
  | root => simp
  | grow _ _ _ _ hnew ih =>
    rw [List.map_append, List.map_singleton]
    exact List.nodup_append.2 ⟨ih, by simp, by simpa using hnew⟩

theorem exists_cons (h : Grown root l) : ∃ rest, l = root :: rest := by
  induction h with
  | root => exact ⟨[], rfl⟩
  | grow _ _ _ _ _ ih =>
    obtain ⟨rest, rfl⟩ := ih
    exact ⟨_, rfl⟩

/-- Wherever a later node stands, its parent stands before it. -/
theorem earlier (h : Grown root l) {pre post : List Node} {n : Node} (hl : l = pre ++ n :: post) :
    pre = [] ∧ n = root ∨ ∃ p ∈ pre, n.parent = some p.id ∧ n.archived = false := by
  induction h generalizing pre n post with
  | root =>
    obtain ⟨rfl, hn⟩ | ⟨rfl, hn⟩ := List.singleton_eq_append_iff.1 hl
    · exact .inl ⟨rfl, (List.cons.inj hn).1⟩
    · cases hn
  | grow _ hp hparent hlive _ ih =>
    -- the node is the last one, or it stood in the list before
    rcases List.eq_nil_or_concat post with rfl | ⟨post, m, rfl⟩
    · obtain ⟨rfl, hn⟩ := List.append_inj' hl rfl
      cases hn
      exact .inr ⟨_, hp, hparent, hlive⟩
    · rw [List.concat_eq_append, ← List.cons_append, ← List.append_assoc] at hl
      exact ih (List.append_inj' hl rfl).1

/-- Nobody stands before a node that it names as its parent, or is that node, but the first. -/
theorem eq_root_of_parent (h : Grown root l) {pre post : List Node} {n m : Node}
    (hl : l = pre ++ n :: post) (hm : m ∈ pre ++ [n]) (hparent : m.parent = some n.id) :
    m = root := by
  have hnodup := h.nodup
  rw [hl, List.map_append] at hnodup
  have hapart := (List.nodup_append.1 hnodup).2.2
  rcases List.mem_append.1 hm with hm | hm
  · obtain ⟨front, back, rfl⟩ := List.append_of_mem hm
    rw [List.append_assoc, List.cons_append] at hl
    rcases h.earlier hl with ⟨-, rfl⟩ | ⟨p, hp, hpm, -⟩
    · rfl
    -- its parent would stand in two places
    · rw [hparent] at hpm
      exact absurd (Option.some.inj hpm).symm
        (hapart p.id (List.mem_map_of_mem (List.mem_append_left _ hp)) n.id (by simp))
  · obtain rfl := List.mem_singleton.1 hm
    rcases h.earlier hl with ⟨-, rfl⟩ | ⟨p, hp, hpm, -⟩
    · rfl
    · rw [hparent] at hpm
      exact absurd (Option.some.inj hpm).symm (hapart p.id (List.mem_map_of_mem hp) m.id (by simp))

/-- Live children of nodes in the list may be put behind it, if nobody is met twice. -/
theorem append (h : Grown root l)
    (hnew : ∀ n ∈ new, n.archived = false ∧ ∃ p ∈ l, n.parent = some p.id)
    (hnodup : ((l ++ new).map (·.id)).Nodup) : Grown root (l ++ new) := by
  induction new generalizing l with
  | nil => rwa [List.append_nil]
  | cons n rest ih =>
    obtain ⟨hlive, p, hp, hparent⟩ := hnew n List.mem_cons_self
    have happend : l ++ n :: rest = (l ++ [n]) ++ rest := by simp
    rw [happend] at hnodup ⊢
    refine ih (h.grow hp hparent hlive ?_) (fun m hm => ?_) hnodup
    · rw [List.map_append, List.map_append, List.append_assoc] at hnodup
      intro hmem
      exact (List.nodup_append.1 hnodup).2.2 _ hmem n.id (by simp) rfl
    · obtain ⟨hlive, q, hq, hparent⟩ := hnew m (List.mem_cons_of_mem _ hm)
      exact ⟨hlive, q, List.mem_append_left _ hq, hparent⟩

end Grown

/-! ## Nodes met for the first time -/

variable {seen : List Uuid} {ns : List Node} {n : Node}

theorem unseen_sublist (seen : List Uuid) (ns : List Node) : (unseen seen ns).Sublist ns := by
  fun_induction unseen seen ns with
  | case1 => exact .slnil
  | case2 _ _ _ _ ih => exact ih.cons _
  | case3 _ _ _ _ ih => exact ih.cons_cons _

theorem of_mem_unseen (h : n ∈ unseen seen ns) : n.archived = false ∧ n.id ∉ seen := by
  fun_induction unseen seen ns with
  | case1 => cases h
  | case2 _ _ _ _ ih => exact ih h
  | case3 seen m rest hm ih =>
    rcases List.mem_cons.1 h with rfl | h
    · simpa using hm
    · obtain ⟨hlive, hnew⟩ := ih h
      exact ⟨hlive, fun hmem => hnew (List.mem_cons_of_mem _ hmem)⟩

theorem nodup_unseen (seen : List Uuid) (ns : List Node) :
    ((unseen seen ns).map (·.id)).Nodup := by
  fun_induction unseen seen ns with
  | case1 => exact .nil
  | case2 _ _ _ _ ih => exact ih
  | case3 seen m rest hm ih =>
    refine List.nodup_cons.2 ⟨fun hmem => ?_, ih⟩
    obtain ⟨q, hq, hid⟩ := List.mem_map.1 hmem
    exact (of_mem_unseen hq).2 (hid ▸ List.mem_cons_self)

/-- Who is live is met, then or before. -/
theorem met_of_live (seen : List Uuid) (hn : n ∈ ns) (hlive : n.archived = false) :
    n.id ∈ seen ∨ n.id ∈ (unseen seen ns).map (·.id) := by
  fun_induction unseen seen ns with
  | case1 => cases hn
  | case2 seen m rest hm ih =>
    rcases List.mem_cons.1 hn with rfl | hn
    · exact .inl (hm.resolve_left (by simp [hlive]))
    · exact ih hn
  | case3 seen m rest hm ih =>
    rcases List.mem_cons.1 hn with rfl | hn
    · exact .inr (by simp)
    · rcases ih hn with hseen | hmet
      · rcases List.mem_cons.1 hseen with hid | hseen
        · exact .inr (by simp [hid])
        · exact .inl hseen
      · exact .inr (List.mem_cons_of_mem _ hmet)

/-! ## Walks -/

/-- The loop: from what has been visited and what is pending to all that is collected. -/
inductive Walk (kids : Uuid → List Node) : List Node → List Node → List Node → Prop
  | done {visited : List Node} : Walk kids visited [] visited
  | step {visited rest order : List Node} {n : Node} :
      Walk kids (visited ++ [n])
        (rest ++ unseen ((visited ++ n :: rest).map (·.id)) (kids n.id)) order →
      Walk kids visited (n :: rest) order

/-- Before each round: the nodes met so far have grown from the root, and are of the sort that is
walked over. -/
structure Underway (root : Node) (scope : Node → Prop) (visited pending : List Node) : Prop where
  grown : Grown root (visited ++ pending)
  scope : ∀ n ∈ visited ++ pending, scope n

/-- The children that are listed name the node as their parent, and can be walked over in turn. -/
def Spans (scope : Node → Prop) (kids : Uuid → List Node) : Prop :=
  ∀ n, scope n → ∀ m ∈ kids n.id, scope m ∧ m.parent = some n.id

variable {root : Node} {scope : Node → Prop} {kids : Uuid → List Node}
  {visited pending rest order : List Node}

theorem Underway.start (hroot : scope root) : Underway root scope [] [root] :=
  ⟨.root, by simpa using hroot⟩

theorem Underway.nodup (h : Underway root scope visited pending) :
    ((visited ++ pending).map (·.id)).Nodup :=
  h.grown.nodup

/-- A round puts the new nodes behind all others. -/
theorem round_eq (visited rest new : List Node) (n : Node) :
    visited ++ [n] ++ (rest ++ new) = (visited ++ n :: rest) ++ new := by
  simp

/-- What one round keeps. -/
theorem Underway.step (hkids : Spans scope kids) (h : Underway root scope visited (n :: rest)) :
    Underway root scope (visited ++ [n])
      (rest ++ unseen ((visited ++ n :: rest).map (·.id)) (kids n.id)) := by
  have hn : n ∈ visited ++ n :: rest := by simp
  have hnew : ∀ m ∈ unseen ((visited ++ n :: rest).map (·.id)) (kids n.id),
      scope m ∧ m.parent = some n.id :=
    fun m hm => hkids n (h.scope n hn) m ((unseen_sublist _ _).subset hm)
  constructor <;> rw [round_eq]
  · refine h.grown.append (fun m hm => ⟨(of_mem_unseen hm).1, n, hn, (hnew m hm).2⟩) ?_
    rw [List.map_append]
    refine List.nodup_append.2 ⟨h.nodup, nodup_unseen _ _, ?_⟩
    rintro id hid _ hid' rfl
    obtain ⟨m, hm, rfl⟩ := List.mem_map.1 hid'
    exact (of_mem_unseen hm).2 hid
  · intro m hm
    rcases List.mem_append.1 hm with hm | hm
    · exact h.scope m hm
    · exact (hnew m hm).1

/-- Every walk comes to an end. -/
theorem exists_walk (hkids : Spans scope kids) (h : Underway root scope visited pending) :
    ∃ order, Walk kids visited pending order := by
  -- on how many identifiers are left when those of the visited nodes are taken away
  induction hleft : 2 ^ 128 - visited.length generalizing visited pending with
  | zero =>
    have hlen := Uuid.length_le_of_nodup h.nodup
    rw [List.length_map, List.length_append] at hlen
    have hnil : pending = [] := List.eq_nil_of_length_eq_zero (by omega)
    exact ⟨visited, hnil ▸ .done⟩
  | succ left ih =>
    cases pending with
    | nil => exact ⟨visited, .done⟩
    | cons n rest =>
      obtain ⟨order, horder⟩ := ih (h.step hkids) (by
        rw [List.length_append, List.length_singleton]
        omega)
      exact ⟨order, horder.step⟩

namespace Walk

/-- What was met stays where it is. -/
theorem exists_append (h : Walk kids visited pending order) :
    ∃ found, order = visited ++ pending ++ found := by
  induction h with
  | done => exact ⟨[], by simp⟩
  | step _ ih =>
    obtain ⟨found, rfl⟩ := ih
    exact ⟨_, by simp; rfl⟩

variable (hkids : Spans scope kids)
include hkids

theorem underway (h : Walk kids visited pending order)
    (hunder : Underway root scope visited pending) : Underway root scope order [] := by
  induction h with
  | done => exact hunder
  | step _ ih => exact ih (hunder.step hkids)

/-- The collected list has grown from the first node. -/
theorem grown (h : Walk kids [] [root] order) (hroot : scope root) : Grown root order := by
  have hunder := (h.underway hkids (.start hroot)).grown
  rwa [List.append_nil] at hunder

theorem mem_scope (h : Walk kids [] [root] order) (hroot : scope root) : ∀ n ∈ order, scope n := by
  have hunder := (h.underway hkids (.start hroot)).scope
  rwa [List.append_nil] at hunder

omit hkids in
/-- The live children of every node that has been visited are met. -/
theorem closed_of_visited (h : Walk kids visited pending order)
    (hvisited : ∀ p ∈ visited, ∀ m ∈ kids p.id, m.archived = false →
      m.id ∈ (visited ++ pending).map (·.id)) :
    ∀ p ∈ order, ∀ m ∈ kids p.id, m.archived = false → m.id ∈ order.map (·.id) := by
  induction h with
  | done => simpa using hvisited
  | @step visited rest order n _ ih =>
    refine ih fun p hp m hm hlive => ?_
    have hmet : m.id ∈ (visited ++ n :: rest).map (·.id) ∨
        m.id ∈ (unseen ((visited ++ n :: rest).map (·.id)) (kids n.id)).map (·.id) := by
      rcases List.mem_append.1 hp with hp | hp
      · exact .inl (hvisited p hp m hm hlive)
      · obtain rfl := List.mem_singleton.1 hp
        exact met_of_live _ hm hlive
    simp only [List.map_append, List.map_cons, List.mem_append, List.mem_cons] at hmet ⊢
    tauto

omit hkids in
/-- No live child of a collected node is left out. -/
theorem closed (h : Walk kids [] [root] order) :
    ∀ p ∈ order, ∀ m ∈ kids p.id, m.archived = false → m.id ∈ order.map (·.id) :=
  h.closed_of_visited fun p hp => by cases hp

/-- Children of one parent that are listed by ascending keys are met by ascending keys; the first
node is left out of this. -/
theorem ascending_of_underway (h : Walk kids visited pending order)
    (hunder : Underway root scope visited pending)
    (hsorted : ∀ n, scope n → (kids n.id).Pairwise (·.sort.val < ·.sort.val))
    (hmet : (visited ++ pending).tail.Pairwise fun a b =>
      a.parent = b.parent → a.sort.val < b.sort.val)
    (hparents : ∀ m ∈ (visited ++ pending).tail, ∃ p ∈ visited, m.parent = some p.id) :
    order.tail.Pairwise fun a b => a.parent = b.parent → a.sort.val < b.sort.val := by
  induction h with
  | done => simpa using hmet
  | @step visited rest order n _ ih =>
    have hn : n ∈ visited ++ n :: rest := by simp
    have hchild : ∀ m ∈ unseen ((visited ++ n :: rest).map (·.id)) (kids n.id),
        m.parent = some n.id :=
      fun m hm => (hkids n (hunder.scope n hn) m ((unseen_sublist _ _).subset hm)).2
    refine ih (hunder.step hkids) ?_ ?_ <;>
      rw [round_eq, List.tail_append_of_ne_nil (List.ne_nil_of_mem hn)]
    · refine List.pairwise_append.2 ⟨hmet, ?_, fun a ha b hb hab => ?_⟩
      · refine ((hsorted n (hunder.scope n hn)).sublist (unseen_sublist _ _)).imp ?_
        exact fun hlt _ => hlt
      -- the parents of the others have been visited before this node
      · obtain ⟨p, hp, hparent⟩ := hparents a ha
        rw [hparent, hchild b hb] at hab
        have hnodup := hunder.nodup
        rw [List.map_append] at hnodup
        exact absurd (Option.some.inj hab) ((List.nodup_append.1 hnodup).2.2 _
          (List.mem_map_of_mem hp) _ (by simp))
    · intro m hm
      rcases List.mem_append.1 hm with hm | hm
      · obtain ⟨p, hp, hparent⟩ := hparents m hm
        exact ⟨p, List.mem_append_left _ hp, hparent⟩
      · exact ⟨n, by simp, hchild m hm⟩

/-- Children of one parent are collected by ascending keys if they are listed so. -/
theorem ascending (h : Walk kids [] [root] order) (hroot : scope root)
    (hsorted : ∀ n, scope n → (kids n.id).Pairwise (·.sort.val < ·.sort.val)) :
    order.tail.Pairwise fun a b => a.parent = b.parent → a.sort.val < b.sort.val :=
  h.ascending_of_underway hkids (.start hroot) hsorted .nil fun m hm => by cases hm

end Walk

end Branch

end Outline
