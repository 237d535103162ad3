import Mathlib.Data.List.Perm.Subperm
import Outline.Proofs.Forest.Branch
import Outline.Proofs.Indexed.Commit

/-!
# The forest in memory

The records of the indexed store are those that it answers with. When its spaces agree with
themselves and the locator with the spaces, the forest can be read off the tables of nodes, and the
index lists the groups of the forest.

Main results:

* `Shelf.isListing_siblings` — the index lists the groups of the forest;
* `Shelf.checkAcyclic_eq_ok_iff` — the check of a move finds exactly the moves below itself;
* `Shelf.mem_branch_iff` — a branch is a node and everything below it.
-/

namespace Outline

/-- What a node holds beside its place. -/
structure Node.Payload where
  title : String
  properties : Json
  archived : Bool
  created : Timestamp

namespace Node

def record (n : Node) : Record Payload Timestamp where
  id := n.id
  space := n.space
  kind := n.kind
  parent := n.parent
  sort := n.sort
  payload := ⟨n.title, n.properties, n.archived, n.created⟩
  updated := n.updated

@[simp] theorem record_id (n : Node) : n.record.id = n.id := rfl
@[simp] theorem record_space (n : Node) : n.record.space = n.space := rfl
@[simp] theorem record_kind (n : Node) : n.record.kind = n.kind := rfl
@[simp] theorem record_parent (n : Node) : n.record.parent = n.parent := rfl
@[simp] theorem record_sort (n : Node) : n.record.sort = n.sort := rfl
@[simp] theorem record_group (n : Node) : n.record.group = n.group := rfl

/-- A record shows the whole node. -/
theorem record_inj {n m : Node} : n.record = m.record ↔ n = m := by
  refine ⟨fun h => ?_, congrArg _⟩
  cases n
  cases m
  simp only [record, Record.mk.injEq, Payload.mk.injEq] at h
  simp [h]

end Node

namespace Shelf

/-- The record that the store answers with. -/
def forest (s : Shelf) : Forest Node.Payload Timestamp := fun id =>
  match s.get id with
  | .ok n => some n.record
  | .error _ => none

/-- The spaces agree with themselves, and the locator with the spaces. -/
structure Agrees (s : Shelf) : Prop where
  space       : ∀ sp, (s.space sp).Agrees sp
  locator_iff : ∀ {id sp : Uuid}, s.locator[id]? = some sp ↔ ∃ n, (s.space sp).nodes[id]? = some n

/-- An empty shelf agrees with the empty forest. -/
theorem agrees_empty (gap : Gap) : (empty gap).Agrees := by
  refine ⟨fun sp => ?_, fun {id sp} => ?_⟩
  · simpa [Shelf.space, empty] using Space.agrees_empty sp
  · simp [Shelf.space, empty, Space.empty]

variable {s : Shelf}

/-- A look-up finds the node that its space holds. -/
theorem get_eq_ok_iff (h : s.Agrees) {id : Uuid} {n : Node} :
    s.get id = .ok n ↔ (s.space n.space).nodes[id]? = some n := by
  unfold get spaceOf Space.get
  rw [bind_eq_ok_iff]
  constructor
  · rintro ⟨sp, hsp, hn⟩
    split at hn
    · next m hm =>
      cases hn
      cases hloc : s.locator[id]? <;> simp only [hloc] at hsp
      · cases hsp
      · cases hsp
        rw [(h.space sp).own_space hm]
        exact hm
    · cases hn
  · intro hn
    refine ⟨n.space, ?_, by rw [hn]⟩
    rw [h.locator_iff.2 ⟨n, hn⟩]

/-- What is not in the forest is not found. -/
theorem get_eq_error {id : Uuid} (hid : s.forest id = none) : s.get id = .error (.notFound id) := by
  unfold forest at hid
  split at hid
  · cases hid
  · next e he =>
    unfold get spaceOf Space.get at he ⊢
    cases hloc : s.locator[id]? with
    | none => simp
    | some sp =>
      simp only [hloc, bind_ok] at he ⊢
      cases hn : (s.space sp).nodes[id]? <;> simp [hn] at he ⊢

theorem forest_eq_some_iff (h : s.Agrees) {id : Uuid} {r : Record Node.Payload Timestamp} :
    s.forest id = some r ↔ ∃ n, (s.space n.space).nodes[id]? = some n ∧ n.record = r := by
  simp only [← get_eq_ok_iff h]
  unfold forest
  cases s.get id <;> simp

/-- The node of a record is in the table of its space. -/
theorem exists_node (h : s.Agrees) {id : Uuid} {r : Record Node.Payload Timestamp}
    (hr : s.forest id = some r) :
    ∃ n, s.get id = .ok n ∧ (s.space r.space).nodes[id]? = some n ∧ n.record = r := by
  obtain ⟨n, hn, rfl⟩ := (forest_eq_some_iff h).1 hr
  exact ⟨n, (get_eq_ok_iff h).2 hn, hn, rfl⟩

/-- A node in a space is in the forest. -/
theorem forest_of_node (h : s.Agrees) {sp id : Uuid} {n : Node}
    (hn : (s.space sp).nodes[id]? = some n) : s.forest id = some n.record :=
  (forest_eq_some_iff h).2 ⟨n, by rwa [(h.space sp).own_space hn], rfl⟩

/-- The locator knows the nodes of the forest and no others. -/
theorem locator_eq_none_iff (h : s.Agrees) {id : Uuid} :
    s.locator[id]? = none ↔ s.forest id = none := by
  constructor
  · intro hloc
    cases hf : s.forest id with
    | none => rfl
    | some r =>
      obtain ⟨n, -, hn, -⟩ := exists_node h hf
      rw [h.locator_iff.2 ⟨n, hn⟩] at hloc
      cases hloc
  · intro hf
    cases hloc : s.locator[id]? with
    | none => rfl
    | some sp =>
      obtain ⟨n, hn⟩ := h.locator_iff.1 hloc
      rw [forest_of_node h hn] at hf
      cases hf

/-- The siblings of a group are those of the forest, ordered by their keys. -/
theorem isListing_siblings (h : s.Agrees) (group : Group) :
    IsListing s.forest group ((s.space group.space).siblings group.parent) := by
  refine ⟨Space.ascending_siblings _ _, fun {m} => ?_⟩
  rw [Space.mem_siblings, (h.space _).place_iff]
  constructor
  · rintro ⟨n, hn, hplace⟩
    obtain ⟨hparent, hsort⟩ : n.parent = group.parent ∧ n.sort = m.sort := by
      simpa [Node.place] using hplace
    have hspace := (h.space _).own_space hn
    exact ⟨n.record, forest_of_node h hn, by simp [Node.group, hspace, hparent], hsort⟩
  · rintro ⟨r, hr, rfl, hsort⟩
    obtain ⟨n, -, hn, rfl⟩ := exists_node h hr
    exact ⟨n, hn, by simp [Node.place, Record.group, ← hsort]⟩

/-! ## Bounds of the searches -/

/-- A way up has no more nodes than the space. -/
theorem length_le_size (h : s.Agrees) (ho : Rooted s.forest) {id : Uuid} {path : List Uuid}
    {r : Record Node.Payload Timestamp} (hr : s.forest id = some r)
    (hpath : Ascent s.forest id path) : path.length ≤ (s.space r.space).nodes.size := by
  -- its nodes are distinct and all in the space
  have hsub : path ⊆ (s.space r.space).nodes.toList.map Prod.fst := by
    intro a ha
    obtain ⟨q, hq, hspace⟩ := ho.space_of_ascent hr hpath a ha
    obtain ⟨n, -, hn, -⟩ := exists_node h hq
    rw [hspace] at hn
    exact List.mem_map.2 ⟨(a, n), Std.ExtTreeMap.mem_toList_iff_getElem?_eq_some.2 hn, rfl⟩
  have hlen := (List.Nodup.subperm hpath.nodup hsub).length_le
  rwa [List.length_map, Std.ExtTreeMap.length_toList] at hlen

/-- A climb within a space sees the parents of the forest. -/
theorem parentOf_eq (h : s.Agrees) {id : Uuid} {r : Record Node.Payload Timestamp}
    (hr : s.forest id = some r) : (s.space r.space).parentOf id = r.parent := by
  obtain ⟨n, -, hn, rfl⟩ := exists_node h hr
  simp only [Node.record_space] at hn
  simp [Space.parentOf, hn]

/-- The climb accepts a parent exactly when it is not below the node. -/
theorem checkAcyclic_eq_ok_iff (h : s.Agrees) (ho : Rooted s.forest) {id parent : Uuid}
    {r : Record Node.Payload Timestamp} (hr : s.forest parent = some r) :
    checkAcyclic (s.space r.space).parentOf id parent (s.space r.space).nodes.size = .ok () ↔
      ¬Within s.forest id parent := by
  obtain ⟨path, hpath⟩ := ho.ascent hr
  refine Outline.checkAcyclic_eq_ok_iff hpath (fun a ha q hq => ?_) (length_le_size h ho hr hpath)
  -- the way up stays in the space, whose table tells the parents
  obtain ⟨q', hq', hspace⟩ := ho.space_of_ascent hr hpath a ha
  rw [hq] at hq'
  obtain rfl := Option.some.inj hq'
  rw [← hspace]
  exact parentOf_eq h hq

/-- In a space the index gives the children of each node. -/
theorem levels_eq (s : Space) (fuel : Nat) (level : List Uuid) :
    s.levels fuel level =
      Outline.levels (fun id => (s.siblings (some id)).map (·.id)) fuel level := by
  induction fuel generalizing level with
  | zero => rfl
  | succ fuel ih =>
    rw [Space.levels, Outline.levels, ih]

/-- The space of a node holds everything below it, so the index of that space is enough. -/
theorem isChildren (h : s.Agrees) (ho : Rooted s.forest) {top : Uuid}
    {r : Record Node.Payload Timestamp} (hr : s.forest top = some r) :
    IsChildren s.forest top (fun id => ((s.space r.space).siblings (some id)).map (·.id)) := by
  have hlist := fun parent => isListing_siblings h ⟨r.space, parent⟩
  refine ⟨fun {id parent} hw => ?_, fun parent => (hlist (some parent)).nodup⟩
  rw [(hlist (some parent)).id_mem_iff]
  constructor
  · rintro ⟨q, hq, hgroup⟩
    simp only [Record.group, Group.mk.injEq] at hgroup
    exact ⟨q, hq, hgroup.2⟩
  · rintro ⟨q, hq, hparent⟩
    refine ⟨q, hq, ?_⟩
    simp [Record.group, hparent, ho.space_of_within hq hr (hw.of_parent hq hparent)]

variable {top : Uuid} {r : Record Node.Payload Timestamp}

/-- A branch is the node with everything below it. -/
theorem mem_branch_iff (id : Uuid) (h : s.Agrees) (ho : Rooted s.forest)
    (hr : s.forest top = some r) :
    id ∈ (s.space r.space).branch top ↔ Within s.forest top id := by
  obtain ⟨path, hpath⟩ := ho.ascent hr
  rw [Space.branch, levels_eq]
  refine mem_levels_iff (isChildren h ho hr) hpath fun {a way} hway hmem => ?_
  obtain ⟨q, hq⟩ := hway.stored hway.self_mem
  rw [ho.space_of_within hq hr ⟨way, hway, hmem⟩]
  exact length_le_size h ho hq hway

/-- No node is collected twice. -/
theorem nodup_branch (h : s.Agrees) (ho : Rooted s.forest) (hr : s.forest top = some r) :
    ((s.space r.space).branch top).Nodup := by
  obtain ⟨path, hpath⟩ := ho.ascent hr
  rw [Space.branch, levels_eq]
  exact levels_nodup (isChildren h ho hr) hpath

end Shelf

end Outline
