import Outline.Proofs.Excerpt.Basic
import Outline.Proofs.Indexed.Runs

/-!
# Excerpts of the store in memory

The excerpt of a space has the index of the space, since an index tells of places only. So whatever
is planned and committed in a space is planned and committed in its excerpt. The store as a whole
shows the spaces that are seen and where their nodes are.

A call that names what is seen is served by the excerpt as by the store itself. A call that works in
another space leaves the excerpt as it is.

Main results:

* `space_planMove`, `space_commit` — what is done in a space is done in its excerpt;
* `shelf_insert`, `shelf_relocate` and the like — calls on what is seen;
* `shelf_serve_of_apart` — calls on anything else.
-/

namespace Outline.Excerpt

variable (e : Excerpt)

/-- What is shown of a space. The index is about places only, so it is shown as it is. -/
def space (s : Space) : Space :=
  { s with nodes := s.nodes.map fun _ n => e.node n }

section Space

variable (s : Space)

/-- A node is filed under its identifier as before. -/
theorem space_nodes (id : Uuid) : (e.space s).nodes[id]? = s.nodes[id]?.map e.node :=
  Std.ExtTreeMap.getElem?_map

/-- There is nothing to hide in an empty space. -/
theorem space_empty : e.space .empty = .empty :=
  congrArg₂ Space.mk (Std.ExtTreeMap.ext_getElem? fun id => e.space_nodes .empty id) rfl

/-- A node is found or missing as before, and shown if it is found. -/
theorem space_get (id : Uuid) : (e.space s).get id = (s.get id).map e.node := by
  unfold Space.get
  rw [space_nodes]
  cases s.nodes[id]? <;> rfl

/-- So is a parent, if there is one. -/
theorem space_getParent (parent : Option Uuid) :
    (e.space s).getParent parent = (s.getParent parent).map (Option.map e.node) := by
  cases parent with
  | none => rfl
  | some p =>
    rw [Space.getParent, space_get, Space.getParent]
    cases s.get p <;> rfl

/-- Who is above whom is not hidden. -/
theorem space_parentOf : (e.space s).parentOf = s.parentOf := by
  funext id
  unfold Space.parentOf
  rw [space_nodes]
  cases s.nodes[id]? with
  | none => rfl
  | some n => exact e.node_parent n

/-- Nor are the members of a group and their keys, which the index holds. -/
theorem space_siblings (parent : Option Uuid) : (e.space s).siblings parent = s.siblings parent :=
  rfl

/-- Nothing is left out of a space that is seen. -/
theorem space_size : (e.space s).nodes.size = s.nodes.size :=
  Std.ExtTreeMap.size_map

/-- The nodes of a group, each as it is shown. -/
theorem space_children (parent : Option Uuid) :
    (e.space s).children parent = (s.children parent).map e.node := by
  unfold Space.children
  rw [space_siblings, List.map_filterMap]
  congr 1
  funext m
  exact e.space_nodes s m.id

/-! ## Committing changes -/

/-- The places that changes set free are those of the old versions, hidden or not. -/
theorem space_release (changes : List Node) :
    (e.space s).release (changes.map e.node) = s.release changes := by
  unfold Space.release
  rw [List.foldl_map]
  congr 1
  funext places n
  rw [space_nodes, node_id]
  cases s.nodes[n.id]? with
  | none => rfl
  | some old =>
    dsimp only [Option.map_some]
    rw [Node.place, node_parent, node_sort, Node.place]

/-- Changes meet the same conflict first, since it is about places alone. -/
theorem conflict?_map (places : Std.ExtTreeMap Place Uuid) (claimed : List Place)
    (changes : List Node) :
    Space.conflict? places claimed (changes.map e.node) =
      (Space.conflict? places claimed changes).map e.node := by
  induction changes generalizing claimed with
  | nil => rfl
  | cons n rest ih =>
    have hplace : (e.node n).place = n.place := by
      rw [Node.place, node_parent, node_sort, Node.place]
    rw [List.map_cons, Space.conflict?, Space.conflict?, hplace]
    split
    · rfl
    · exact ih _

/-- Nodes entered one after the other, each hidden before or all hidden afterwards. -/
theorem foldl_insert_map (changes : List Node) (nodes : Std.ExtTreeMap Uuid Node) :
    (changes.map e.node).foldl (fun nodes n => nodes.insert n.id n)
        (nodes.map fun _ n => e.node n) =
      (changes.foldl (fun nodes n => nodes.insert n.id n) nodes).map fun _ n => e.node n := by
  induction changes generalizing nodes with
  | nil => rfl
  | cons n rest ih =>
    have hinsert : (nodes.map fun _ n => e.node n).insert n.id (e.node n) =
        (nodes.insert n.id n).map fun _ n => e.node n := by
      refine Std.ExtTreeMap.ext_getElem? fun id => ?_
      rw [Std.ExtTreeMap.getElem?_map, Std.ExtTreeMap.getElem?_insert,
        Std.ExtTreeMap.getElem?_insert, Std.ExtTreeMap.getElem?_map]
      split <;> rfl
    rw [List.map_cons, List.foldl_cons, node_id, hinsert, List.foldl_cons, ih]

/-- So changes go into the excerpt of a space exactly as into the space. -/
theorem space_commit (space : Uuid) (changes : List Node) :
    (e.space s).commit space (changes.map e.node) = (s.commit space changes).map e.space := by
  unfold Space.commit
  dsimp only
  rw [space_release, conflict?_map]
  cases Space.conflict? (s.release changes) [] changes with
  -- what is reported of a conflict is the place
  | some n =>
    dsimp only [Option.map_some]
    rw [node_parent, node_sort]
    rfl
  | none =>
    refine congrArg Except.ok (congrArg₂ Space.mk (e.foldl_insert_map changes s.nodes) ?_)
    rw [List.foldl_map]
    congr 1
    funext places n
    rw [Node.place, node_parent, node_sort, node_id, Node.place]

/-! ## Placing a node -/

/-- A member with a new key, stamped with the time of the change or with none. -/
theorem space_rekeyed? (now : Timestamp) (m : Sibling) :
    (e.space s).rekeyed? .epoch m = (s.rekeyed? now m).map e.node := by
  unfold Space.rekeyed?
  rw [space_nodes]
  cases s.nodes[m.id]? with
  | none => rfl
  | some n =>
    dsimp only [Option.map_some]
    rw [node_sort]
    split
    · rfl
    · rw [Option.map_some, node_rekey]

/-- The changes that a placement asks for in a group. -/
theorem space_changesFor (n : Node) (parent : Option Uuid) (now : Timestamp) (p : Placement) :
    (e.space s).changesFor (e.node n) parent .epoch p =
      (s.changesFor n parent now p).map e.node := by
  cases p with
  | key sort =>
    exact congrArg (· :: []) (e.node_moveTo n parent sort now).symm
  | respread members =>
    unfold Space.changesFor
    dsimp only
    rw [List.map_filterMap]
    congr 1
    funext m
    rw [node_id]
    split
    · rw [Option.map_some, node_moveTo]
    · exact e.space_rekeyed? s now m

/-- The same for a node that is new. -/
theorem space_changesForNew (n : Node) (now : Timestamp) (p : Placement) :
    (e.space s).changesForNew (e.node n) .epoch p = (s.changesForNew n now p).map e.node := by
  cases p with
  | key sort =>
    exact congrArg (· :: []) (e.node_with_sort n sort).symm
  | respread members =>
    unfold Space.changesForNew
    rw [node_parent]
    exact e.space_changesFor s n n.parent now _

/-- A move is planned by places, so it is planned alike, or refused alike. -/
theorem space_planMove (gap : Gap) (id : Uuid) (parent : Option Uuid) (target : Target)
    (now : Timestamp) :
    (e.space s).planMove gap id parent target .epoch =
      (s.planMove gap id parent target now).map (List.map e.node) := by
  unfold Space.planMove
  rw [space_parentOf, space_size, space_siblings]
  refine bind_eq_map (e.space_get s id) fun n _ => ?_
  refine bind_eq_map (e.space_getParent s parent) fun pn _ => ?_
  rw [node_kind, node_space, checkParent_node]
  have hplace : ∀ group, (gap.placeIn group (s.siblings parent) id target >>= fun p =>
      pure ((e.space s).changesFor (e.node n) parent .epoch p)) =
        (gap.placeIn group (s.siblings parent) id target >>= fun p =>
          pure (s.changesFor n parent now p)).map (List.map e.node) := fun group =>
    bind_eq_map_of_same fun p _ => congrArg Except.ok (e.space_changesFor s n parent now p)
  refine bind_eq_map_of_same fun _ _ => ?_
  -- only below a parent is there a way up to be climbed
  cases parent with
  | none => exact hplace _
  | some p => exact bind_eq_map_of_same fun _ _ => hplace _

/-! ## Branches -/

/-- The levels of a descent depend on who is below whom. -/
theorem space_levels (fuel : Nat) (level : List Uuid) :
    (e.space s).levels fuel level = s.levels fuel level := by
  induction fuel generalizing level with
  | zero => rfl
  | succ fuel ih =>
    rw [Space.levels, Space.levels, ih]
    rfl

/-- So the branch of a node has the same members. -/
theorem space_branch (id : Uuid) : (e.space s).branch id = s.branch id := by
  rw [Space.branch, space_size, space_levels, Space.branch]

/-- A branch that is removed and the rest hidden, or the other way round. -/
theorem space_remove (top : Node) (ids : List Uuid) :
    (e.space s).remove (e.node top) ids = e.space (s.remove top ids) := by
  refine congrArg₂ Space.mk (Std.ExtTreeMap.ext_getElem? fun id => ?_) ?_
  · rw [Std.ExtTreeMap.getElem?_filter', space_nodes, Std.ExtTreeMap.getElem?_map,
      Space.remove, Std.ExtTreeMap.getElem?_filter']
    cases s.nodes[id]? with
    | none => rfl
    | some n =>
      rw [Option.map_some, Option.filter_some, Option.filter_some]
      split <;> rfl
  · rw [Node.place, node_parent, node_sort]
    rfl

end Space

/-! ## The store as a whole -/

/-- What is shown of the store. -/
def shelf (s : Shelf) : Shelf where
  gap := s.gap
  spaces := (s.spaces.filter fun id _ => e.sees id).map fun _ space => e.space space
  locator := s.locator.filter fun _ space => e.sees space

variable {e} {s : Shelf}

/-- The locator keeps the nodes of the spaces that are seen. -/
theorem shelf_locator (id : Uuid) :
    (e.shelf s).locator[id]? = s.locator[id]?.filter fun space => e.sees space :=
  Std.ExtTreeMap.getElem?_filter'

/-- The excerpt has the spaces that are seen and were there. -/
theorem shelf_spaces (id : Uuid) :
    (e.shelf s).spaces[id]? = (s.spaces[id]?.filter fun _ => e.sees id).map e.space := by
  rw [shelf, Std.ExtTreeMap.getElem?_map, Std.ExtTreeMap.getElem?_filter']

/-- A space that is not there counts as an empty one, on both sides. -/
theorem shelf_space {sp : Uuid} (hsp : e.sees sp = true) :
    (e.shelf s).space sp = e.space (s.space sp) := by
  rw [Shelf.space, shelf_spaces, Shelf.space]
  cases s.spaces[sp]? with
  | none => exact e.space_empty.symm
  | some space => rw [Option.filter_some, if_pos hsp, Option.map_some, Option.getD_some,
      Option.getD_some]

/-- A space that is seen is written. -/
theorem spaces_insert {sp : Uuid} (hsp : e.sees sp = true) (space : Space) :
    (e.shelf (s.putSpace sp space)).spaces = (e.shelf s).spaces.insert sp (e.space space) := by
  refine Std.ExtTreeMap.ext_getElem? fun id => ?_
  rw [shelf_spaces, Std.ExtTreeMap.getElem?_insert, shelf_spaces, Shelf.putSpace,
    Std.ExtTreeMap.getElem?_insert]
  split
  · next hid =>
    obtain rfl : sp = id := Std.LawfulEqCmp.eq_of_compare hid
    rw [Option.filter_some, if_pos hsp, Option.map_some]
  · rfl

/-- Another space is written. -/
theorem spaces_insert_of_unseen {sp : Uuid} (hsp : e.sees sp = false) (space : Space) :
    (e.shelf (s.putSpace sp space)).spaces = (e.shelf s).spaces := by
  refine Std.ExtTreeMap.ext_getElem? fun id => ?_
  rw [shelf_spaces, shelf_spaces, Shelf.putSpace, Std.ExtTreeMap.getElem?_insert]
  split
  · next hid =>
    obtain rfl : sp = id := Std.LawfulEqCmp.eq_of_compare hid
    rw [hsp]
    cases s.spaces[sp]? <;> rfl
  · rfl

/-- A space is written whose excerpt stays the same. -/
theorem spaces_insert_of_same {sp : Uuid} {space : Space} (hsp : sp ∈ s.spaces)
    (hspace : e.space space = e.space (s.space sp)) :
    (e.shelf (s.putSpace sp space)).spaces = (e.shelf s).spaces := by
  refine Std.ExtTreeMap.ext_getElem? fun id => ?_
  rw [shelf_spaces, shelf_spaces, Shelf.putSpace, Std.ExtTreeMap.getElem?_insert]
  split
  · next hid =>
    obtain rfl : sp = id := Std.LawfulEqCmp.eq_of_compare hid
    obtain ⟨old, hold⟩ := Option.isSome_iff_exists.1
      (Std.ExtTreeMap.isSome_getElem?_iff_mem.2 hsp)
    rw [Shelf.space, hold, Option.getD_some] at hspace
    rw [hold, Option.filter_some, Option.filter_some]
    split
    · rw [Option.map_some, Option.map_some, hspace]
    · rfl
  · rfl

/-- A space that is seen is replaced by its new version. -/
theorem shelf_putSpace {sp : Uuid} (hsp : e.sees sp = true) (space : Space) :
    e.shelf (s.putSpace sp space) = (e.shelf s).putSpace sp (e.space space) :=
  congrArg (fun spaces => Shelf.mk s.gap spaces (e.shelf s).locator) (spaces_insert hsp space)

/-- The new version of a space that is not seen does not show. -/
theorem shelf_putSpace_of_unseen {sp : Uuid} (hsp : e.sees sp = false) (space : Space) :
    e.shelf (s.putSpace sp space) = e.shelf s :=
  congrArg (fun spaces => Shelf.mk s.gap spaces (e.shelf s).locator)
    (spaces_insert_of_unseen hsp space)

/-! ## Calls on what is seen -/

/-- The locator of a sound store tells where the node is. -/
theorem sees_of_locator (h : s.Agrees) {id sp : Uuid} {seen : Bool}
    (hid : ∀ r, s.forest id = some r → e.sees r.space = seen) (hsp : s.locator[id]? = some sp) :
    e.sees sp = seen := by
  obtain ⟨n, hn⟩ := h.locator_iff.1 hsp
  rw [← (h.space sp).own_space hn]
  exact hid _ (Shelf.forest_of_node h hn)

/-- The space in which the locator looks for a node is the space of its record. -/
theorem sees_of_spaceOf (h : s.Agrees) {id sp : Uuid} {seen : Bool}
    (hid : ∀ r, s.forest id = some r → e.sees r.space = seen) (hsp : s.spaceOf id = .ok sp) :
    e.sees sp = seen := by
  unfold Shelf.spaceOf at hsp
  split at hsp
  · next hloc =>
    cases hsp
    exact sees_of_locator h hid hloc
  · cases hsp

section Seen

variable (h : s.Agrees)
include h

/-- A node that is near is looked for in the same space. -/
theorem locator_of_near {id : Uuid} (hid : e.Near s.forest id) :
    (e.shelf s).locator[id]? = s.locator[id]? := by
  rw [shelf_locator]
  cases hsp : s.locator[id]? with
  | none => rfl
  | some sp => rw [Option.filter_some, if_pos (sees_of_locator h hid hsp)]

/-- So its space is found, or reported as missing, alike. -/
theorem shelf_spaceOf {id : Uuid} (hid : e.Near s.forest id) :
    (e.shelf s).spaceOf id = s.spaceOf id := by
  rw [Shelf.spaceOf, locator_of_near h hid, Shelf.spaceOf]

/-- A node that is near is found or missing as before. -/
theorem shelf_get {id : Uuid} (hid : e.Near s.forest id) :
    (e.shelf s).get id = (s.get id).map e.node := by
  unfold Shelf.get
  rw [shelf_spaceOf h hid]
  refine bind_eq_map_of_same fun sp hsp => ?_
  rw [shelf_space (sees_of_spaceOf h hid hsp), space_get]

omit h in
/-- A group of a space that is seen is listed or refused alike. -/
theorem shelf_list {group : Group} (hsp : e.sees group.space = true) :
    (e.shelf s).list group = (s.list group).map (List.map e.node) := by
  unfold Shelf.list
  rw [shelf_space hsp]
  refine bind_eq_map (e.space_getParent _ _) fun _ _ => ?_
  exact congrArg Except.ok (e.space_children _ _)

/-- A new node in a space that is seen, whichever way its key is chosen. -/
theorem shelf_insert {n : Node} (hid : e.Near s.forest n.id) (hsp : e.sees n.space = true)
    (hcheck : (e.node n).check = n.check) (entry : Shelf.Entry) (now : Timestamp) :
    (e.shelf s).insert (e.node n) entry .epoch =
      (s.insert n entry now).map (Prod.map e.node e.shelf) := by
  unfold Shelf.insert
  rw [hcheck, node_id, node_space, node_parent, node_kind, node_group, shelf_space hsp,
    Std.ExtTreeMap.contains_eq_isSome_getElem?, locator_of_near h hid,
    ← Std.ExtTreeMap.contains_eq_isSome_getElem?]
  refine bind_eq_map_of_same fun _ _ => ?_
  by_cases hstored : s.locator.contains n.id = true
  · rw [if_pos hstored, if_pos hstored]
    rfl
  rw [if_neg hstored, if_neg hstored]
  refine bind_eq_map (e.space_getParent _ _) fun parent _ => ?_
  rw [checkParent_node]
  refine bind_eq_map_of_same fun _ _ => ?_
  -- whatever changes, it is committed and the new node is read
  have hwrite : ∀ changes,
      ((e.space (s.space n.space)).commit n.space (changes.map e.node) >>= fun space =>
        space.get n.id >>= fun stored => pure (stored,
          { (e.shelf s).putSpace n.space space with
            locator := (e.shelf s).locator.insert n.id n.space })) =
      ((s.space n.space).commit n.space changes >>= fun space =>
        space.get n.id >>= fun stored => pure (stored,
          { s.putSpace n.space space with
            locator := s.locator.insert n.id n.space })).map (Prod.map e.node e.shelf) := by
    intro changes
    refine bind_eq_map (e.space_commit _ _ _) fun space _ => ?_
    refine bind_eq_map (e.space_get _ _) fun stored _ => ?_
    refine congrArg Except.ok (Prod.ext rfl ?_)
    refine congrArg₂ (Shelf.mk s.gap) (spaces_insert hsp space).symm ?_
    refine Std.ExtTreeMap.ext_getElem? fun id => ?_
    rw [Std.ExtTreeMap.getElem?_insert, shelf_locator, Std.ExtTreeMap.getElem?_filter',
      Std.ExtTreeMap.getElem?_insert]
    split
    · rw [Option.filter_some, if_pos hsp]
    · rfl
  cases entry with
  | own => exact hwrite [n]
  | last =>
    refine bind_eq_map_of_same fun p _ => ?_
    rw [space_changesForNew]
    exact hwrite _

/-- A patch is applied where payload is shown. -/
theorem shelf_update (he : e.payload = true) {id : Uuid} (hid : e.Near s.forest id) (patch : Patch)
    (now : Timestamp) :
    (e.shelf s).update id patch .epoch =
      (s.update id patch now).map (Prod.map e.node e.shelf) := by
  unfold Shelf.update
  rw [shelf_spaceOf h hid]
  refine bind_eq_map_of_same fun sp hsp => ?_
  have hsees := sees_of_spaceOf h hid hsp
  dsimp only
  rw [shelf_space hsees]
  refine bind_eq_map (e.space_get _ _) fun n _ => ?_
  rw [← node_patch he n patch now, node_check (.inl he)]
  refine bind_eq_map_of_same fun _ _ => congrArg Except.ok (Prod.ext rfl ?_)
  refine Eq.trans ?_ (shelf_putSpace hsees _).symm
  refine congrArg ((e.shelf s).putSpace sp) (congrArg₂ Space.mk ?_ rfl)
  refine Std.ExtTreeMap.ext_getElem? fun k => ?_
  rw [Std.ExtTreeMap.getElem?_insert, space_nodes, Std.ExtTreeMap.getElem?_map,
    Std.ExtTreeMap.getElem?_insert]
  split <;> rfl

omit h in
/-- A removal from a space that is seen, with its count. -/
theorem shelf_delete {sp : Uuid} (hsp : e.sees sp = true) (top : Uuid) :
    (e.shelf s).delete sp top = (s.delete sp top).map (Prod.map id e.shelf) := by
  unfold Shelf.delete
  dsimp only
  rw [shelf_space hsp, space_branch]
  refine bind_eq_map (e.space_get _ _) fun n _ => congrArg Except.ok (Prod.ext rfl ?_)
  rw [space_remove]
  refine congrArg₂ (Shelf.mk s.gap) (spaces_insert hsp _).symm ?_
  -- the locator is filtered twice, once for the excerpt and once for the branch
  refine Std.ExtTreeMap.ext_getElem? fun k => ?_
  rw [Std.ExtTreeMap.getElem?_filter', shelf_locator, Std.ExtTreeMap.getElem?_filter',
    Std.ExtTreeMap.getElem?_filter', Option.filter_filter, Option.filter_filter]
  congr 1
  funext v
  exact Bool.and_comm _ _

/-- A move of a node that is near, to wherever `find` says. -/
theorem shelf_relocate {id : Uuid} (hid : e.Near s.forest id)
    {find find' : Space → Except StoreError (Option Uuid)}
    (hfind : ∀ space, find' (e.space space) = find space) (target : Target) (now : Timestamp) :
    (e.shelf s).relocate id find' target .epoch =
      (s.relocate id find target now).map (Prod.map e.node e.shelf) := by
  unfold Shelf.relocate
  rw [shelf_spaceOf h hid]
  refine bind_eq_map_of_same fun sp hsp => ?_
  have hsees := sees_of_spaceOf h hid hsp
  dsimp only
  rw [shelf_space hsees, hfind]
  refine bind_eq_map_of_same fun parent _ => ?_
  refine bind_eq_map (e.space_planMove _ _ _ _ _ now) fun changes _ => ?_
  refine bind_eq_map (e.space_commit _ _ _) fun space _ => ?_
  refine bind_eq_map (e.space_get _ _) fun n _ => ?_
  exact congrArg Except.ok (Prod.ext rfl (shelf_putSpace hsees space).symm)

omit h in
/-- Finding the parent of a node needs no more than what is shown. -/
theorem space_get_parent (id : Uuid) (space : Space) :
    ((e.space space).get id).map Node.parent = (space.get id).map Node.parent := by
  rw [space_get]
  cases space.get id with
  | error err => rfl
  | ok n => exact congrArg Except.ok (e.node_parent n)

/-- A move beside an anchor, which is looked for in the space of the node. -/
theorem shelf_moveBeside {id : Uuid} (hid : e.Near s.forest id) (anchor : Uuid) (side : Side)
    (now : Timestamp) :
    (e.shelf s).moveBeside id anchor side .epoch =
      (s.moveBeside id anchor side now).map (Prod.map e.node e.shelf) := by
  unfold Shelf.moveBeside
  by_cases hself : anchor = id
  · rw [if_pos hself, if_pos hself]
    rfl
  · rw [if_neg hself, if_neg hself]
    exact shelf_relocate h hid (space_get_parent anchor) _ _

omit h in
/-- New keys for a group of a space that is seen. -/
theorem shelf_renumber {group : Group} (hsp : e.sees group.space = true) (now : Timestamp) :
    (e.shelf s).renumber group .epoch =
      (s.renumber group now).map (Prod.map (List.map e.node) e.shelf) := by
  unfold Shelf.renumber
  dsimp only
  rw [shelf_space hsp, space_siblings]
  refine bind_eq_map (e.space_getParent _ _) fun _ _ => bind_eq_map_of_same fun members _ => ?_
  have hchanges : members.filterMap ((e.space (s.space group.space)).rekeyed? .epoch) =
      (members.filterMap ((s.space group.space).rekeyed? now)).map e.node := by
    rw [List.map_filterMap]
    congr 1
    funext m
    exact e.space_rekeyed? _ now m
  rw [hchanges]
  refine bind_eq_map (e.space_commit _ _ _) fun space _ => ?_
  exact congrArg Except.ok (Prod.ext (e.space_children space _) (shelf_putSpace hsp space).symm)

end Seen

/-! ## Calls on anything else -/

/-- Where payload is not shown, a change of it is not shown either. -/
theorem shelf_update_of_bare (he : e.payload = false) (id : Uuid) (patch : Patch)
    (now : Timestamp) :
    LeadsTo (fun s' => e.shelf s' = e.shelf s) (s.update id patch now) := by
  unfold Shelf.update
  refine .bind fun sp _ => .bind fun n hn => .bind fun _ _ => .pure ?_
  have hnode : (s.space sp).nodes[id]? = some n := Shelf.node_of_space_get hn
  have hspace : e.space { s.space sp with
      nodes := (s.space sp).nodes.insert id (n.patch patch now) } = e.space (s.space sp) := by
    refine congrArg₂ Space.mk (Std.ExtTreeMap.ext_getElem? fun k => ?_) rfl
    rw [Std.ExtTreeMap.getElem?_map, Std.ExtTreeMap.getElem?_insert, Std.ExtTreeMap.getElem?_map]
    split
    · next hk =>
      obtain rfl : id = k := Std.LawfulEqCmp.eq_of_compare hk
      rw [hnode, Option.map_some, Option.map_some, node_patch_of_bare he]
    · rfl
  -- a space that has the node is there, so it is written over and not added
  have hsp : sp ∈ s.spaces := by
    rw [← Std.ExtTreeMap.isSome_getElem?_iff_mem, Option.isSome_iff_ne_none]
    intro hnone
    rw [Shelf.space, hnone] at hnode
    simp [Space.empty] at hnode
  exact congrArg (fun spaces => Shelf.mk s.gap spaces (e.shelf s).locator)
    (spaces_insert_of_same hsp hspace)

/-- A new node in a space that is not seen does not show. -/
theorem shelf_insert_of_unseen {n : Node} (hsp : e.sees n.space = false) (entry : Shelf.Entry)
    (now : Timestamp) : LeadsTo (fun s' => e.shelf s' = e.shelf s) (s.insert n entry now) := by
  have henter : s.locator.contains n.id ≠ true → ∀ space,
      e.shelf { s.putSpace n.space space with locator := s.locator.insert n.id n.space } =
        e.shelf s := by
    intro hnew space
    refine congrArg₂ (Shelf.mk s.gap) (spaces_insert_of_unseen hsp space) ?_
    refine Std.ExtTreeMap.ext_getElem? fun id => ?_
    rw [Std.ExtTreeMap.getElem?_filter', Std.ExtTreeMap.getElem?_insert,
      Std.ExtTreeMap.getElem?_filter']
    split
    -- the identifier is new, so the locator showed nothing of it
    · next hid =>
      obtain rfl : n.id = id := Std.LawfulEqCmp.eq_of_compare hid
      rw [Std.ExtTreeMap.contains_eq_isSome_getElem?] at hnew
      rw [Option.not_isSome_iff_eq_none.1 hnew, Option.filter_some, hsp]
      rfl
    · rfl
  unfold Shelf.insert
  refine .bind fun _ _ => .guard fun hnew => .bind fun _ _ => .bind fun _ _ => ?_
  cases entry with
  | own =>
    exact .bind fun _ _ => .bind fun space _ => .bind fun _ _ => .pure (henter hnew space)
  | last =>
    exact .bind fun _ _ => .bind fun _ _ => .bind fun space _ => .bind fun _ _ =>
      .pure (henter hnew space)

/-- A move of a node that is far away does not show. -/
theorem shelf_relocate_of_far (h : s.Agrees) {id : Uuid} (hid : e.Far s.forest id)
    (find : Space → Except StoreError (Option Uuid)) (target : Target) (now : Timestamp) :
    LeadsTo (fun s' => e.shelf s' = e.shelf s) (s.relocate id find target now) := by
  unfold Shelf.relocate
  refine .bind fun sp hsp => .bind fun _ _ => .bind fun _ _ => .bind fun _ _ => .bind fun _ _ => ?_
  exact .pure (shelf_putSpace_of_unseen (sees_of_spaceOf h hid hsp) _)

/-- Whatever is below a node is in the space of the node. -/
theorem shelf_delete_of_unseen (h : s.Sound) {sp : Uuid} (hsp : e.sees sp = false) (id : Uuid) :
    LeadsTo (fun s' => e.shelf s' = e.shelf s) (s.delete sp id) := by
  unfold Shelf.delete
  refine .bind fun n hn => .pure ?_
  have ha := h.agrees
  have hr : s.forest id = some n.record := Shelf.forest_of_node ha (Shelf.node_of_space_get hn)
  obtain rfl : n.space = sp := (ha.space sp).own_space (Shelf.node_of_space_get hn)
  refine congrArg₂ (Shelf.mk s.gap) (spaces_insert_of_unseen hsp _) ?_
  refine Std.ExtTreeMap.ext_getElem? fun k => ?_
  rw [Std.ExtTreeMap.getElem?_filter', Std.ExtTreeMap.getElem?_filter',
    Std.ExtTreeMap.getElem?_filter']
  cases hk : s.locator[k]? with
  | none => rfl
  | some sp' =>
    by_cases hmem : k ∈ (s.space n.space).branch id
    -- what goes from the locator was not shown in it
    · have hw := (Shelf.mem_branch_iff k ha h.outline.rooted hr).1 hmem
      obtain ⟨m, hm⟩ := ha.locator_iff.1 hk
      have hm' := Shelf.forest_of_node ha hm
      have hspace : n.space = m.space := h.outline.rooted.space_of_within hm' hr hw
      have hunseen : e.sees sp' = false := by
        rwa [← (ha.space sp').own_space hm, ← hspace]
      rw [Option.filter_some, if_neg (by simpa using hmem), Option.filter_some, hunseen]
      rfl
    · rw [Option.filter_some, if_pos (by simpa using hmem)]

/-- A call that names neither a space that is seen nor a node in one leaves the excerpt as it is. -/
theorem shelf_serve_of_apart (h : s.Sound) {c : StoreCall}
    (hsp : ∀ sp, c.space? = some sp → e.sees sp = false)
    (hid : ∀ id, c.subject? = some id → e.Far s.forest id) (now : Timestamp) :
    LeadsTo (fun s' => e.shelf s' = e.shelf s) (Shelf.store.serve c now s) := by
  have hread : ∀ {α : Type} (outcome : Except StoreError α),
      LeadsTo (fun s' => e.shelf s' = e.shelf s) (s.reading outcome) :=
    fun outcome _ _ hs => congrArg e.shelf (Shelf.of_reading hs)
  -- a call that writes puts back one space, and that one is not seen
  cases c with
  | get | list | nextSort => exact hread _
  | create n => exact shelf_insert_of_unseen (hsp _ rfl) .own now
  | createLast n => exact shelf_insert_of_unseen (hsp _ rfl) .last now
  | update id patch =>
    show LeadsTo _ (s.update id patch now)
    refine .bind fun sp hspace => .bind fun _ _ => .bind fun _ _ => .pure ?_
    exact shelf_putSpace_of_unseen (sees_of_spaceOf h.agrees (hid id rfl) hspace) _
  | delete sp id => exact shelf_delete_of_unseen h (hsp _ rfl) id
  | moveLast id parent =>
    exact shelf_relocate_of_far h.agrees (hid id rfl) (fun _ => .ok parent) .last now
  | moveAt id parent sort =>
    exact shelf_relocate_of_far h.agrees (hid id rfl) (fun _ => .ok parent) (.at sort) now
  | reorder id sort =>
    exact shelf_relocate_of_far h.agrees (hid id rfl) (fun space => (space.get id).map (·.parent))
      (.at sort) now
  | moveBeside id anchor side =>
    show LeadsTo _ (s.moveBeside id anchor side now)
    unfold Shelf.moveBeside
    split
    · exact .error
    · exact shelf_relocate_of_far h.agrees (hid id rfl) _ _ now
  | renumber group =>
    show LeadsTo _ (s.renumber group now)
    exact .bind fun _ _ => .bind fun _ _ => .bind fun _ _ =>
      .pure (shelf_putSpace_of_unseen (hsp _ rfl) _)

end Outline.Excerpt
