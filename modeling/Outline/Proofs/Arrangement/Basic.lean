import Mathlib.Data.List.Perm.Subperm
import Outline.Proofs.Forest.Branch
import Outline.Proofs.Forest.Position
import Outline.Proofs.Indexed.Commit
import Outline.Proofs.Placement.Overflow

/-!
# Groups as bare lists

An arrangement keeps each group as a list of identifiers. It has no sort keys, so nothing in it can
run out or has to be respread: a node that is created, or moved to the end, is put behind the
others, and one that is moved beside an anchor is taken out and put next to it. Of the nodes it
knows as much as is needed to tell which calls are refused.

A forest refines an arrangement when each group, listed by key, is the list of the arrangement. The
changes of a forest are followed by changes of the arrangement, whatever the keys are.

Main results:

* `Refines.suits_iff`, `Refines.mem_branch_iff` — the checks of an arrangement are those of the
  forest;
* `Refines.put`, `Refines.rekeyed`, `Refines.removed` — the changes keep the refinement.

Main definitions:

* `Arrangement.step` — what the calls that name no key do to an arrangement;
* `Follows` — an outcome of a store that agrees with an arrangement.
-/

namespace Outline

/-- Where a node stands, apart from its rank among its siblings. -/
structure Spot where
  space : Uuid
  kind : Kind
  parent : Option Uuid
  deriving DecidableEq

namespace Spot

def group (spot : Spot) : Group := ⟨spot.space, spot.parent⟩

def under (spot : Spot) (parent : Option Uuid) : Spot := { spot with parent := parent }

end Spot

/-- Where a store looks for the parent of a group that it renumbers. -/
inductive Reach where
  /-- In the space of the group. -/
  | space
  /-- In all spaces. -/
  | everywhere
  deriving DecidableEq

/-- The stored nodes, and each group as a list. -/
structure Arrangement where
  spots : Std.ExtTreeMap Uuid Spot
  order : Group → List Uuid

namespace Arrangement

def empty : Arrangement := ⟨∅, fun _ => []⟩

/-! ## Looking -/

/-- Whether a node of some kind in some space may have the parent. -/
def suits (a : Arrangement) (spot : Spot) : Bool :=
  match spot.parent with
  | none => spot.kind.mayBeRoot
  | some p => a.spots[p]?.any fun q => q.space = spot.space ∧ spot.kind.mayNest q.kind

/-- A node and everything below it. -/
def branch (a : Arrangement) (space top : Uuid) : List Uuid :=
  levels (fun id => a.order ⟨space, some id⟩) a.spots.size [top]

/-- Whether the parent of a group, if it has one, is found. -/
def reaches (a : Arrangement) (reach : Reach) (group : Group) : Bool :=
  group.parent.all fun p => a.spots[p]?.any fun q => reach = .everywhere ∨ q.space = group.space

/-- A group whose parent is in its space is listed. -/
def list (a : Arrangement) (group : Group) : Option (List Uuid) :=
  if a.reaches .space group then some (a.order group) else none

/-! ## Changing -/

/-- Put `id` next to `anchor`. -/
def beside (id anchor : Uuid) (side : Side) : List Uuid → List Uuid
  | [] => []
  | i :: rest =>
    if i = anchor then
      match side with
      | .before => id :: i :: rest
      | .after => i :: id :: rest
    else i :: beside id anchor side rest

/-- Take a node out of the list where it is, if it is in one, and enter it in that of its spot. -/
def put (a : Arrangement) (id : Uuid) (spot : Spot) (enter : List Uuid → List Uuid) :
    Arrangement where
  spots := a.spots.insert id spot
  order group :=
    let others := (a.order group).filter (· ≠ id)
    if group = spot.group then enter others else others

/-- Move a stored node to a spot that suits it and is not below it. -/
def move (a : Arrangement) (id : Uuid) (spot : Spot) (enter : List Uuid → List Uuid) :
    Option Arrangement :=
  if a.suits spot ∧ spot.parent.all (· ∉ a.branch spot.space id) then
    some (a.put id spot enter)
  else none

def remove (a : Arrangement) (ids : List Uuid) : Arrangement where
  spots := a.spots.filter fun id _ => id ∉ ids
  order group := (a.order group).filter (· ∉ ids)

/-- What a call that names no key does; `none` when it is refused. -/
def step (reach : Reach) (a : Arrangement) : StoreCall → Option Arrangement
  | .createLast n =>
    let spot : Spot := ⟨n.space, n.kind, n.parent⟩
    if n.check.isOk ∧ a.spots[n.id]? = none ∧ a.suits spot then
      some (a.put n.id spot (· ++ [n.id]))
    else none
  | .update id patch =>
    if a.spots[id]?.isSome ∧ patch.properties.all Json.isObject then some a else none
  | .delete space id => do
    let spot ← a.spots[id]?
    if spot.space = space then some (a.remove (a.branch space id)) else none
  | .moveLast id parent => do
    let spot ← a.spots[id]?
    a.move id (spot.under parent) (· ++ [id])
  | .moveBeside id anchor side => do
    let spot ← a.spots[id]?
    let other ← a.spots[anchor]?
    if anchor ≠ id ∧ other.space = spot.space then
      a.move id (spot.under other.parent) (beside id anchor side)
    else none
  | .renumber group => if a.reaches reach group then some a else none
  | _ => none

/-- Next to an anchor is where the target of a move cuts a group. -/
theorem ids_cut_beside {id anchor : Uuid} {side : Side} {members : List Sibling}
    (h : anchor ∈ members.map (·.id)) :
    ((Target.beside anchor side).cut members).1.map (·.id) ++
        id :: ((Target.beside anchor side).cut members).2.map (·.id) =
      beside id anchor side (members.map (·.id)) := by
  induction members with
  | nil => cases h
  | cons m rest ih =>
    by_cases hid : m.id = anchor
    · cases side <;> simp [Target.cut, beside, hid]
    · have hrest : anchor ∈ rest.map (·.id) := by
        rw [List.map_cons, List.mem_cons] at h
        exact h.resolve_left (Ne.symm hid)
      have ih := ih hrest
      cases side <;> simp_all [Target.cut, beside]

end Arrangement

namespace StoreCall

/-- The writing calls that name no key. -/
def isKeyless : StoreCall → Bool
  | .createLast _ | .update _ _ | .delete _ _ | .moveLast _ _ | .moveBeside _ _ _ | .renumber _ =>
    true
  | _ => false

end StoreCall

/-! ## Refinement -/

namespace Record

variable {π τ : Type}

def spot (r : Record π τ) : Spot := ⟨r.space, r.kind, r.parent⟩

@[simp] theorem group_spot (r : Record π τ) : r.spot.group = r.group := rfl

end Record

/-- The nodes stand at their spots, and each group in key order is its list. -/
structure Refines {π τ : Type} (f : Forest π τ) (a : Arrangement) : Prop where
  spots : ∀ id, a.spots[id]? = (f id).map Record.spot
  order : ∀ group, ∃ members, IsListing f group members ∧ members.map (·.id) = a.order group

namespace Refines

variable {π τ : Type} {f g : Forest π τ} {a : Arrangement}

theorem empty (h : ∀ id, f id = none) : Refines f .empty := by
  refine ⟨fun id => ?_, fun group => ⟨[], ⟨List.Pairwise.nil, fun {m} => ?_⟩, rfl⟩⟩
  · rw [h id]
    exact Std.ExtTreeMap.getElem?_empty
  · simp [h m.id]

section Look

variable (h : Refines f a)
include h

theorem order_eq {group : Group} {members : List Sibling} (hm : IsListing f group members) :
    a.order group = members.map (·.id) := by
  obtain ⟨members', hm', heq⟩ := h.order group
  rw [← heq, hm.eq hm']

theorem spots_some {id : Uuid} {r : Record π τ} (hr : f id = some r) :
    a.spots[id]? = some r.spot := by
  rw [h.spots, hr, Option.map_some]

theorem spots_none_iff {id : Uuid} : a.spots[id]? = none ↔ f id = none := by
  rw [h.spots, Option.map_eq_none_iff]

theorem spots_isSome_iff {id : Uuid} : a.spots[id]?.isSome ↔ ∃ r, f id = some r := by
  rw [h.spots, Option.isSome_map, Option.isSome_iff_exists]

theorem suits_iff (r : Record π τ) : a.suits r.spot = true ↔ Lodged f r := by
  unfold Arrangement.suits Lodged Record.spot
  dsimp only
  cases r.parent with
  | none => cases r.kind <;> simp [Kind.mayBeRoot]
  | some p =>
    dsimp only
    rw [h.spots]
    cases f p with
    | none => simp
    | some q =>
      have hnest : r.kind.mayNest q.kind = true ↔ (r.kind = .page → q.kind = .page) := by
        cases r.kind <;> cases q.kind <;> decide
      simp [Record.spot, hnest]

theorem reaches_space_iff {group : Group} :
    a.reaches .space group = true ↔
      ∀ p, group.parent = some p → ∃ r, f p = some r ∧ r.space = group.space := by
  unfold Arrangement.reaches
  cases group.parent with
  | none => simp
  | some p =>
    rw [Option.all_some, h.spots]
    cases hp : f p <;> simp [Record.spot, hp]

theorem reaches_everywhere_iff {group : Group} :
    a.reaches .everywhere group = true ↔
      ∀ p, group.parent = some p → ∃ r, f p = some r := by
  unfold Arrangement.reaches
  cases group.parent with
  | none => simp
  | some p =>
    rw [Option.all_some, h.spots]
    cases hp : f p <;> simp [hp]

/-- A way up has no more nodes than are stored. -/
theorem length_le_size {id : Uuid} {path : List Uuid} (hpath : Ascent f id path) :
    path.length ≤ a.spots.size := by
  have hsub : path ⊆ a.spots.toList.map Prod.fst := by
    intro b hb
    obtain ⟨r, hr⟩ := hpath.stored hb
    exact List.mem_map.2 ⟨(b, r.spot),
      Std.ExtTreeMap.mem_toList_iff_getElem?_eq_some.2 (h.spots_some hr), rfl⟩
  have hlen := (List.Nodup.subperm hpath.nodup hsub).length_le
  rwa [List.length_map, Std.ExtTreeMap.length_toList] at hlen

/-- The lists of a space give the children of each node in it. -/
theorem isChildren (ho : Rooted f) {top : Uuid} {r : Record π τ} (hr : f top = some r) :
    IsChildren f top fun id => a.order ⟨r.space, some id⟩ := by
  refine ⟨fun {id parent} hw => ?_, fun parent => ?_⟩
  · obtain ⟨members, hm, heq⟩ := h.order ⟨r.space, some parent⟩
    rw [← heq, hm.id_mem_iff]
    constructor
    · rintro ⟨q, hq, hgroup⟩
      exact ⟨q, hq, congrArg Group.parent hgroup⟩
    · rintro ⟨q, hq, hparent⟩
      refine ⟨q, hq, ?_⟩
      rw [Record.group, hparent, ho.space_of_within hq hr (hw.of_parent hq hparent)]
  · obtain ⟨members, hm, heq⟩ := h.order ⟨r.space, some parent⟩
    rw [← heq]
    exact hm.nodup

theorem mem_branch_iff (ho : Rooted f) {top id : Uuid} {r : Record π τ} (hr : f top = some r) :
    id ∈ a.branch r.space top ↔ Within f top id := by
  obtain ⟨path, hpath⟩ := ho.ascent hr
  exact mem_levels_iff (h.isChildren ho hr) hpath fun hway _ => h.length_le_size hway

/-- A move is made when its spot suits the node and is not below it. -/
theorem move_eq_some_iff (ho : Rooted f) {id : Uuid} {r : Record π τ} (hr : f id = some r)
    (parent : Option Uuid) (enter : List Uuid → List Uuid) {a' : Arrangement} :
    a.move id (r.spot.under parent) enter = some a' ↔
      Lodged f { r with parent := parent } ∧ (∀ p, parent = some p → ¬Within f id p) ∧
        a' = a.put id (r.spot.under parent) enter := by
  have hsuits : a.suits (r.spot.under parent) = true ↔ Lodged f { r with parent := parent } :=
    h.suits_iff { r with parent := parent }
  have hclear : (parent.all (· ∉ a.branch r.space id)) = true ↔
      ∀ p, parent = some p → ¬Within f id p := by
    cases parent with
    | none => simp
    | some p => simp [h.mem_branch_iff ho hr]
  rw [← hsuits, ← hclear, ← and_assoc]
  show (if _ ∧ _ then some _ else none) = some a' ↔ _
  rw [Option.ite_none_right_eq_some, Option.some.injEq, eq_comm (a := a')]
  rfl

end Look

/-! ## Changes -/

/-- A record that keeps its place gives the refinement no work. -/
theorem put_payload (h : Refines f a) {r q : Record π τ} (hr : f q.id = some r)
    (hshape : q.shape = r.shape) (hsort : q.sort = r.sort) : Refines (f.put q) a := by
  obtain ⟨-, hspace, hkind, hparent⟩ : q.id = r.id ∧ q.space = r.space ∧ q.kind = r.kind ∧
      q.parent = r.parent := by
    simpa [Record.shape] using hshape
  refine ⟨fun id => ?_, fun group => ?_⟩
  · rw [h.spots]
    by_cases hid : id = q.id
    · rw [hid, f.put_self, hr, Option.map_some, Option.map_some, Record.spot, Record.spot, hspace,
        hkind, hparent]
    · rw [f.put_of_ne hid]
  · obtain ⟨members, hm, heq⟩ := h.order group
    refine ⟨members, ⟨hm.ascending, fun {m} => ?_⟩, heq⟩
    rw [hm.mem_iff]
    by_cases hid : m.id = q.id
    · rw [hid, f.put_self, hr]
      simp [Record.group, hspace, hparent, hsort]
    · rw [f.put_of_ne hid]

/-- New keys in the order of the list are no change. -/
theorem rekeyed (h : Refines f a) {group : Group} {members : List Sibling} {stamp : τ}
    (hg : Rekeyed f g group members stamp) (hids : members.map (·.id) = a.order group) :
    Refines g a := by
  refine ⟨fun id => ?_, fun group' => ?_⟩
  · rw [h.spots]
    by_cases hin : ∃ r, f id = some r ∧ r.group = group
    · obtain ⟨r, hr, hgroup⟩ := hin
      obtain ⟨sort, updated, -, -, hid⟩ := hg.member hr hgroup
      rw [hr, hid]
      rfl
    · rw [hg.frame fun r hr hgroup => hin ⟨r, hr, hgroup⟩]
  · by_cases hgroup : group' = group
    · exact ⟨members, hgroup ▸ hg.isListing, hgroup ▸ hids⟩
    · obtain ⟨others, hothers, heq⟩ := h.order group'
      exact ⟨others, hg.isListing_of_ne hgroup hothers, heq⟩

/-- A removal takes a branch out of all lists. -/
theorem removed (h : Refines f a) (ho : Rooted f) {top : Uuid} {r : Record π τ}
    (hr : f top = some r) (hg : Removed f g top) :
    Refines g (a.remove (a.branch r.space top)) := by
  have hmem : ∀ id, id ∈ a.branch r.space top ↔ Within f top id := fun id =>
    h.mem_branch_iff ho hr
  -- what stays are the nodes outside the branch, as they were
  have hiff : ∀ {id q}, g id = some q ↔ f id = some q ∧ ¬Within f top id := by
    intro id q
    refine ⟨fun hq => (hg.of_some hq).symm, fun ⟨hq, hw⟩ => ?_⟩
    rw [(hg id).2 hw, hq]
  refine ⟨fun id => ?_, fun group => ?_⟩
  · refine Option.ext fun spot => ?_
    rw [Arrangement.remove, getElem?_filter_eq_some_iff, decide_eq_true_eq, hmem, h.spots,
      Option.map_eq_some_iff, Option.map_eq_some_iff]
    simp only [hiff]
    tauto
  · obtain ⟨members, hm, heq⟩ := h.order group
    refine ⟨members.filter fun m => m.id ∉ a.branch r.space top,
      ⟨hm.ascending.filter _, fun {m} => ?_⟩, ?_⟩
    · rw [List.mem_filter, hm.mem_iff, decide_eq_true_eq, hmem]
      simp only [hiff]
      tauto
    · show _ = (a.order group).filter (· ∉ a.branch r.space top)
      rw [← heq, List.filter_map]
      rfl

/-- A node that is placed is entered in the list of its group where the target says. -/
theorem put (h : Refines f a) {r : Record π τ} {group : Group} {target : Target}
    (hg : Positioned f g r group target) {enter : List Uuid → List Uuid}
    (henter : ∀ members : List Sibling,
      (∀ anchor side, target = .beside anchor side → anchor ∈ members.map (·.id)) →
        (target.cut members).1.map (·.id) ++ r.id :: (target.cut members).2.map (·.id) =
          enter (members.map (·.id))) :
    Refines g (a.put r.id (r.spot.under group.parent) enter) := by
  have hgroup : (r.spot.under group.parent).group = group := by
    show (⟨r.space, group.parent⟩ : Group) = group
    rw [hg.space]
  have hfilter : ∀ l : List Sibling,
      (l.filter (·.id ≠ r.id)).map (·.id) = (l.map (·.id)).filter (· ≠ r.id) := by
    intro l
    rw [List.filter_map]
    rfl
  refine ⟨fun id => ?_, fun group' => ?_⟩
  · rw [Arrangement.put, Std.ExtTreeMap.getElem?_insert]
    by_cases hid : id = r.id
    · obtain ⟨sort, updated, hself⟩ := hg.placed
      rw [if_pos (by simp [hid]), hid, hself]
      rfl
    · have hcmp : compare r.id id ≠ .eq := fun hc => hid (Std.LawfulEqCmp.eq_of_compare hc).symm
      rw [if_neg hcmp, h.spots]
      by_cases hin : ∃ q, f id = some q ∧ q.group = group
      · obtain ⟨q, hq, hqg⟩ := hin
        obtain ⟨sort, updated, hsibling⟩ := hg.sibling id q hid hq hqg
        rw [hq, hsibling]
        rfl
      · rw [hg.frame id hid fun q hq hqg => hin ⟨q, hq, hqg⟩]
  · obtain ⟨before, hbefore, heq⟩ := h.order group'
    unfold Arrangement.put
    dsimp only
    rw [hgroup, ← heq]
    by_cases hin : group' = group
    · subst hin
      obtain ⟨after, hafter, hids⟩ := hg.order before hbefore
      refine ⟨after, hafter, ?_⟩
      rw [if_pos rfl, ← hfilter, hids]
      refine henter _ fun anchor side htarget => ?_
      -- the anchor is one of the others
      obtain ⟨hne, q, hq, hqg⟩ := hg.anchor anchor side htarget
      rw [hfilter, List.mem_filter]
      exact ⟨hbefore.id_mem_iff.2 ⟨q, hq, hqg⟩, decide_eq_true hne⟩
    · rw [if_neg hin, ← hfilter]
      exact ⟨_, hg.isListing_of_ne hin hbefore, rfl⟩

end Refines

/-! ## Outcomes -/

/-- The keys of a group have run out. -/
def StoreError.isExhausted : StoreError → Bool
  | .exhausted _ _ => true
  | _ => false

theorem StoreError.Overflows.isExhausted {e : StoreError} (h : e.Overflows) :
    e.isExhausted = true := by
  cases e with
  | exhausted => rfl
  | notFound | duplicateSort | violation | invalidRecord | initializationFailed
  | statementFailed => cases h

/-- A call was refused for want of keys. -/
def OutOfKeys {α : Type} : Except StoreError α → Bool
  | .ok _ => false
  | .error e => e.isExhausted

/-- An outcome agrees with what becomes of an arrangement: it is an answer that leaves a state for
the next arrangement, or a refusal where there is none, or keys have run out. -/
def Follows {σ α π τ : Type} (forest : σ → Forest π τ) (next : Option Arrangement) :
    Except StoreError (α × σ) → Prop
  | .ok (_, s) => ∃ a, next = some a ∧ Refines (forest s) a
  | .error e => next = none ∨ e.isExhausted = true

theorem Follows.of_cases {σ α π τ : Type} {forest : σ → Forest π τ} {next : Option Arrangement}
    {outcome : Except StoreError (α × σ)}
    (hanswer : ∀ answer s, outcome = .ok (answer, s) →
      ∃ a, next = some a ∧ Refines (forest s) a)
    (hrefusal : ∀ e a, next = some a → outcome = .error e → e.isExhausted = true) :
    Follows forest next outcome := by
  cases outcome with
  | ok answered =>
    obtain ⟨answer, s⟩ := answered
    exact hanswer answer s rfl
  | error e =>
    cases next with
    | none => exact .inl rfl
    | some a => exact .inr (hrefusal e a rfl rfl)

end Outline
