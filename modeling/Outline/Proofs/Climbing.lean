import Mathlib.Data.Fintype.Card
import Mathlib.Data.Fintype.EquivFin
import Mathlib.Logic.Relation
import Outline.Proofs.Forest.Position
import Outline.Proofs.Invariants
import Outline.Proofs.Table.Answers

/-!
# The climb is exact

A move is checked by climbing from its destination, with a bound on the number of steps. Nothing is
assumed here of the parents that the climb asks for: they may lead anywhere, or in a circle. The
climb ends well exactly when it comes to an end within its bound and has not met the node.

Identifiers that have their parents among them, and no circle, leave the bound without effect as
soon as it is their number: then only the node and what is below it are refused. The nodes of a
space are such identifiers after every run, so neither store refuses a move because its destination
is deep.

Main results:

* `checkAcyclic_eq_ok_iff_chain` — over any parents;
* `ParentClosed.checkAcyclic_eq_error_iff` — over parents without a circle;
* `Table.serve_eq_cycle_iff` — which calls on a table are refused for a circle;
* `Shelf.within_of_relocate`, `Table.Holds.within_of_checkClimb` — what a refused move would do;
* `climbs_exactly_run` — all of it, after every run.
-/

namespace Outline

/-! ## Chains of parents -/

/-- The second identifier is the parent of the first. -/
def IsParent (parentOf : Uuid → Option Uuid) (id parent : Uuid) : Prop :=
  parentOf id = some parent

namespace Chain

variable {parentOf : Uuid → Option Uuid} {id : Uuid} {path : List Uuid}

/-- On a chain stand the identifiers that are reached over the parents. -/
theorem mem_iff (h : Chain parentOf id path) {a : Uuid} :
    a ∈ path ↔ Relation.ReflTransGen (IsParent parentOf) id a := by
  induction h with
  | @root id hp =>
    rw [List.mem_singleton]
    constructor
    · rintro rfl
      exact .refl
    · intro hreach
      rcases hreach.cases_head with rfl | ⟨b, hb, -⟩
      · rfl
      · exact absurd (hp.symm.trans hb) (Option.some_ne_none b).symm
  | @step id parent path hp htail ih =>
    rw [List.mem_cons, ih]
    constructor
    · rintro (rfl | hreach)
      · exact .refl
      · exact .head hp hreach
    · intro hreach
      rcases hreach.cases_head with rfl | ⟨b, hb, hreach⟩
      · exact .inl rfl
      · obtain rfl : parent = b := Option.some.inj (hp.symm.trans hb)
        exact .inr hreach

/-- An identifier met again would be above itself. -/
theorem nodup (h : Chain parentOf id path)
    (hacyclic : ∀ a ∈ path, ¬Relation.TransGen (IsParent parentOf) a a) : path.Nodup := by
  induction h with
  | root => simp
  | @step id parent path hp htail ih =>
    refine List.nodup_cons.2 ⟨fun hmem => ?_, ih fun a ha => hacyclic a (List.mem_cons_of_mem _ ha)⟩
    exact hacyclic id List.mem_cons_self (.head' hp (htail.mem_iff.1 hmem))

end Chain

/-- Identifiers whose parents are among them, and none of which is above itself. -/
structure ParentClosed (parentOf : Uuid → Option Uuid) (ids : Finset Uuid) : Prop where
  parent_mem : ∀ id ∈ ids, ∀ parent, parentOf id = some parent → parent ∈ ids
  acyclic    : ∀ id ∈ ids, ¬Relation.TransGen (IsParent parentOf) id id

namespace ParentClosed

variable {parentOf : Uuid → Option Uuid} {ids : Finset Uuid} (h : ParentClosed parentOf ids)
include h

/-- A climb that begins in a closed set of identifiers stays in it. -/
theorem mem_of_reach {id a : Uuid} (hid : id ∈ ids)
    (hreach : Relation.ReflTransGen (IsParent parentOf) id a) : a ∈ ids := by
  induction hreach with
  | refl => exact hid
  | tail _ hstep ih => exact h.parent_mem _ ih _ hstep

/-- Climbing from one of finitely many identifiers comes to an end, since none is met twice. -/
theorem exists_chain {id : Uuid} (hid : id ∈ ids) : ∃ path, Chain parentOf id path := by
  -- the induction is on "above", which is well-founded on a finite set without circles
  let Above (a b : ids) : Prop := Relation.TransGen (IsParent parentOf) b a
  have : IsTrans ids Above := ⟨fun a b c hab hbc => hbc.trans hab⟩
  have : Std.Irrefl Above := ⟨fun a => h.acyclic a a.2⟩
  have hwf : WellFounded Above := Finite.wellFounded_of_trans_of_irrefl Above
  have hchain : ∀ a : ids, ∃ path, Chain parentOf a path := fun a => by
    induction a using hwf.induction with
    | _ a ih =>
      cases hp : parentOf a with
      | none => exact ⟨_, .root hp⟩
      | some p =>
        obtain ⟨path, hpath⟩ := ih ⟨p, h.parent_mem a a.2 p hp⟩ (.single hp)
        exact ⟨_, .step hp hpath⟩
  exact hchain ⟨id, hid⟩

/-- A chain has no more identifiers than there are. -/
theorem length_le {id : Uuid} {path : List Uuid} (hid : id ∈ ids)
    (hpath : Chain parentOf id path) : path.length ≤ ids.card := by
  have hsub : ∀ a ∈ path, a ∈ ids := fun a ha => h.mem_of_reach hid (hpath.mem_iff.1 ha)
  have hnodup : path.Nodup := hpath.nodup fun a ha => h.acyclic a (hsub a ha)
  rw [← List.toFinset_card_of_nodup hnodup]
  exact Finset.card_le_card fun a ha => hsub a (List.mem_toFinset.1 ha)

end ParentClosed

/-- What the check of a move finds over any parents. -/
theorem checkAcyclic_eq_ok_iff_chain {parentOf : Uuid → Option Uuid} {node dest : Uuid}
    {steps : Nat} : checkAcyclic parentOf node dest steps = .ok () ↔
      ∃ path, Chain parentOf dest path ∧ path.length ≤ steps ∧ node ∉ path := by
  rw [← climb_clear_iff, checkAcyclic]
  split <;> simp_all

/-- Within a closed set that the bound covers, the refused destinations are the node and what is
below it. -/
theorem ParentClosed.checkAcyclic_eq_error_iff {parentOf : Uuid → Option Uuid} {ids : Finset Uuid}
    {steps : Nat} (h : ParentClosed parentOf ids) (hsteps : ids.card ≤ steps) {node dest : Uuid}
    (hdest : dest ∈ ids) :
    checkAcyclic parentOf node dest steps = .error (.cycle node dest) ↔
      Relation.ReflTransGen (IsParent parentOf) dest node := by
  obtain ⟨path, hpath⟩ := h.exists_chain hdest
  have hlen := (h.length_le hdest hpath).trans hsteps
  have hok : checkAcyclic parentOf node dest steps = .ok () ↔ node ∉ path := by
    rw [checkAcyclic_eq_ok_iff_chain]
    constructor
    · rintro ⟨path', hpath', -, hmem⟩
      exact hpath.unique hpath' ▸ hmem
    · exact fun hmem => ⟨path, hpath, hlen, hmem⟩
  rw [← hpath.mem_iff]
  constructor
  · intro herror
    by_contra hmem
    rw [hok.2 hmem] at herror
    cases herror
  · intro hmem
    exact checkAcyclic_eq_error fun hclear => hok.1 hclear hmem

/-! ## Refusals for a broken rule -/

/-- Whatever comes of it, no rule is broken. -/
def BreaksNone {α : Type} (outcome : Except StoreError α) : Prop :=
  ∀ v, outcome ≠ .error (.violation v)

namespace BreaksNone

variable {α β : Type}

theorem ok (a : α) : BreaksNone (.ok a) := fun _ hv => by cases hv

theorem error {e : StoreError} (he : ∀ v, e ≠ .violation v) :
    BreaksNone (.error e : Except StoreError α) :=
  fun v hv => he v (Except.error.inj hv)

theorem bind {x : Except StoreError α} {f : α → Except StoreError β} (hx : BreaksNone x)
    (hf : ∀ a, BreaksNone (f a)) : BreaksNone (x >>= f) := by
  intro v hv
  rcases bind_eq_error_iff.1 hv with hv | ⟨a, -, hv⟩
  · exact hx v hv
  · exact hf a v hv

theorem map {x : Except StoreError α} (f : α → β) (hx : BreaksNone x) : BreaksNone (x.map f) :=
  fun v hv => hx v (map_eq_error_iff.1 hv)

theorem mapM {f : α → Except StoreError β} {l : List α} (hf : ∀ a, BreaksNone (f a)) :
    BreaksNone (l.mapM f) := by
  intro v hv
  obtain ⟨a, -, ha⟩ := exists_of_mapM_eq_error hv
  exact hf a v ha

theorem ofFault (x : Except RecordFault α) : BreaksNone (StoreError.ofFault x) := by
  intro v hv
  obtain ⟨_, -, he⟩ := mapError_eq_error_iff.1 hv
  cases he

theorem exhausted (x : Except Exhausted α) (group : Group) :
    BreaksNone (x.mapError (StoreError.exhausted group)) := by
  intro v hv
  obtain ⟨_, -, he⟩ := mapError_eq_error_iff.1 hv
  cases he

/-- A rule that is broken in a sequence is broken after its first part. -/
theorem rest {x : Except StoreError α} {f : α → Except StoreError β} {v : Violation}
    (hx : BreaksNone x) (hv : (x >>= f) = .error (.violation v)) :
    ∃ a, x = .ok a ∧ f a = .error (.violation v) :=
  (bind_eq_error_iff.1 hv).resolve_left (hx v)

/-- Or before its last. -/
theorem first {x : Except StoreError α} {f : α → Except StoreError β} {v : Violation}
    (hf : ∀ a, BreaksNone (f a)) (hv : (x >>= f) = .error (.violation v)) :
    x = .error (.violation v) :=
  (bind_eq_error_iff.1 hv).resolve_right fun ⟨a, _, ha⟩ => hf a v ha

theorem placeIn (gap : Gap) (group : Group) (siblings : List Sibling) (moving : Uuid)
    (target : Target) : BreaksNone (gap.placeIn group siblings moving target) := by
  cases target with
  | last => exact exhausted _ group
  | «at» sort => exact exhausted _ group
  | beside anchor side =>
    unfold Gap.placeIn
    dsimp only
    split
    · exact exhausted _ group
    · exact .error nofun

end BreaksNone

/-- The check of a parent does not look for circles. -/
theorem checkParent_ne_cycle {kind : Kind} {space : Uuid} {parent : Option Node}
    {node dest : Uuid} : checkParent kind space parent ≠ .error (.cycle node dest) := by
  unfold checkParent
  split <;> split_ifs <;> simp

/-- A cycle is reported with the node that was to move and the parent it was to get. -/
theorem cycle_of_checkAcyclic {parentOf : Uuid → Option Uuid} {id p node dest : Uuid} {steps : Nat}
    (h : (checkAcyclic parentOf id p steps).mapError StoreError.violation =
      .error (.violation (.cycle node dest))) :
    node = id ∧ dest = p ∧ checkAcyclic parentOf id p steps ≠ .ok () := by
  obtain ⟨v, hv, hcycle⟩ := mapError_eq_error_iff.1 h
  have hne : checkAcyclic parentOf id p steps ≠ .ok () := by
    rw [hv]
    exact fun h => by cases h
  rw [checkAcyclic_eq_error hne] at hv
  cases hv
  cases hcycle
  exact ⟨rfl, rfl, hne⟩

namespace Shelf

variable {s : Shelf} {now : Timestamp}

theorem breaksNone_spaceOf (id : Uuid) : BreaksNone (s.spaceOf id) := by
  unfold spaceOf
  split
  · exact .ok _
  · exact .error nofun

theorem breaksNone_get (sp : Space) (id : Uuid) : BreaksNone (sp.get id) := by
  unfold Space.get
  split
  · exact .ok _
  · exact .error nofun

theorem breaksNone_getParent (sp : Space) (parent : Option Uuid) :
    BreaksNone (sp.getParent parent) := by
  cases parent with
  | none => exact .ok _
  | some p => exact (breaksNone_get sp p).map _

/-- A commit is refused for keys and not for the rules. -/
theorem breaksNone_commit (sp : Space) (space : Uuid) (changes : List Node) :
    BreaksNone (sp.commit space changes) := by
  unfold Space.commit
  dsimp only
  split
  · exact .error nofun
  · exact .ok _

/-- A move that is refused as a circle would have made one. -/
theorem within_of_relocate (h : s.Sound) {id : Uuid}
    {find : Space → Except StoreError (Option Uuid)} (hfind : ∀ sp, BreaksNone (find sp))
    {target : Target} {node dest : Uuid}
    (hs : s.relocate id find target now = .error (.violation (.cycle node dest))) :
    node = id ∧ Within s.forest node dest := by
  obtain ⟨sp, hsp, hs⟩ := (breaksNone_spaceOf id).rest hs
  obtain ⟨parent, -, hs⟩ := (hfind _).rest hs
  have hplan := BreaksNone.first (fun changes => (breaksNone_commit _ _ changes).bind
    fun space => (breaksNone_get space id).bind fun _ => .ok _) hs
  obtain ⟨n, hn, hplan⟩ := (breaksNone_get _ id).rest hplan
  obtain ⟨pn, hpn, hplan⟩ := (breaksNone_getParent _ parent).rest hplan
  rcases bind_eq_error_iff.1 hplan with hcheck | ⟨_, -, hplan⟩
  · obtain ⟨v, hv, hcycle⟩ := mapError_eq_error_iff.1 hcheck
    cases hcycle
    exact absurd hv checkParent_ne_cycle
  have hplace : ∀ parent, BreaksNone
      (s.gap.placeIn ⟨n.space, parent⟩ ((s.space sp).siblings parent) id target >>= fun p =>
        pure ((s.space sp).changesFor n parent now p)) :=
    fun parent => .bind (.placeIn _ _ _ _ _) fun _ => .ok _
  cases parent with
  | none => exact absurd hplan (hplace none _)
  | some p =>
    obtain ⟨rfl, rfl, hne⟩ := cycle_of_checkAcyclic (BreaksNone.first (fun _ => hplace _) hplan)
    refine ⟨rfl, ?_⟩
    -- the destination was found in the space that is climbed
    obtain ⟨q, hq, -⟩ := map_eq_ok_iff.1 hpn
    have hdest := forest_of_node h.agrees (node_of_space_get hq)
    have hspace := (h.agrees.space sp).own_space (node_of_space_get hq)
    by_contra hclear
    have hok := (checkAcyclic_eq_ok_iff h.agrees h.outline.rooted hdest).2 hclear
    rw [Node.record_space, hspace] at hok
    exact hne hok

end Shelf

namespace Table

variable {t : Table} {f : Forest Row.Payload String} {now : Timestamp}

theorem breaksNone_fetch (id : Uuid) : BreaksNone (t.fetch id) := by
  unfold fetch
  split
  · exact .ofFault _
  · exact .error nofun

theorem breaksNone_fetchParent (parent : Option Uuid) : BreaksNone (t.fetchParent parent) := by
  cases parent with
  | none => exact .ok _
  | some p => exact (breaksNone_fetch p).map _

/-- To list siblings is refused at most for what stands in a row. -/
theorem breaksNone_siblings (group : Group) : BreaksNone (t.siblings group) :=
  .mapM fun _ => .map _ (.ofFault _)

theorem breaksNone_write (group : Group) (writes : List KeyWrite) :
    BreaksNone (t.write group writes) := by
  induction writes generalizing t with
  | nil => exact .ok _
  | cons w rest ih =>
    unfold write
    split
    · exact ih
    · exact .error nofun

/-- Keys are written without a look at the rules. -/
theorem breaksNone_writeKeys (group : Group) (keys : List Sibling) (mover : Option Mover) :
    BreaksNone (t.writeKeys group keys mover now) := by
  refine .bind ?_ fun _ => breaksNone_write group _
  have hused : BreaksNone (t.usedKeys group keys mover) := by
    refine (breaksNone_siblings group).bind fun _ => ?_
    dsimp only
    split
    · split
      · exact .ok _
      · exact (breaksNone_siblings _).bind fun _ => .ok _
    · exact .ok _
  unfold writes
  split
  · exact .ok _
  · refine hused.bind fun used => ?_
    split
    · exact .ok _
    · exact .error nofun

/-- The call is to put a node below another one, as far as the rows tell. -/
inductive PutsBelow (t : Table) : StoreCall → Uuid → Uuid → Prop
  | moveLast {id dest : Uuid} : PutsBelow t (.moveLast id (some dest)) id dest
  | moveAt {id dest : Uuid} {sort : SortKey} : PutsBelow t (.moveAt id (some dest) sort) id dest
  /-- A node that keeps its parent is put under it again. -/
  | reorder {id dest : Uuid} {sort : SortKey} {n : Node} (node : t.fetch id = .ok n)
      (parent : n.parent = some dest) : PutsBelow t (.reorder id sort) id dest
  | moveBeside {id anchor dest : Uuid} {side : Side} {n a : Node} (other : anchor ≠ id)
      (node : t.fetch id = .ok n) (beside : t.fetch anchor = .ok a) (space : a.space = n.space)
      (parent : a.parent = some dest) : PutsBelow t (.moveBeside id anchor side) id dest

/-- What is put below another node is moved. -/
theorem PutsBelow.moved? {c : StoreCall} {node dest : Uuid} (h : t.PutsBelow c node dest) :
    c.moved? = some node := by
  cases h <;> rfl

/-- A move is refused for a circle by its climb, which comes after the checks of the two nodes and
before everything else. -/
theorem relocate_eq_cycle_iff {gap : Gap} {id : Uuid} {parent : Option Uuid} {target : Target}
    {now : Timestamp} {node dest : Uuid} :
    t.relocate gap id parent target now = .error (.violation (.cycle node dest)) ↔
      node = id ∧ parent = some dest ∧ ∃ n q, t.fetch node = .ok n ∧ t.fetch dest = .ok q ∧
        checkParent n.kind n.space (some q) = .ok () ∧
        t.checkClimb n node (some dest) = .error (.violation (.cycle node dest)) := by
  constructor
  · intro hs
    obtain ⟨n, hn, hs⟩ := (breaksNone_fetch id).rest hs
    obtain ⟨pn, hpn, hs⟩ := (breaksNone_fetchParent parent).rest hs
    rcases bind_eq_error_iff.1 hs with hcheck | ⟨_, hcheck, hs⟩
    · obtain ⟨v, hv, hcycle⟩ := mapError_eq_error_iff.1 hcheck
      cases hcycle
      exact absurd hv checkParent_ne_cycle
    -- what comes after the climb breaks no rule
    have hclimb := BreaksNone.first (fun _ => (breaksNone_siblings _).bind fun siblings =>
      (BreaksNone.placeIn gap _ siblings id target).bind fun _ =>
      (breaksNone_writeKeys _ _ _).bind fun _ => (breaksNone_fetch id).bind fun _ => .ok _) hs
    cases parent with
    | none => cases hclimb
    | some p =>
      obtain ⟨links, -, hacyclic⟩ :=
        (BreaksNone.mapM fun _ => BreaksNone.ofFault _).rest hclimb
      obtain ⟨rfl, rfl, -⟩ := cycle_of_checkAcyclic hacyclic
      obtain ⟨q, hq, rfl⟩ := map_eq_ok_iff.1 hpn
      exact ⟨rfl, rfl, n, q, hn, hq, mapError_eq_ok_iff.1 hcheck, hclimb⟩
  · rintro ⟨rfl, rfl, n, q, hn, hq, hcheck, hclimb⟩
    have hpn : t.fetchParent (some dest) = .ok (some q) := by rw [fetchParent, hq]; rfl
    rw [relocate, hn, bind_ok, hpn, bind_ok, hcheck, mapError_ok, bind_ok, hclimb, bind_error]

/-- Which calls that move a node are refused for a circle. -/
theorem serve_eq_cycle_iff {db : Database} {c : StoreCall} {id : Uuid} (hc : c.moved? = some id)
    {now : Timestamp} {node dest : Uuid} :
    Database.store.serve c now db = .error (.violation (.cycle node dest)) ↔
      db.rows.PutsBelow c node dest ∧ ∃ n q, db.rows.fetch node = .ok n ∧
        db.rows.fetch dest = .ok q ∧ checkParent n.kind n.space (some q) = .ok () ∧
        db.rows.checkClimb n node (some dest) = .error (.violation (.cycle node dest)) := by
  cases c with
  | moveLast moved parent =>
    refine map_eq_error_iff.trans (relocate_eq_cycle_iff.trans ⟨?_, ?_⟩)
    · rintro ⟨rfl, rfl, hrest⟩
      exact ⟨.moveLast, hrest⟩
    · rintro ⟨⟨⟩, hrest⟩
      exact ⟨rfl, rfl, hrest⟩
  | moveAt moved parent sort =>
    refine map_eq_error_iff.trans (relocate_eq_cycle_iff.trans ⟨?_, ?_⟩)
    · rintro ⟨rfl, rfl, hrest⟩
      exact ⟨.moveAt, hrest⟩
    · rintro ⟨⟨⟩, hrest⟩
      exact ⟨rfl, rfl, hrest⟩
  | reorder moved sort =>
    refine map_eq_error_iff.trans ⟨fun hs => ?_, ?_⟩
    -- the look-up for the sake of the parent breaks no rule, so the circle is found by the move
    · obtain ⟨n, hn, hs⟩ := (breaksNone_fetch moved).rest hs
      obtain ⟨rfl, hparent, hrest⟩ := relocate_eq_cycle_iff.1 hs
      exact ⟨.reorder hn hparent, hrest⟩
    · rintro ⟨hputs, hrest⟩
      cases hputs with
      | reorder hn hparent =>
        rw [Table.reorder, hn, bind_ok]
        exact relocate_eq_cycle_iff.2 ⟨rfl, hparent, hrest⟩
  | moveBeside moved anchor side =>
    refine map_eq_error_iff.trans ⟨fun hs => ?_, ?_⟩
    -- whatever is refused before the move is refused for another reason
    · unfold Table.moveBeside at hs
      dsimp only at hs
      split at hs
      · cases hs
      · next hother =>
        obtain ⟨n, hn, hs⟩ := (breaksNone_fetch moved).rest hs
        obtain ⟨a, ha, hs⟩ := (breaksNone_fetch anchor).rest hs
        split at hs
        · cases hs
        · next hspace =>
          obtain ⟨rfl, hparent, hrest⟩ := relocate_eq_cycle_iff.1 hs
          exact ⟨.moveBeside hother hn ha (not_not.1 hspace) hparent, hrest⟩
    · rintro ⟨hputs, hrest⟩
      cases hputs with
      | moveBeside hother hn ha hspace hparent =>
        unfold Table.moveBeside
        dsimp only
        rw [if_neg hother, hn, bind_ok, ha, bind_ok, if_neg (not_not.2 hspace)]
        exact relocate_eq_cycle_iff.2 ⟨rfl, hparent, hrest⟩
  | get | create | createLast | update | delete | list | nextSort | renumber => cases hc

namespace Holds

variable (h : t.Holds f) (ho : IsOutline f)
include h ho

/-- A node that is refused by its climb would have come below itself. -/
theorem within_of_checkClimb {n q : Node} {node dest : Uuid} (hq : t.fetch dest = .ok q)
    (hcheck : checkParent n.kind n.space (some q) = .ok ())
    (hclimb : t.checkClimb n node (some dest) = .error (.violation (.cycle node dest))) :
    Within f node dest := by
  obtain ⟨l, hl, hnode⟩ := h.of_fetch hq
  obtain ⟨-, hspace, -⟩ := Row.toNode_row_eq_ok_iff.1 hnode
  -- the destination passed the check of a parent, so the climb goes through its space
  rw [checkParent_eq_ok_iff] at hcheck
  by_contra hclear
  rw [(h.checkClimb_eq_ok_iff ho.rooted hl (hspace.symm.trans hcheck.1)).2 hclear] at hclimb
  cases hclimb

end Holds

end Table

/-! ## Every run -/

/-- A call that is refused for a cycle would have made one. -/
theorem Shelf.within_of_serve {s : Shelf} {now : Timestamp} (h : s.Sound) {c : StoreCall}
    {id : Uuid} (hc : c.moved? = some id) {node dest : Uuid}
    (hs : store.serve c now s = .error (.violation (.cycle node dest))) :
    node = id ∧ Within s.forest node dest := by
  cases c with
  | moveLast _ parent =>
    cases hc
    exact within_of_relocate h (fun _ => .ok _) hs
  | moveAt _ parent sort =>
    cases hc
    exact within_of_relocate h (fun _ => .ok _) hs
  | reorder _ sort =>
    cases hc
    exact within_of_relocate h (fun sp => (breaksNone_get sp id).map _) hs
  | moveBeside _ anchor side =>
    cases hc
    change s.moveBeside id anchor side now = _ at hs
    unfold moveBeside at hs
    split at hs
    · cases hs
    · exact within_of_relocate h (fun sp => (breaksNone_get sp anchor).map _) hs
  | get | create | createLast | update | delete | list | nextSort | renumber => cases hc

/-- The same of the table, where the ancestors are read beforehand. -/
theorem Database.within_of_serve {db : Database} {now : Timestamp} (h : db.Sound) {c : StoreCall}
    {id : Uuid} (hc : c.moved? = some id) {node dest : Uuid}
    (hs : store.serve c now db = .error (.violation (.cycle node dest))) :
    node = id ∧ Within db.rows.forest node dest := by
  obtain ⟨hputs, n, q, -, hq, hcheck, hclimb⟩ := (Table.serve_eq_cycle_iff hc).1 hs
  have hmoved : some node = some id := hputs.moved?.symm.trans hc
  exact ⟨Option.some.inj hmoved, h.holds.within_of_checkClimb h.outline hq hcheck hclimb⟩

/-- The check of a move succeeds exactly when the chain of its destination ends within the bound and
passes the node by, and it makes no more lookups than the bound. Where parents do not run in a
circle, and the bound is their number or more, it refuses the node and what is below it and nothing
else. After every run of either store, a move is checked with the number of nodes in its space; so
it is refused for a circle only when it would have made one. -/
theorem climbs_exactly_run :
    (∀ (parentOf : Uuid → Option Uuid) (node dest : Uuid) (steps : Nat),
      (checkAcyclic parentOf node dest steps = .ok () ↔
        ∃ path, Chain parentOf dest path ∧ path.length ≤ steps ∧ node ∉ path) ∧
      (climb parentOf node steps (some dest)).lookups ≤ steps) ∧
    (∀ (parentOf : Uuid → Option Uuid) (ids : Finset Uuid) (steps : Nat),
      ParentClosed parentOf ids → ids.card ≤ steps → ∀ node, ∀ dest ∈ ids,
        (checkAcyclic parentOf node dest steps = .error (.cycle node dest) ↔
          Relation.ReflTransGen (IsParent parentOf) dest node)) ∧
    ∀ (gap : Gap) (calls : List (StoreCall × Timestamp)),
      ((∀ {dest r}, (Shelf.store.run calls (.empty gap)).forest dest = some r → ∀ node,
          (checkAcyclic ((Shelf.store.run calls (.empty gap)).space r.space).parentOf node dest
              ((Shelf.store.run calls (.empty gap)).space r.space).nodes.size = .ok () ↔
            ¬Within (Shelf.store.run calls (.empty gap)).forest node dest)) ∧
        ∀ {c : StoreCall} {id now node dest}, c.moved? = some id →
          (Shelf.store.step c now (Shelf.store.run calls (.empty gap))).1 =
            .error (.violation (.cycle node dest)) →
          node = id ∧ Within (Shelf.store.run calls (.empty gap)).forest node dest) ∧
      (∀ {dest l}, (Database.store.run calls (.empty gap)).rows.forest dest = some l →
          ∀ {n : Node}, n.space = l.space → ∀ node,
          ((Database.store.run calls (.empty gap)).rows.checkClimb n node (some dest) = .ok () ↔
            ¬Within (Database.store.run calls (.empty gap)).rows.forest node dest)) ∧
        ∀ {c : StoreCall} {id now node dest}, c.moved? = some id →
          (Database.store.step c now (Database.store.run calls (.empty gap))).1 =
            .error (.violation (.cycle node dest)) →
          node = id ∧ Within (Database.store.run calls (.empty gap)).rows.forest node dest := by
  refine ⟨fun parentOf node dest steps => ⟨checkAcyclic_eq_ok_iff_chain, ?_⟩,
    fun parentOf ids steps hids hsteps node dest hdest => ?_, fun gap calls => ?_⟩
  · exact climb_lookups_le parentOf node steps (some dest)
  · exact hids.checkAcyclic_eq_error_iff hsteps hdest
  -- in either store the check sees the parents of an outline, and the bound counts its nodes
  · have hshelf := Shelf.sound_run gap calls
    have hrows := Database.sound_run gap calls
    refine ⟨⟨fun hr node => ?_, fun hc hs => ?_⟩, fun hl n hspace node => ?_, fun hc hs => ?_⟩
    · exact Shelf.checkAcyclic_eq_ok_iff hshelf.agrees hshelf.outline.rooted hr
    · exact Shelf.within_of_serve hshelf hc (Store.step_error_iff.1 hs)
    · exact hrows.holds.checkClimb_eq_ok_iff hrows.outline.rooted hl hspace.symm
    · exact Database.within_of_serve hrows hc (Store.step_error_iff.1 hs)

/-- A chain as long as the bound is climbed to its end; with one step less, or in a circle, the same
destination is refused. -/
example :
    checkAcyclic (fun id => if id = Sample.uuid 4 then some (Sample.uuid 3) else none)
      (Sample.uuid 2) (Sample.uuid 4) 2 = .ok () ∧
    checkAcyclic (fun id => if id = Sample.uuid 4 then some (Sample.uuid 3) else none)
      (Sample.uuid 2) (Sample.uuid 4) 1 = .error (.cycle (Sample.uuid 2) (Sample.uuid 4)) ∧
    checkAcyclic (fun _ => some (Sample.uuid 3))
      (Sample.uuid 2) (Sample.uuid 4) 9 = .error (.cycle (Sample.uuid 2) (Sample.uuid 4)) := by
  decide

namespace Sample

/-- The first of the three pages goes below the last. -/
def moveBelow : StoreCall := .moveLast (uuid 2) (some (uuid 4))

/-- The parents of the three pages of `calls`. -/
def parentOf (id : Uuid) : Option Uuid :=
  if id = uuid 4 then some (uuid 3) else if id = uuid 3 then some (uuid 2) else none

theorem parentOf_lt {id parent : Uuid} (h : parentOf id = some parent) : parent.val < id.val := by
  unfold parentOf at h
  split at h
  · subst id
    cases h
    decide
  · split at h
    · subst id
      cases h
      decide
    · cases h

theorem parentClosed_parentOf : ParentClosed parentOf {uuid 2, uuid 3, uuid 4} where
  parent_mem := by decide
  acyclic id _ hloop := by
    have hlt : ∀ a, Relation.TransGen (IsParent parentOf) id a → a.val < id.val := by
      intro a ha
      induction ha with
      | single hstep => exact parentOf_lt hstep
      | tail _ hstep ih => exact (parentOf_lt hstep).trans ih
    exact Nat.lt_irrefl _ (hlt id hloop)

end Sample

/-- The check finds the way from the last page up to the first. Both stores refuse to move the first
page below the last, which would have made a circle. -/
theorem climbs_exactly_run_nested :
    Relation.ReflTransGen (IsParent Sample.parentOf) (Sample.uuid 4) (Sample.uuid 2) ∧
    Within (Shelf.store.run Sample.calls (.empty .standard)).forest (Sample.uuid 2)
      (Sample.uuid 4) ∧
    Within (Database.store.run Sample.calls (.empty .standard)).rows.forest (Sample.uuid 2)
      (Sample.uuid 4) := by
  obtain ⟨-, hclosed, hrun⟩ := climbs_exactly_run
  obtain ⟨⟨-, hshelf⟩, -, hrows⟩ := hrun .standard Sample.calls
  refine ⟨?_, ?_, ?_⟩
  · exact (hclosed _ _ 3 Sample.parentClosed_parentOf (by decide) _ _ (by decide)).1 (by decide)
  · have hcycle : (Shelf.store.step Sample.moveBelow Sample.time
        (Shelf.store.run Sample.calls (.empty .standard))).1 =
          .error (.violation (.cycle (Sample.uuid 2) (Sample.uuid 4))) :=
      refusal?_eq_some_iff.1 (by decide +kernel)
    exact (hshelf rfl hcycle).2
  · have hcycle : (Database.store.step Sample.moveBelow Sample.time
        (Database.store.run Sample.calls (.empty .standard))).1 =
          .error (.violation (.cycle (Sample.uuid 2) (Sample.uuid 4))) :=
      refusal?_eq_some_iff.1 (by decide +kernel)
    exact (hrows rfl hcycle).2

end Outline
