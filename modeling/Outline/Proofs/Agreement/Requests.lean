import Outline.Proofs.Agreement.Programs
import Outline.Proofs.Undated

/-!
# Requests that agree on linked states

Every request of the service ends in the same way on linked states. The service looks up the nodes
of a request and checks the rules before it makes the call that writes, and it looks at nothing but
places. There are two exceptions. An update is left out when it changes nothing, and listings of
children and branches leave out archived nodes. So these need more of the nodes that are answered
than their places: that they are the same but for their times.

Main results:

* `Linked.create`, `Linked.move` and the like — the operations one by one;
* `Linked.branch` — a branch is read alike, whatever its depth;
* `Linked.request` — all requests, when nodes differ in nothing but times.
-/

namespace Outline

variable {σ τ : Type}

/-! ## Requests -/

/-- The node that a draft is made into. The nil identifier counts as a missing one. -/
abbrev Draft.made (draft : Draft) (kind : Kind) (now : Timestamp) (fresh : Uuid) : Node :=
  Draft.toNode { draft with id := Uuid.given draft.id, parent := Uuid.given draft.parent } kind now
    fresh

namespace Request

/-- The identifier that a request gives to a new node. -/
def newId? (fresh : Uuid) : Request → Option Uuid
  | .create _ draft => some ((Uuid.given draft.id).getD fresh)
  | _ => none

/-- The properties that a request brings along. -/
def properties? : Request → Option Json
  | .create _ draft => some draft.properties
  | .update _ _ patch => patch.properties
  | _ => none

/-- The identifiers of nodes that a request names, apart from that of a new node. -/
def ids : Request → List Uuid
  | .create _ draft => (Uuid.given draft.parent).toList
  | .delete _ _ id | .get _ id | .update _ id _ | .children _ id _ | .reorder _ id _
  | .branch _ id => [id]
  | .roots _ => []
  | .move _ id parent _ => id :: (Uuid.given parent).toList
  | .moveBlock id parent _ => [id, parent]
  | .moveBeside _ id anchor _ => [id, anchor]
  | .renumber group => (Uuid.given group.parent).toList

/-- The spaces that a request names. -/
def spaces : Request → List Uuid
  | .create _ draft => [draft.space]
  | .delete _ space _ | .roots space => [space]
  | .renumber group => [group.space]
  | _ => []

end Request

namespace Linked

variable {left : Store σ} {right : Store τ} {now now' : Timestamp} {R : σ → τ → Prop}
  {N : Node → Node → Prop} {near opened : Uuid → Prop} {s : σ} {t : τ}
  (h : Linked left right now now' R N near opened s t) (config : Config)
include h

/-! ## Requests that write -/

/-- Creating a node from drafts of the same place. What the stores make of the new node is left
open: it may bring its payload. -/
theorem create (kind : Kind) {draft draft' : Draft} {drafted drafted' : Timestamp} {fresh : Uuid}
    (hspace : draft'.space = draft.space) (hkind : draft'.kind = draft.kind)
    (hparent : draft'.parent = draft.parent)
    (hobject : draft'.properties.isObject = draft.properties.isObject)
    (hnear : ∀ p, Uuid.given draft.parent = some p → near p)
    (hserve : draft.properties.isObject = true →
      (∀ p, Uuid.given draft.parent = some p →
        ∃ q, left.Got now s near p q ∧ q.space = draft.space) →
      Matched R N
        (left.serve (.createLast (draft.made kind drafted fresh)) now s)
        (right.serve (.createLast (draft'.made kind drafted' fresh)) now' t)) :
    Agree (left.server now) (right.server now') R N
      (Operation.create config kind draft drafted fresh) s
      (Operation.create config kind draft' drafted' fresh) t := by
  obtain ⟨id', space', kind', parent', title', properties'⟩ := draft'
  obtain rfl : space' = draft.space := hspace
  obtain rfl : kind' = draft.kind := hkind
  obtain rfl : parent' = draft.parent := hparent
  unfold Operation.create
  dsimp only at hobject hserve ⊢
  rw [hobject]
  -- the checks look at the same data on both sides, one after the other
  refine Agree.requireSpace h.related _ _ (Agree.guard h.related Iff.rfl fun _ => ?_)
  refine (h.fetchParent _ hnear).read h.related fun a b ⟨hab, hgot⟩ => ?_
  refine Agree.require h.related _ (h.checkParent_eq hab _ _) fun hok => ?_
  refine Agree.guard h.related Iff.rfl fun hprops => ?_
  exact Agree.retrying_ask (.createLast _) (.createLast _) h.related
    (hserve (Bool.of_not_eq_false hprops) (parent_of_checked hgot hok)) _ _

theorem delete (kind : Kind) (space : Uuid) {id : Uuid} (hid : near id) :
    Agree (left.server now) (right.server now') R (· = ·) (Operation.delete kind space id) s
      (Operation.delete kind space id) t := by
  unfold Operation.delete
  dsimp only
  refine Agree.requireId h.related _ _ _ (Agree.requireSpace h.related _ _ ?_)
  refine (h.fetchKind _ _ hid).read h.related fun n m ⟨hn, hnm⟩ => ?_
  rw [(h.place hnm).2.1]
  refine Agree.guard h.related Iff.rfl fun hspace => ?_
  obtain rfl := not_not.1 hspace
  exact Agree.ask (.delete _ _) (.delete _ _) h.related (h.writes (.delete hn)) _

theorem move (kind : Kind) {id : Uuid} (hid : near id) {parent : Option Uuid}
    (hparent : ∀ p, Uuid.given parent = some p → near p) (sort : Option SortKey) :
    Agree (left.server now) (right.server now') R N (Operation.move config kind id parent sort) s
      (Operation.move config kind id parent sort) t := by
  unfold Operation.move
  dsimp only
  refine Agree.requireId h.related _ _ _ (Agree.guard h.related Iff.rfl fun _ => ?_)
  refine (h.fetchKind _ _ hid).read h.related fun n m ⟨hn, hnm⟩ => ?_
  refine (h.fetchParent _ hparent).read h.related fun a b ⟨hab, hgot⟩ => ?_
  obtain ⟨-, hspace, hkind, -⟩ := h.place hnm
  rw [hspace, hkind]
  refine Agree.require h.related _ (h.checkParent_eq hab _ _) fun hok => ?_
  have hin := parent_of_checked hgot hok
  cases sort with
  | none =>
    exact Agree.retrying_ask (.moveLast _ _) (.moveLast _ _) h.related
      (h.writes (.moveLast hn hin)) _ _
  | some sort =>
    exact Agree.retrying_ask (.moveAt _ _ _) (.moveAt _ _ _) h.related
      (h.writes (.moveAt hn hin)) _ _

theorem moveBlock {id parent : Uuid} (hid : near id) (hparent : near parent)
    (sort : Option SortKey) :
    Agree (left.server now) (right.server now') R N (Operation.moveBlock config id parent sort) s
      (Operation.moveBlock config id parent sort) t := by
  unfold Operation.moveBlock
  refine Agree.guard h.related Iff.rfl fun _ => h.move config .block hid (fun p hp => ?_) sort
  obtain ⟨hp, -⟩ := Option.filter_eq_some_iff.1 hp
  rwa [← Option.some.inj hp]

theorem reorder (kind : Kind) {id : Uuid} (hid : near id) (sort : SortKey) :
    Agree (left.server now) (right.server now') R N (Operation.reorder config kind id sort) s
      (Operation.reorder config kind id sort) t := by
  unfold Operation.reorder
  dsimp only
  refine Agree.requireId h.related _ _ _ ?_
  refine (h.fetchKind _ _ hid).read h.related fun n m ⟨hn, _⟩ => ?_
  exact Agree.retrying_ask (.reorder _ _) (.reorder _ _) h.related (h.writes (.reorder hn)) _ _

theorem moveBeside (kind : Kind) {id anchor : Uuid} (hid : near id) (hanchor : near anchor)
    (side : Side) :
    Agree (left.server now) (right.server now') R N
      (Operation.moveBeside config kind id anchor side) s
      (Operation.moveBeside config kind id anchor side) t := by
  unfold Operation.moveBeside
  dsimp only
  refine Agree.requireId h.related _ _ _ ?_
  refine Agree.guard h.related Iff.rfl fun _ => Agree.guard h.related Iff.rfl fun _ => ?_
  refine (h.fetchKind _ _ hid).read h.related fun n m ⟨hn, hnm⟩ => ?_
  refine (h.fetch _ hanchor).read h.related fun a b ⟨ha, hab⟩ => ?_
  obtain ⟨-, hspace, hkind, -⟩ := h.place hnm
  obtain ⟨-, haspace, -, haparent⟩ := h.place hab
  rw [hspace, hkind, haspace, haparent]
  refine Agree.guard h.related Iff.rfl fun hsame => ?_
  refine (h.fetchParent _ (h.around ha).2.2).read h.related fun p q ⟨hpq, _⟩ => ?_
  refine Agree.require h.related _ (h.checkParent_eq hpq _ _) fun _ => ?_
  exact Agree.retrying_ask (.moveBeside _ _ _) (.moveBeside _ _ _) h.related
    (h.writes (.moveBeside hn ha (not_not.1 hsame))) _ _

theorem renumber {group : Group} (hspace : opened group.space)
    (hparent : ∀ p, Uuid.given group.parent = some p → near p) :
    Agree (left.server now) (right.server now') R (List.Forall₂ N) (Operation.renumber group) s
      (Operation.renumber group) t := by
  unfold Operation.renumber
  dsimp only
  refine Agree.requireSpace h.related _ _ ?_
  cases hp : Uuid.given group.parent with
  | none =>
    have hprepared : StoreCall.Prepared (left.Got now s near) opened
        (.renumber ⟨group.space, none⟩) := .renumber hspace fun p hp => by cases hp
    exact Agree.ask (.renumber _) (.renumber _) h.related (h.writes hprepared) _
  | some id =>
    refine (h.fetch _ (hparent id hp)).read h.related fun n m ⟨hn, hnm⟩ => ?_
    rw [(h.place hnm).2.1]
    refine Agree.guard h.related Iff.rfl fun hsame => ?_
    have hprepared : StoreCall.Prepared (left.Got now s near) opened
        (.renumber ⟨group.space, some id⟩) := .renumber hspace fun p hp => by
      rw [← Option.some.inj hp]
      exact ⟨n, hn, not_not.1 hsame⟩
    exact Agree.ask (.renumber _) (.renumber _) h.related (h.writes hprepared) _

/-! ## Requests that read -/

theorem get (kind : Kind) {id : Uuid} (hid : near id) :
    Agree (left.server now) (right.server now') R N (Operation.get kind id) s
      (Operation.get kind id) t := by
  unfold Operation.get
  dsimp only
  refine Agree.requireId h.related _ _ _ ?_
  exact ((h.fetchKind _ _ hid).of_still h.related).mono (fun _ _ hst => hst) fun n m hnm => hnm.2

/-- A group is listed by both or by neither. -/
theorem listed (operation : String) {group : Group} (hspace : opened group.space)
    (hparent : ∀ p, group.parent = some p → near p) :
    Agree (left.server now) (right.server now') (Still s t)
      (List.Forall₂ fun n m => N n m ∧ near n.id)
      (Operation.ask operation (.list group)) s (Operation.ask operation (.list group)) t :=
  Agree.ask (.list _) (.list _) ⟨rfl, rfl⟩ (h.lists hspace hparent) operation

theorem roots {space : Uuid} (hspace : opened space) :
    Agree (left.server now) (right.server now') R (List.Forall₂ N) (Operation.roots space) s
      (Operation.roots space) t := by
  unfold Operation.roots
  dsimp only
  refine Agree.requireSpace h.related _ _ ?_
  exact ((h.listed _ hspace fun p hp => by cases hp).of_still h.related).mono (fun _ _ hst => hst)
    fun ns ms hlist => hlist.imp fun _ _ hnm => hnm.1

omit h in
/-- What is listed may be named. -/
theorem near_of_listed {ns ms : List Node}
    (hlist : List.Forall₂ (fun n m => N n m ∧ near n.id) ns ms) {n : Node} (hn : n ∈ ns) :
    near n.id := by
  induction hlist with
  | nil => cases hn
  | cons hnm _ ih =>
    rcases List.mem_cons.1 hn with rfl | hn
    · exact hnm.2
    · exact ih hn

/-- All children are listed alike; the live ones as well, when nodes differ in nothing but
times. -/
theorem children (kind : Kind) {id : Uuid} (hid : near id) (archived : Bool) :
    Agree (left.server now) (right.server now') R
      (fun ns ms => (∀ {n m}, N n m → n.Alike m) → Node.ListedAlike ns ms)
      (Operation.children kind id archived) s (Operation.children kind id archived) t := by
  unfold Operation.children
  dsimp only
  refine Agree.requireId h.related _ _ _ ?_
  refine (h.fetchKind _ _ hid).read h.related fun n m ⟨hn, hnm⟩ => ?_
  rw [(h.place hnm).2.1]
  refine (h.listed _ (h.around hn).2.1 fun p hp => ?_).read h.related fun ns ms hlist =>
    .pure h.related fun halike => ?_
  · rwa [← Option.some.inj hp]
  · have hlisted := Node.ListedAlike.of_forall₂ (fun hnm => halike hnm.1) hlist
    cases archived with
    | true => exact hlisted
    | false => exact hlisted.live

/-! ## Nodes that differ in nothing but times -/

variable (halike : ∀ {n m}, N n m → n.Alike m)

include halike

/-- The nodes of a branch are found alike, whatever has been found and is to be listed. -/
theorem collect (operation : String) {space : Uuid} (hspace : opened space) (fuel : Nat)
    {visited pending visited' pending' : List Node} (hvisited : Node.ListedAlike visited visited')
    (hpending : Node.ListedAlike pending pending') (hnear : ∀ n ∈ pending, near n.id) :
    Agree (left.server now) (right.server now') (Still s t) Node.ListedAlike
      (Branch.collect operation space fuel visited pending) s
      (Branch.collect operation space fuel visited' pending') t := by
  -- each round lists one group on both sides and finds the same nodes in it
  induction fuel generalizing visited pending visited' pending' with
  | zero =>
    cases pending with
    | nil =>
      obtain rfl := List.map_eq_nil_iff.1 hpending
      exact .pure ⟨rfl, rfl⟩ hvisited
    | cons n rest =>
      obtain ⟨m, rest', rfl, hnm, hrest⟩ := List.map_eq_cons_iff.1 hpending
      exact .pure ⟨rfl, rfl⟩ (hvisited.append hpending)
  | succ fuel ih =>
    cases pending with
    | nil =>
      obtain rfl := List.map_eq_nil_iff.1 hpending
      exact .pure ⟨rfl, rfl⟩ hvisited
    | cons n rest =>
      obtain ⟨m, rest', rfl, hnm, hrest⟩ := List.map_eq_cons_iff.1 hpending
      have hid : m.id = n.id := (Node.undated_eq_iff.1 hnm).1
      rw [Branch.collect, Branch.collect, hid]
      refine (h.listed _ hspace fun p hp => ?_).read ⟨rfl, rfl⟩ fun ns ms hlist => ?_
      · rw [← Option.some.inj hp]
        exact hnear n (by simp)
      have hlisted := Node.ListedAlike.of_forall₂ (fun hnm => halike hnm.1) hlist
      refine ih (hvisited.append (.single hnm)) ?_ fun q hq => ?_
      -- the same identifiers have been met, so the same nodes are new
      · have hrest' : Node.ListedAlike rest rest' := hrest
        rw [(hvisited.append hpending).ids]
        exact hrest'.append (hlisted.unseen _)
      · rcases List.mem_append.1 hq with hq | hq
        · exact hnear q (by simp [hq])
        · exact near_of_listed hlist (Branch.mem_of_mem_unseen hq)

theorem branch (kind : Kind) {id : Uuid} (hid : near id) :
    Agree (left.server now) (right.server now') R (fun t t' => t'.undated = t.undated)
      (Operation.branch kind id) s (Operation.branch kind id) t := by
  unfold Operation.branch
  dsimp only
  refine Agree.requireId h.related _ _ _ ?_
  refine (h.fetchKind _ _ hid).read h.related fun n m ⟨hn, hnm⟩ => ?_
  rw [(h.place hnm).2.1]
  refine (h.collect halike _ (h.around hn).2.1 _ .nil (.single (halike hnm)) fun q hq => ?_).read
    h.related fun ns ms hlisted => ?_
  · rw [List.mem_singleton.1 hq]
    exact (h.around hn).1
  -- trees that are drawn from nodes which are alike differ in times alone
  have htree : (Branch.tree? ms).map Tree.undated = (Branch.tree? ns).map Tree.undated := by
    rw [← Branch.tree?_undated, ← Branch.tree?_undated, hlisted]
  cases hns : Branch.tree? ns with
  | none =>
    rw [hns, Option.map_none, Option.map_eq_none_iff] at htree
    rw [htree]
    exact .throw h.related
  | some t =>
    rw [hns, Option.map_some, Option.map_eq_some_iff] at htree
    obtain ⟨t', hms, heq⟩ := htree
    rw [hms]
    exact .pure h.related heq

/-- An update by one patch. -/
theorem update (kind : Kind) {id : Uuid} (hid : near id) {patch : Patch}
    (hserve : Matched R N (left.serve (.update id patch) now s)
      (right.serve (.update id patch) now' t)) :
    Agree (left.server now) (right.server now') R Node.Alike (Operation.update kind id patch) s
      (Operation.update kind id patch) t := by
  unfold Operation.update
  dsimp only
  refine Agree.requireId h.related _ _ _ ?_
  refine (h.fetchKind _ _ hid).read h.related fun n m ⟨_, hnm⟩ => ?_
  by_cases hempty : patch.isEmpty
  · rw [if_pos hempty, if_pos hempty]
    exact .pure h.related (halike hnm)
  · rw [if_neg hempty, if_neg hempty]
    refine Agree.guard h.related Iff.rfl fun _ => ?_
    exact Agree.ask (.update _ _) (.update _ _) h.related
      (hserve.mono (fun _ _ hst => hst) fun _ _ => halike) _

/-- One request ends in the same way for both, whatever the clocks show to the service. What the
stores make of a new node and of a patch is left to them. -/
theorem request (request : Request) {drafted drafted' : Timestamp} {fresh : Uuid}
    (hids : ∀ id ∈ request.ids, near id) (hspaces : ∀ space ∈ request.spaces, opened space)
    (hcreate : ∀ kind draft, request = .create kind draft → draft.properties.isObject = true →
      (∀ p, Uuid.given draft.parent = some p →
        ∃ q, left.Got now s near p q ∧ q.space = draft.space) →
      Matched R N
        (left.serve (.createLast (draft.made kind drafted fresh)) now s)
        (right.serve (.createLast (draft.made kind drafted' fresh)) now' t))
    (hupdate : ∀ kind id patch, request = .update kind id patch →
      Matched R N (left.serve (.update id patch) now s) (right.serve (.update id patch) now' t)) :
    Agree (left.server now) (right.server now') R (fun a b => b.undated = a.undated)
      (request.operation config drafted fresh) s (request.operation config drafted' fresh) t := by
  have hnode : ∀ {n m}, N n m → (Answer.node m).undated = (Answer.node n).undated :=
    fun hnm => congrArg Answer.node (halike hnm)
  have hnodes : ∀ {ns ms}, List.Forall₂ N ns ms →
      (Answer.nodes ms).undated = (Answer.nodes ns).undated :=
    fun hlist => congrArg Answer.nodes (Node.ListedAlike.of_forall₂ halike hlist)
  have hgiven : ∀ {id : Option Uuid}, (∀ p ∈ id.toList, near p) → ∀ p, id = some p → near p :=
    fun hid p hp => hid p (by simp [hp])
  -- each operation agrees with itself; what is left is what its answer is made of
  cases request with
  | create kind draft =>
    exact (h.create config kind rfl rfl rfl rfl (hgiven hids)
      (hcreate kind draft rfl)).map fun _ _ => hnode
  | delete kind space id =>
    exact (h.delete kind space (hids id (by simp [Request.ids]))).map
      fun _ _ heq => congrArg Answer.count heq.symm
  | get kind id => exact (h.get kind (hids id (by simp [Request.ids]))).map fun _ _ => hnode
  | update kind id patch =>
    exact (h.update halike kind (hids id (by simp [Request.ids]))
      (hupdate kind id patch rfl)).map fun _ _ hnm => congrArg Answer.node hnm
  | children kind id archived =>
    exact (h.children kind (hids id (by simp [Request.ids])) archived).map
      fun _ _ hlist => congrArg Answer.nodes (hlist halike)
  | roots space =>
    exact (h.roots (hspaces space (by simp [Request.spaces]))).map fun _ _ => hnodes
  | move kind id parent sort =>
    refine (h.move config kind (hids id (by simp [Request.ids])) (hgiven fun p hp => ?_) sort).map
      fun _ _ => hnode
    exact hids p (List.mem_cons_of_mem _ hp)
  | moveBlock id parent sort =>
    exact (h.moveBlock config (hids id (by simp [Request.ids]))
      (hids parent (by simp [Request.ids])) sort).map fun _ _ => hnode
  | reorder kind id sort =>
    exact (h.reorder config kind (hids id (by simp [Request.ids])) sort).map fun _ _ => hnode
  | moveBeside kind id anchor side =>
    exact (h.moveBeside config kind (hids id (by simp [Request.ids]))
      (hids anchor (by simp [Request.ids])) side).map fun _ _ => hnode
  | branch kind id =>
    exact (h.branch halike kind (hids id (by simp [Request.ids]))).map
      fun _ _ heq => congrArg Answer.tree heq
  | renumber group =>
    exact (h.renumber (hspaces group.space (by simp [Request.spaces])) (hgiven hids)).map
      fun _ _ => hnodes

end Linked

end Outline
