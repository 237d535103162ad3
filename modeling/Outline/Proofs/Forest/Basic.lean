import Outline.Proofs.Outcome
import Outline.Proofs.Placement.Order
import Outline.Store.Error

/-!
# Forests of records

Both stores are looked at in the same way: as the function that gives each identifier its record.
A record shows the parts of a node that decide where it stands. The rest is payload, of whatever
type a store holds it in, and the time of the last change is kept apart from it because placing a
node sets that time.

A way up leads from a node over its parents to a root. That every stored node has one is what rules
out circles: a way up visits no node twice, since from each node there is only one.

Main results:

* `IsListing.eq` — a group has one listing;
* `Ascent.nodup` — a way up visits no node twice;
* `IsOutline.treeInvariants` — what holds of the whole tree.
-/

namespace Outline

open Sibling (Ascending)

/-- A stored node as far as its place is concerned. -/
structure Record (π τ : Type) where
  id : Uuid
  space : Uuid
  kind : Kind
  parent : Option Uuid
  sort : SortKey
  payload : π
  updated : τ

/-- Which record each identifier has. -/
abbrev Forest (π τ : Type) : Type := Uuid → Option (Record π τ)

variable {π τ : Type}

namespace Record

def group (r : Record π τ) : Group := ⟨r.space, r.parent⟩

/-- What a record shows apart from its key, its payload and its time. -/
def shape (r : Record π τ) : Uuid × Uuid × Kind × Option Uuid := (r.id, r.space, r.kind, r.parent)

end Record

/-! ## Listings -/

/-- The members of a group, each once, in key order. -/
structure IsListing (f : Forest π τ) (group : Group) (members : List Sibling) : Prop where
  ascending : Ascending members
  mem_iff   : ∀ {m}, m ∈ members ↔ ∃ r, f m.id = some r ∧ r.group = group ∧ r.sort = m.sort

namespace IsListing

variable {f : Forest π τ} {group : Group} {members members' : List Sibling}

theorem eq (h : IsListing f group members) (h' : IsListing f group members') :
    members = members' :=
  h.ascending.eq_of_mem_iff h'.ascending fun _ => h.mem_iff.trans h'.mem_iff.symm

/-- Members with one identifier are one member. -/
theorem eq_of_id (h : IsListing f group members) {a b : Sibling} (ha : a ∈ members)
    (hb : b ∈ members) (hab : a.id = b.id) : a = b := by
  obtain ⟨r, hr, -, hra⟩ := h.mem_iff.1 ha
  obtain ⟨q, hq, -, hqb⟩ := h.mem_iff.1 hb
  rw [hab, hq] at hr
  obtain rfl := Option.some.inj hr
  -- both keys are that of the one record
  cases a
  cases b
  simp_all

theorem nodup (h : IsListing f group members) : (members.map (·.id)).Nodup := by
  refine List.pairwise_map.2 (List.Pairwise.imp_of_mem (fun {a b} ha hb hab hid => ?_) h.ascending)
  rw [h.eq_of_id ha hb hid] at hab
  exact absurd hab (Int.lt_irrefl _)

theorem id_mem_iff (h : IsListing f group members) {id : Uuid} :
    id ∈ members.map (·.id) ↔ ∃ r, f id = some r ∧ r.group = group := by
  constructor
  · intro hid
    obtain ⟨m, hm, rfl⟩ := List.mem_map.1 hid
    obtain ⟨r, hr, hg, -⟩ := h.mem_iff.1 hm
    exact ⟨r, hr, hg⟩
  · rintro ⟨r, hr, hg⟩
    exact List.mem_map.2 ⟨⟨id, r.sort⟩, h.mem_iff.2 ⟨r, hr, hg, rfl⟩, rfl⟩

end IsListing

/-! ## Ways up -/

/-- A node and the nodes above it up to a root. -/
inductive Ascent (f : Forest π τ) : Uuid → List Uuid → Prop
  | root {id : Uuid} {r : Record π τ} : f id = some r → r.parent = none → Ascent f id [id]
  | step {id parent : Uuid} {r : Record π τ} {path : List Uuid} : f id = some r →
      r.parent = some parent → Ascent f parent path → Ascent f id (id :: path)

/-- A node stands at or below another when its way up passes it. -/
def Within (f : Forest π τ) (top id : Uuid) : Prop :=
  ∃ path, Ascent f id path ∧ top ∈ path

namespace Ascent

variable {f : Forest π τ} {id : Uuid} {path path' : List Uuid}

theorem unique (h : Ascent f id path) (h' : Ascent f id path') : path = path' := by
  induction h generalizing path' with
  | root hr hp =>
    cases h' with
    | root => rfl
    -- one record has a parent or it has none
    | step hr' hp' => simp_all
  | step hr hp _ ih =>
    cases h' with
    | root hr' hp' => simp_all
    | step hr' hp' htail =>
      rw [hr] at hr'
      obtain rfl := Option.some.inj hr'
      rw [hp] at hp'
      obtain rfl := Option.some.inj hp'
      rw [ih htail]

theorem self_mem (h : Ascent f id path) : id ∈ path := by
  cases h <;> simp

/-- Every node on the way has the rest of the way as its own way up. -/
theorem suffix (h : Ascent f id path) {a : Uuid} (ha : a ∈ path) :
    ∃ rest, Ascent f a rest ∧ rest <:+ path := by
  induction h with
  | root hr hp =>
    obtain rfl := List.mem_singleton.1 ha
    exact ⟨_, .root hr hp, List.suffix_refl _⟩
  | step hr hp htail ih =>
    rcases List.mem_cons.1 ha with rfl | ha
    · exact ⟨_, .step hr hp htail, List.suffix_refl _⟩
    · obtain ⟨rest, hrest, hsuf⟩ := ih ha
      exact ⟨rest, hrest, hsuf.trans (List.suffix_cons _ _)⟩

theorem stored (h : Ascent f id path) {a : Uuid} (ha : a ∈ path) : ∃ r, f a = some r := by
  obtain ⟨_, hrest, -⟩ := h.suffix ha
  cases hrest with
  | root hr => exact ⟨_, hr⟩
  | step hr => exact ⟨_, hr⟩

/-- A node met again would have a way up that is longer than itself. -/
theorem nodup (h : Ascent f id path) : path.Nodup := by
  induction h with
  | root => simp
  | @step id parent r path hr hp htail ih =>
    refine List.nodup_cons.2 ⟨fun hmem => ?_, ih⟩
    obtain ⟨rest, hrest, hsuf⟩ := htail.suffix hmem
    have hlen := hsuf.length_le
    -- `rest` begins with `id`, so it is the whole way, and yet it is a part of the tail
    rw [hrest.unique (.step hr hp htail), List.length_cons] at hlen
    omega

/-- A node is not at or above its own parent. -/
theorem not_within_parent {p : Uuid} {r : Record π τ} (hr : f id = some r)
    (hp : r.parent = some p) : ¬Within f id p := by
  rintro ⟨path, hpath, hmem⟩
  exact (List.nodup_cons.1 (Ascent.step hr hp hpath).nodup).1 hmem

/-- A way up stays one when the records on it keep their parents, whatever else they hold. -/
theorem congr {π' τ' : Type} {g : Forest π' τ'} (h : Ascent f id path)
    (hfg : ∀ a ∈ path, ∀ r, f a = some r → ∃ q, g a = some q ∧ q.parent = r.parent) :
    Ascent g id path := by
  induction h with
  | root hr hp =>
    obtain ⟨q, hq, hqp⟩ := hfg _ (by simp) _ hr
    exact .root hq (hqp.trans hp)
  | step hr hp _ ih =>
    obtain ⟨q, hq, hqp⟩ := hfg _ (by simp) _ hr
    exact .step hq (hqp.trans hp) (ih fun a ha => hfg a (List.mem_cons_of_mem _ ha))

end Ascent

theorem Within.of_parent {f : Forest π τ} {top id parent : Uuid} {r : Record π τ}
    (hr : f id = some r) (hp : r.parent = some parent) (h : Within f top parent) :
    Within f top id := by
  obtain ⟨path, hpath, hmem⟩ := h
  exact ⟨_, .step hr hp hpath, List.mem_cons_of_mem _ hmem⟩

/-- A stored node stands at or below another when it is the other or its parent does. -/
theorem within_iff_parent {f : Forest π τ} {top id : Uuid} {r : Record π τ} {path : List Uuid}
    (hpath : Ascent f id path) (hr : f id = some r) :
    Within f top id ↔ id = top ∨ ∃ p, r.parent = some p ∧ Within f top p := by
  constructor
  · rintro ⟨path', hpath', hmem⟩
    cases hpath' with
    | root => exact .inl (List.mem_singleton.1 hmem).symm
    | step hr' hp htail =>
      rw [hr] at hr'
      obtain rfl := Option.some.inj hr'
      rcases List.mem_cons.1 hmem with rfl | hmem
      · exact .inl rfl
      · exact .inr ⟨_, hp, _, htail, hmem⟩
  · rintro (rfl | ⟨p, hp, hw⟩)
    · exact ⟨path, hpath, hpath.self_mem⟩
    · exact hw.of_parent hr hp

/-! ## Outlines -/

/-- The parent of a record suits it: only a page may do without one; a parent is stored, in the
same space, and above a page it is a page. -/
def Lodged (f : Forest π τ) (r : Record π τ) : Prop :=
  match r.parent with
  | none => r.kind = .page
  | some parent =>
    ∃ q, f parent = some q ∧ q.space = r.space ∧ (r.kind = .page → q.kind = .page)

namespace Lodged

variable {f : Forest π τ} {r : Record π τ}

theorem isPage_of_root (h : Lodged f r) (hp : r.parent = none) : r.kind = .page := by
  rwa [Lodged, hp] at h

theorem exists_parent (h : Lodged f r) {p : Uuid} (hp : r.parent = some p) :
    ∃ q, f p = some q ∧ q.space = r.space ∧ (r.kind = .page → q.kind = .page) := by
  rwa [Lodged, hp] at h

/-- A parent suits a record of the same shape as long as it keeps its space and its kind. -/
theorem congr {π' τ' : Type} {g : Forest π' τ'} {q : Record π' τ'} (h : Lodged f r)
    (hspace : q.space = r.space) (hkind : q.kind = r.kind) (hparent : q.parent = r.parent)
    (hfg : ∀ p t, r.parent = some p → f p = some t →
      ∃ t', g p = some t' ∧ t'.space = t.space ∧ t'.kind = t.kind) : Lodged g q := by
  unfold Lodged
  rw [hparent]
  cases hp : r.parent with
  | none => exact hkind.trans (h.isPage_of_root hp)
  | some p =>
    obtain ⟨t, ht, hts, hpage⟩ := h.exists_parent hp
    obtain ⟨t', ht', hspace', hkind'⟩ := hfg p t hp ht
    refine ⟨t', ht', ?_, fun hk => ?_⟩
    · rw [hspace', hts, hspace]
    · rw [hkind', hpage (hkind ▸ hk)]

end Lodged

/-- The check of a kind passes nodes of that kind. -/
theorem checkKind_eq_ok_iff {n : Node} {kind : Kind} :
    checkKind n kind = .ok () ↔ n.kind = kind := by
  unfold checkKind
  split <;> simp [*]

/-- The check of a parent passes the suitable ones. -/
theorem checkParent_eq_ok_iff {kind : Kind} {space : Uuid} {parent : Option Node} :
    checkParent kind space parent = .ok () ↔
      match parent with
      | none => kind = .page
      | some p => p.space = space ∧ (kind = .page → p.kind = .page) := by
  cases parent with
  | none => cases kind <;> simp [checkParent, Kind.mayBeRoot]
  | some p =>
    by_cases hspace : p.space = space
    · cases kind <;> cases hk : p.kind <;> simp [checkParent, hspace, Kind.mayNest, hk]
    · simp [checkParent, hspace]

/-- The check of a parent that was looked up, or the reason why it was not found. -/
def checkFetched (kind : Kind) (space : Uuid) (parent : Except StoreError (Option Node)) :
    Except StoreError Unit :=
  parent >>= fun parent => (checkParent kind space parent).mapError .violation

theorem checkFetched_eq_ok_iff {kind : Kind} {space : Uuid}
    {parent : Except StoreError (Option Node)} :
    checkFetched kind space parent = .ok () ↔
      ∃ n, parent = .ok n ∧ checkParent kind space n = .ok () := by
  unfold checkFetched
  rw [bind_eq_ok_iff]
  simp only [mapError_eq_ok_iff]

/-- Records are filed under their own identifiers, have suitable parents and lead up to a root. -/
structure Rooted (f : Forest π τ) : Prop where
  own_id : ∀ {id r}, f id = some r → r.id = id
  lodged : ∀ {id r}, f id = some r → Lodged f r
  ascent : ∀ {id r}, f id = some r → ∃ path, Ascent f id path

/-- No two records of a group have the same key. -/
def KeysDistinct (f : Forest π τ) : Prop :=
  ∀ {a b r q}, f a = some r → f b = some q → r.group = q.group → r.sort = q.sort → a = b

structure IsOutline (f : Forest π τ) : Prop where
  rooted : Rooted f
  keys   : KeysDistinct f

theorem isOutline_of_empty {f : Forest π τ} (h : ∀ id, f id = none) : IsOutline f := by
  have hnot : ∀ {id r}, f id ≠ some r := fun {id r} hr => by
    rw [h id] at hr
    cases hr
  exact ⟨⟨fun hr => absurd hr hnot, fun hr => absurd hr hnot, fun hr => absurd hr hnot⟩,
    fun hr => absurd hr hnot⟩

/-- What holds of the whole tree. -/
structure TreeInvariants (f : Forest π τ) : Prop where
  page_parent   : ∀ {id r}, f id = some r → r.kind = .page →
                    r.parent = none ∨ ∃ p q, r.parent = some p ∧ f p = some q ∧ q.kind = .page
  block_parent  : ∀ {id r}, f id = some r → r.kind = .block → ∃ p, r.parent = some p
  parent_stored : ∀ {id r p}, f id = some r → r.parent = some p →
                    ∃ q, f p = some q ∧ q.id = p ∧ q.space = r.space
  keys_distinct : ∀ {a b r q}, f a = some r → f b = some q → r.space = q.space →
                    r.parent = q.parent → r.sort = q.sort → a = b
  ancestors     : ∀ {id r}, f id = some r → ∃ path, Ascent f id path ∧ path.Nodup ∧
                    (∃ top q, path.getLast? = some top ∧ f top = some q ∧ q.parent = none ∧
                      q.kind = .page ∧ q.space = r.space) ∧
                    (r.kind = .page → ∀ a ∈ path, ∃ q, f a = some q ∧ q.kind = .page)

namespace Rooted

variable {f : Forest π τ} (h : Rooted f)
include h

/-- A way up from a node that were its own parent would be longer than itself. -/
theorem parent_ne_self {id : Uuid} {r : Record π τ} (hr : f id = some r) :
    r.parent ≠ some id := by
  intro hp
  obtain ⟨path, hpath⟩ := h.ascent hr
  have hloop : path = id :: path := hpath.unique (.step hr hp hpath)
  have hlen := congrArg List.length hloop
  rw [List.length_cons] at hlen
  omega

/-- The root of a node is a page of the node's space. -/
theorem root_of_ascent {id : Uuid} {r : Record π τ} {path : List Uuid} (hr : f id = some r)
    (hpath : Ascent f id path) :
    ∃ top q, path.getLast? = some top ∧ f top = some q ∧ q.parent = none ∧ q.kind = .page ∧
      q.space = r.space := by
  induction hpath generalizing r with
  | root hr' hp =>
    rw [hr] at hr'
    obtain rfl := Option.some.inj hr'
    exact ⟨_, r, rfl, hr, hp, (h.lodged hr).isPage_of_root hp, rfl⟩
  | @step id parent r' path hr' hp htail ih =>
    rw [hr] at hr'
    obtain rfl := Option.some.inj hr'
    -- the parent has the same root, and is in the same space
    obtain ⟨q, hq, hspace, -⟩ := (h.lodged hr).exists_parent hp
    obtain ⟨top, t, hlast, ht, hnone, hpage, hts⟩ := ih hq
    refine ⟨top, t, ?_, ht, hnone, hpage, hts.trans hspace⟩
    rw [List.getLast?_cons, hlast]
    rfl

/-- All nodes on the way up from a node are in its space. -/
theorem space_of_ascent {id : Uuid} {r : Record π τ} {path : List Uuid} (hr : f id = some r)
    (hpath : Ascent f id path) : ∀ a ∈ path, ∃ q, f a = some q ∧ q.space = r.space := by
  induction hpath generalizing r with
  | root hr' hp =>
    intro a ha
    obtain rfl := List.mem_singleton.1 ha
    exact ⟨r, hr, rfl⟩
  | step hr' hp htail ih =>
    rw [hr] at hr'
    obtain rfl := Option.some.inj hr'
    obtain ⟨q, hq, hspace, -⟩ := (h.lodged hr).exists_parent hp
    intro a ha
    rcases List.mem_cons.1 ha with rfl | ha
    · exact ⟨r, hr, rfl⟩
    · obtain ⟨t, ht, hts⟩ := ih hq a ha
      exact ⟨t, ht, hts.trans hspace⟩

/-- A node is in the space of every node that it stands at or below. -/
theorem space_of_within {top id : Uuid} {r q : Record π τ} (hr : f id = some r)
    (hq : f top = some q) (hw : Within f top id) : q.space = r.space := by
  obtain ⟨path, hpath, hmem⟩ := hw
  obtain ⟨q', hq', hspace⟩ := h.space_of_ascent hr hpath top hmem
  rw [hq] at hq'
  rw [Option.some.inj hq', hspace]

theorem pages_of_ascent {id : Uuid} {r : Record π τ} {path : List Uuid} (hr : f id = some r)
    (hkind : r.kind = .page) (hpath : Ascent f id path) :
    ∀ a ∈ path, ∃ q, f a = some q ∧ q.kind = .page := by
  induction hpath generalizing r with
  | root hr' hp =>
    intro a ha
    obtain rfl := List.mem_singleton.1 ha
    exact ⟨r, hr, hkind⟩
  | step hr' hp htail ih =>
    rw [hr] at hr'
    obtain rfl := Option.some.inj hr'
    -- a parent of a page is a page, so the induction goes on from one
    obtain ⟨q, hq, -, hpage⟩ := (h.lodged hr).exists_parent hp
    intro a ha
    rcases List.mem_cons.1 ha with rfl | ha
    · exact ⟨r, hr, hkind⟩
    · exact ih hq (hpage hkind) a ha

end Rooted

/-- The invariants that are carried from state to state imply those of the whole tree. -/
theorem IsOutline.treeInvariants {f : Forest π τ} (h : IsOutline f) : TreeInvariants f where
  page_parent {id r} hr hkind := by
    cases hp : r.parent with
    | none => exact .inl rfl
    | some p =>
      obtain ⟨q, hq, -, hpage⟩ := (h.rooted.lodged hr).exists_parent hp
      exact .inr ⟨p, q, rfl, hq, hpage hkind⟩
  block_parent {id r} hr hkind := by
    refine Option.ne_none_iff_exists'.1 fun hp => ?_
    -- without a parent it would be a page
    have hpage := (h.rooted.lodged hr).isPage_of_root hp
    rw [hkind] at hpage
    cases hpage
  parent_stored {id r p} hr hp := by
    obtain ⟨q, hq, hspace, -⟩ := (h.rooted.lodged hr).exists_parent hp
    exact ⟨q, hq, h.rooted.own_id hq, hspace⟩
  keys_distinct {a b r q} hr hq hspace hparent hsort :=
    h.keys hr hq (by simp [Record.group, hspace, hparent]) hsort
  ancestors {id r} hr := by
    obtain ⟨path, hpath⟩ := h.rooted.ascent hr
    exact ⟨path, hpath, hpath.nodup, h.rooted.root_of_ascent hr hpath,
      fun hkind => h.rooted.pages_of_ascent hr hkind hpath⟩

end Outline
