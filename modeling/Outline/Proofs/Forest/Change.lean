import Outline.Proofs.Forest.Basic

/-!
# Changes of a forest

What a store does to its nodes is made of four changes: records get new payload, a record is put
under a parent, the members of a group get new keys, and a node is removed with everything below
it. Each keeps an outline an outline, given what the stores check beforehand.

A placement is two of them: the node is put under its parent, whatever its key, and then the group
is given keys. In between the keys may clash, so being rooted and having distinct keys are
carried along separately.

Main results:

* `Rooted.put` — a node may be put under a parent that it is not above;
* `Rekeyed.isOutline` — new keys leave an outline;
* `Placed.isOutline`, `Removed.isOutline` — and so do placements and removals;
* `Evolves.isOutline` — whatever a call does leaves an outline.
-/

namespace Outline

open Sibling (Ascending)

variable {π τ : Type}

/-! ## Payload -/

/-- Only keys, payload and times differ. The payload may even be held in another form. -/
def SameShape {π' τ' : Type} (f : Forest π τ) (g : Forest π' τ') : Prop :=
  ∀ id, (f id).map Record.shape = (g id).map Record.shape

namespace SameShape

variable {π' τ' : Type} {f : Forest π τ} {g : Forest π' τ'} (h : SameShape f g)
include h

theorem symm : SameShape g f :=
  fun id => (h id).symm

theorem exists_of_some {id : Uuid} {r : Record π τ} (hr : f id = some r) :
    ∃ q, g id = some q ∧ q.id = r.id ∧ q.space = r.space ∧ q.kind = r.kind ∧
      q.parent = r.parent := by
  have hid := h id
  rw [hr, Option.map_some] at hid
  obtain ⟨q, hq, hshape⟩ := Option.map_eq_some_iff.1 hid.symm
  simp only [Record.shape, Prod.mk.injEq] at hshape
  exact ⟨q, hq, hshape⟩

theorem ascent {id : Uuid} {path : List Uuid} (hpath : Ascent f id path) : Ascent g id path := by
  refine hpath.congr fun a _ r hr => ?_
  obtain ⟨q, hq, -, -, -, hparent⟩ := h.exists_of_some hr
  exact ⟨q, hq, hparent⟩

theorem within_iff {top id : Uuid} : Within f top id ↔ Within g top id :=
  ⟨fun ⟨path, hpath, hmem⟩ => ⟨path, h.ascent hpath, hmem⟩,
    fun ⟨path, hpath, hmem⟩ => ⟨path, h.symm.ascent hpath, hmem⟩⟩

theorem lodged {r : Record π τ} {q : Record π' τ'} (hspace : q.space = r.space)
    (hkind : q.kind = r.kind) (hparent : q.parent = r.parent) (hr : Lodged f r) : Lodged g q := by
  refine hr.congr hspace hkind hparent fun p t _ ht => ?_
  obtain ⟨t', ht', -, hspace', hkind', -⟩ := h.exists_of_some ht
  exact ⟨t', ht', hspace', hkind'⟩

theorem rooted (hf : Rooted f) : Rooted g where
  own_id hq := by
    obtain ⟨r, hr, hid, -⟩ := h.symm.exists_of_some hq
    exact hid ▸ hf.own_id hr
  lodged hq := by
    obtain ⟨r, hr, -, hspace, hkind, hparent⟩ := h.symm.exists_of_some hq
    exact h.lodged hspace.symm hkind.symm hparent.symm (hf.lodged hr)
  ascent hq := by
    obtain ⟨r, hr, -⟩ := h.symm.exists_of_some hq
    obtain ⟨path, hpath⟩ := hf.ascent hr
    exact ⟨path, h.ascent hpath⟩

end SameShape

/-! ## Putting a record -/

namespace Forest

/-- The forest with a record under its own identifier. -/
def put (f : Forest π τ) (r : Record π τ) : Forest π τ :=
  fun id => if id = r.id then some r else f id

@[simp] theorem put_self (f : Forest π τ) (r : Record π τ) : f.put r r.id = some r := by
  simp [put]

theorem put_of_ne (f : Forest π τ) {r : Record π τ} {id : Uuid} (h : id ≠ r.id) :
    f.put r id = f id := by
  simp [put, h]

end Forest

/-- A change of payload is no change of shape. -/
theorem sameShape_put {f : Forest π τ} {r q : Record π τ} (hr : f q.id = some r)
    (hshape : q.shape = r.shape) : SameShape f (f.put q) := by
  intro id
  by_cases hid : id = q.id
  · rw [hid, f.put_self, hr, Option.map_some, Option.map_some, hshape]
  · rw [f.put_of_ne hid]

theorem IsOutline.put_payload {f : Forest π τ} (h : IsOutline f) {r q : Record π τ}
    (hr : f q.id = some r) (hshape : q.shape = r.shape) (hsort : q.sort = r.sort) :
    IsOutline (f.put q) where
  rooted := (sameShape_put hr hshape).rooted h.rooted
  keys := by
    -- every record of the new forest stands where one of the old forest stood
    have hold : ∀ {id t}, f.put q id = some t →
        ∃ t', f id = some t' ∧ t'.group = t.group ∧ t'.sort = t.sort := by
      intro id t ht
      by_cases hid : id = q.id
      · rw [hid, f.put_self] at ht
        obtain rfl := Option.some.inj ht
        simp only [Record.shape, Prod.mk.injEq] at hshape
        exact ⟨r, hid ▸ hr, by simp [Record.group, hshape], hsort.symm⟩
      · rw [f.put_of_ne hid] at ht
        exact ⟨t, ht, rfl, rfl⟩
    intro a b s t hs ht hgroup hsort
    obtain ⟨s', hs', hgs, hks⟩ := hold hs
    obtain ⟨t', ht', hgt, hkt⟩ := hold ht
    exact h.keys hs' ht' (by rw [hgs, hgt, hgroup]) (by rw [hks, hkt, hsort])

/-- The ways up that do not pass a record are not changed by putting it. -/
theorem Ascent.put {f : Forest π τ} {id : Uuid} {path : List Uuid} (h : Ascent f id path)
    {r : Record π τ} (hr : r.id ∉ path) : Ascent (f.put r) id path := by
  refine h.congr fun a ha q hq => ⟨q, ?_, rfl⟩
  rw [f.put_of_ne (by rintro rfl; exact hr ha), hq]

/-- Any other way up is the old one as far as the record, and from there that of the record. -/
theorem Ascent.exists_put {f : Forest π τ} {id : Uuid} {path : List Uuid} (h : Ascent f id path)
    {r : Record π τ} (hself : ∃ path, Ascent (f.put r) r.id path) :
    ∃ path, Ascent (f.put r) id path := by
  induction h with
  | @root id q hq hp =>
    by_cases hid : id = r.id
    · exact hid ▸ hself
    · exact ⟨_, .root (by rw [f.put_of_ne hid, hq]) hp⟩
  | @step id p q path hq hp _ ih =>
    by_cases hid : id = r.id
    · exact hid ▸ hself
    · obtain ⟨path', hpath'⟩ := ih
      exact ⟨_, .step (by rw [f.put_of_ne hid, hq]) hp hpath'⟩

/-- A record that keeps its space and its kind still suits whoever is below it. -/
theorem Lodged.put {f : Forest π τ} {q r : Record π τ} (h : Lodged f q)
    (hsame : ∀ old, f r.id = some old → old.space = r.space ∧ old.kind = r.kind) :
    Lodged (f.put r) q := by
  refine h.congr rfl rfl rfl fun p t _ ht => ?_
  by_cases hid : p = r.id
  · subst hid
    obtain ⟨hspace, hkind⟩ := hsame t ht
    exact ⟨r, f.put_self r, hspace.symm, hkind.symm⟩
  · exact ⟨t, by rw [f.put_of_ne hid, ht], rfl, rfl⟩

/-- A record, new or moved, may be put under a suitable parent that it is not above. -/
theorem Rooted.put {f : Forest π τ} (h : Rooted f) {r : Record π τ} (hlodged : Lodged f r)
    (hclear : ∀ p, r.parent = some p → ¬Within f r.id p)
    (hsame : ∀ old, f r.id = some old → old.space = r.space ∧ old.kind = r.kind) :
    Rooted (f.put r) := by
  -- the way up from the record itself: its parent's way does not pass it
  have hself : ∃ path, Ascent (f.put r) r.id path := by
    cases hp : r.parent with
    | none => exact ⟨_, .root (f.put_self r) hp⟩
    | some p =>
      obtain ⟨q, hq, -⟩ := hlodged.exists_parent hp
      obtain ⟨path, hpath⟩ := h.ascent hq
      have hnot : r.id ∉ path := fun hmem => hclear p hp ⟨path, hpath, hmem⟩
      exact ⟨_, .step (f.put_self r) hp (hpath.put hnot)⟩
  refine ⟨fun {id q} hq => ?_, fun {id q} hq => ?_, fun {id q} hq => ?_⟩
  -- own identifiers
  · by_cases hid : id = r.id
    · rw [hid, f.put_self] at hq
      rw [hid, Option.some.inj hq]
    · rw [f.put_of_ne hid] at hq
      exact h.own_id hq
  -- suitable parents
  · by_cases hid : id = r.id
    · rw [hid, f.put_self] at hq
      exact Option.some.inj hq ▸ hlodged.put hsame
    · rw [f.put_of_ne hid] at hq
      exact (h.lodged hq).put hsame
  -- ways up
  · by_cases hid : id = r.id
    · exact hid ▸ hself
    · rw [f.put_of_ne hid] at hq
      obtain ⟨path, hpath⟩ := h.ascent hq
      exact hpath.exists_put hself

/-! ## New keys for a group -/

/-- The members of a group have got the keys of `members`; a member's time is now `stamp` or stays.
Nothing else has changed. -/
structure Rekeyed (f g : Forest π τ) (group : Group) (members : List Sibling) (stamp : τ) :
    Prop where
  ascending : Ascending members
  nodup     : (members.map (·.id)).Nodup
  id_mem    : ∀ {id}, id ∈ members.map (·.id) ↔ ∃ r, f id = some r ∧ r.group = group
  member    : ∀ {id r}, f id = some r → r.group = group → ∃ sort updated,
                ⟨id, sort⟩ ∈ members ∧ (updated = r.updated ∨ updated = stamp) ∧
                g id = some { r with sort := sort, updated := updated }
  frame     : ∀ {id}, (∀ r, f id = some r → r.group ≠ group) → g id = f id

namespace Rekeyed

variable {f g : Forest π τ} {group : Group} {members : List Sibling} {stamp : τ}
  (h : Rekeyed f g group members stamp)
include h

theorem sameShape : SameShape f g := by
  intro id
  by_cases hin : ∃ r, f id = some r ∧ r.group = group
  · obtain ⟨r, hr, hgroup⟩ := hin
    obtain ⟨sort, updated, -, -, hg⟩ := h.member hr hgroup
    rw [hr, hg]
    rfl
  · rw [h.frame fun r hr hgroup => hin ⟨r, hr, hgroup⟩]

/-- The group is now listed as told. -/
theorem isListing : IsListing g group members := by
  refine ⟨h.ascending, fun {m} => ⟨fun hm => ?_, ?_⟩⟩
  · obtain ⟨r, hr, hgroup⟩ := h.id_mem.1 (List.mem_map_of_mem hm)
    obtain ⟨sort, updated, hmem, -, hg⟩ := h.member hr hgroup
    have heq : m = ⟨m.id, sort⟩ := List.inj_on_of_nodup_map h.nodup hm hmem rfl
    rw [heq]
    exact ⟨_, hg, hgroup, rfl⟩
  · rintro ⟨q, hq, hgroup, hsort⟩
    by_cases hin : ∃ r, f m.id = some r ∧ r.group = group
    · obtain ⟨r, hr, hgroup⟩ := hin
      obtain ⟨sort, updated, hmem, -, hg⟩ := h.member hr hgroup
      rw [hq] at hg
      obtain rfl := Option.some.inj hg
      obtain rfl : sort = m.sort := hsort
      exact hmem
    · rw [h.frame fun r hr hgroup => hin ⟨r, hr, hgroup⟩] at hq
      exact absurd ⟨q, hq, hgroup⟩ hin

/-- Other groups are listed as before. -/
theorem isListing_of_ne {other : Group} {before : List Sibling} (hne : other ≠ group)
    (hbefore : IsListing f other before) : IsListing g other before := by
  refine ⟨hbefore.ascending, fun {m} => ?_⟩
  rw [hbefore.mem_iff]
  by_cases hin : ∃ r, f m.id = some r ∧ r.group = group
  -- a member of the group is in no other, before or after
  · obtain ⟨r, hr, hgroup⟩ := hin
    obtain ⟨sort, updated, -, -, hg⟩ := h.member hr hgroup
    rw [hr, hg]
    simp [Record.group] at hgroup ⊢
    grind
  · rw [h.frame fun r hr hgroup => hin ⟨r, hr, hgroup⟩]

/-- Keys are distinct afterwards if they were outside the group. -/
theorem keysDistinct
    (hout : ∀ {a b r q}, f a = some r → f b = some q → r.group ≠ group → r.group = q.group →
      r.sort = q.sort → a = b) : KeysDistinct g := by
  intro a b r q hr hq hgroup hsort
  by_cases hin : r.group = group
  · have ha := (h.isListing.mem_iff (m := ⟨a, r.sort⟩)).2 ⟨r, hr, hin, rfl⟩
    have hb := (h.isListing.mem_iff (m := ⟨b, q.sort⟩)).2 ⟨q, hq, hgroup ▸ hin, rfl⟩
    exact congrArg Sibling.id (h.ascending.eq_of_sort ha hb hsort)
  -- records of other groups are the old ones
  · have hframe : ∀ {id t}, g id = some t → t.group ≠ group → f id = some t := by
      intro id t ht hne
      rw [← ht]
      refine (h.frame fun s hs hs' => hne ?_).symm
      obtain ⟨sort, updated, -, -, hg⟩ := h.member hs hs'
      rw [ht] at hg
      rw [Option.some.inj hg]
      exact hs'
    exact hout (hframe hr hin) (hframe hq (hgroup ▸ hin)) hin hgroup hsort

theorem isOutline (hf : IsOutline f) : IsOutline g :=
  ⟨h.sameShape.rooted hf.rooted, h.keysDistinct fun hr hq _ => hf.keys hr hq⟩

end Rekeyed

/-! ## Placements -/

/-- A placement of a node between the members of a group before and after its place. -/
structure Placing (f : Forest π τ) (group : Group) (id : Uuid) (p : Placement)
    (left right : List Sibling) : Prop where
  listing : ∃ members, IsListing f group members ∧ left ++ right = members.filter (·.id ≠ id)
  puts    : p.Puts left id right

/-- What the allocator finds for a target is a placement between the parts that it cuts. -/
theorem Placing.of_placeIn {f : Forest π τ} {group group' : Group} {id : Uuid} {p : Placement}
    {gap : Gap} {target : Target} {members : List Sibling} (hlist : IsListing f group members)
    (hplace : gap.placeIn group' members id target = .ok p) :
    Placing f group id p (target.cut (members.filter (·.id ≠ id))).1
      (target.cut (members.filter (·.id ≠ id))).2 := by
  have hothers := Sibling.others_of_ascending hlist.ascending id
  have hputs := Gap.placeIn_puts (by rw [hothers]; exact hlist.ascending.filter _) hplace
  rw [hothers] at hputs
  exact ⟨⟨members, hlist, Target.cut_append _ _⟩, hputs⟩

/-- A key that no other member holds is a placement where it says. -/
theorem Placing.of_free {f : Forest π τ} {group : Group} {id : Uuid} {sort : SortKey}
    {members : List Sibling} (hlist : IsListing f group members)
    (hfree : ∀ m ∈ members, m.id ≠ id → m.sort ≠ sort) :
    Placing f group id (.key sort) ((Target.at sort).cut (members.filter (·.id ≠ id))).1
      ((Target.at sort).cut (members.filter (·.id ≠ id))).2 := by
  have hplace : Gap.standard.placeIn group members id (.at sort) = .ok (.key sort) := by
    rw [Gap.placeIn, Gap.placeAt_of_free, mapError_ok]
    intro m hm
    obtain ⟨hm, hne⟩ := Sibling.mem_others.1 hm
    exact hfree m hm hne
  exact .of_placeIn hlist hplace

namespace Placing

variable {f : Forest π τ} {group : Group} {id : Uuid} {p : Placement} {left right : List Sibling}
  (h : Placing f group id p left right)
include h

/-- The members before and after the place are the others in the group. -/
theorem mem_others_iff {m : Sibling} :
    m ∈ left ++ right ↔
      m.id ≠ id ∧ ∃ r, f m.id = some r ∧ r.group = group ∧ r.sort = m.sort := by
  obtain ⟨members, hlist, hparts⟩ := h.listing
  rw [hparts, List.mem_filter, hlist.mem_iff, decide_eq_true_eq, and_comm]

theorem id_mem_others_iff {a : Uuid} :
    a ∈ (left ++ right).map (·.id) ↔ a ≠ id ∧ ∃ r, f a = some r ∧ r.group = group := by
  constructor
  · intro ha
    obtain ⟨m, hm, rfl⟩ := List.mem_map.1 ha
    obtain ⟨hne, r, hr, hgroup, -⟩ := h.mem_others_iff.1 hm
    exact ⟨hne, r, hr, hgroup⟩
  · rintro ⟨hne, r, hr, hgroup⟩
    exact List.mem_map.2 ⟨⟨a, r.sort⟩, h.mem_others_iff.2 ⟨hne, r, hr, hgroup, rfl⟩, rfl⟩

theorem ids_settled :
    (p.settled left id right).map (·.id) = left.map (·.id) ++ id :: right.map (·.id) :=
  h.puts.ids

/-- The group as it is to be has the others and the placed node. -/
theorem id_mem_settled_iff {a : Uuid} :
    a ∈ (p.settled left id right).map (·.id) ↔ a = id ∨ ∃ r, f a = some r ∧ r.group = group := by
  have hothers := h.id_mem_others_iff (a := a)
  rw [List.map_append, List.mem_append] at hothers
  rw [h.ids_settled, List.mem_append, List.mem_cons, or_left_comm, hothers]
  by_cases ha : a = id
  · simp [ha]
  · simp [ha]

theorem nodup_settled : ((p.settled left id right).map (·.id)).Nodup := by
  rw [h.ids_settled, List.nodup_middle, List.nodup_cons, ← List.map_append]
  refine ⟨fun hmem => (h.id_mem_others_iff.1 hmem).1 rfl, ?_⟩
  obtain ⟨members, hlist, hparts⟩ := h.listing
  rw [hparts]
  exact hlist.nodup.sublist (List.Sublist.map _ List.filter_sublist)

/-- The placed node has a key in the group as it is to be. -/
theorem exists_key : ∃ sort, ⟨id, sort⟩ ∈ p.settled left id right := by
  obtain ⟨m, hm, hid⟩ := List.mem_map.1 (h.id_mem_settled_iff.2 (.inl rfl))
  exact ⟨m.sort, hid ▸ hm⟩

/-- With a lone key the others stay where they are. -/
theorem mem_settled_of_key {sort : SortKey} (hp : p = .key sort) {a : Uuid} {r : Record π τ}
    (ha : a ≠ id) (hr : f a = some r) (hgroup : r.group = group) :
    ⟨a, r.sort⟩ ∈ p.settled left id right := by
  have hother : (⟨a, r.sort⟩ : Sibling) ∈ left ++ right :=
    h.mem_others_iff.2 ⟨ha, r, hr, hgroup, rfl⟩
  rw [hp, Placement.settled]
  rcases List.mem_append.1 hother with hleft | hright
  · exact List.mem_append_left _ hleft
  · exact List.mem_append_right _ (List.mem_cons_of_mem _ hright)

end Placing

/-- The record `r`, new or stored, has been put into a group, whose members now have the keys of
`members`. -/
def Placed (f g : Forest π τ) (r : Record π τ) (group : Group) (members : List Sibling)
    (stamp : τ) : Prop :=
  Rekeyed (f.put { r with parent := group.parent }) g group members stamp

namespace Placed

variable {f g : Forest π τ} {r : Record π τ} {group : Group} {members : List Sibling} {stamp : τ}

/-- What a store has to do for a placement: give each node its key in the group as it is to be. -/
theorem of_placing {p : Placement} {left right : List Sibling} (hspace : r.space = group.space)
    (h : Placing f group r.id p left right)
    (hself : ∃ sort updated, ⟨r.id, sort⟩ ∈ p.settled left r.id right ∧
      (updated = r.updated ∨ updated = stamp) ∧
      g r.id = some { r with parent := group.parent, sort := sort, updated := updated })
    (hsibling : ∀ id q, id ≠ r.id → f id = some q → q.group = group → ∃ sort updated,
      ⟨id, sort⟩ ∈ p.settled left r.id right ∧ (updated = q.updated ∨ updated = stamp) ∧
      g id = some { q with sort := sort, updated := updated })
    (hframe : ∀ id, id ≠ r.id → (∀ q, f id = some q → q.group ≠ group) → g id = f id) :
    Placed f g r group (p.settled left r.id right) stamp := by
  refine ⟨h.puts.ascending, h.nodup_settled, fun {id} => ?_, fun {id q} hq hgroup => ?_,
    fun {id} hout => ?_⟩
  -- once the node is put, whoever is settled is in the group
  · rw [h.id_mem_settled_iff]
    by_cases hid : id = r.id
    · simp [hid, Record.group, Forest.put, hspace]
    · simp [hid, Forest.put]
  -- each member has its key
  · by_cases hid : id = r.id
    · subst hid
      rw [Forest.put, if_pos rfl] at hq
      obtain rfl := Option.some.inj hq
      exact hself
    · rw [Forest.put, if_neg hid] at hq
      exact hsibling id q hid hq hgroup
  -- and nobody else is touched
  · by_cases hid : id = r.id
    · exact absurd (by simp [Record.group, hspace]) (hout { r with parent := group.parent }
        (by simp [Forest.put, hid]))
    · simp only [Forest.put, if_neg hid] at hout ⊢
      exact hframe id hid hout

/-- Placing a node makes no circle and no clash of keys, given what was checked. -/
theorem isOutline (h : Placed f g r group members stamp) (hf : IsOutline f)
    (hspace : r.space = group.space) (hlodged : Lodged f { r with parent := group.parent })
    (hclear : ∀ p, group.parent = some p → ¬Within f r.id p)
    (hsame : ∀ old, f r.id = some old → old.space = r.space ∧ old.kind = r.kind) :
    IsOutline g := by
  set moved : Record π τ := { r with parent := group.parent } with hmoved
  have hrooted : Rooted (f.put moved) := hf.rooted.put hlodged hclear hsame
  refine ⟨(Rekeyed.sameShape h).rooted hrooted, Rekeyed.keysDistinct h ?_⟩
  intro a b s t hs ht hne hgroup hsort
  -- outside the group there are only records that were there before
  have hother : ∀ {id q}, f.put moved id = some q → q.group ≠ group → f id = some q := by
    intro id q hq hq'
    by_cases hid : id = moved.id
    · rw [hid, f.put_self] at hq
      obtain rfl := Option.some.inj hq
      exact absurd (by simp [Record.group, hmoved, hspace]) hq'
    · rwa [f.put_of_ne hid] at hq
  exact hf.keys (hother hs hne) (hother ht (hgroup ▸ hne)) hgroup hsort

/-- Nothing but the group and the placed node is touched. -/
theorem frame (h : Placed f g r group members stamp) {id : Uuid} (hid : id ≠ r.id)
    (hout : ∀ q, f id = some q → q.group ≠ group) : g id = f id := by
  have hput : f.put { r with parent := group.parent } id = f id := f.put_of_ne hid
  rw [← hput]
  exact Rekeyed.frame h (by rwa [hput])

theorem sibling (h : Placed f g r group members stamp) {id : Uuid} {q : Record π τ}
    (hid : id ≠ r.id) (hq : f id = some q) (hgroup : q.group = group) :
    ∃ sort updated, ⟨id, sort⟩ ∈ members ∧ (updated = q.updated ∨ updated = stamp) ∧
      g id = some { q with sort := sort, updated := updated } :=
  Rekeyed.member h ((f.put_of_ne (r := { r with parent := group.parent }) hid).trans hq) hgroup

theorem self (h : Placed f g r group members stamp) (hspace : r.space = group.space) :
    ∃ sort updated, ⟨r.id, sort⟩ ∈ members ∧ (updated = r.updated ∨ updated = stamp) ∧
      g r.id = some { r with parent := group.parent, sort := sort, updated := updated } := by
  obtain ⟨sort, updated, hmem, hup, hg⟩ :=
    Rekeyed.member h (f.put_self { r with parent := group.parent })
      (by simp [Record.group, hspace])
  exact ⟨sort, updated, hmem, hup, hg⟩

end Placed

/-! ## Removals -/

/-- A node has been removed with everything below it. -/
def Removed (f g : Forest π τ) (top : Uuid) : Prop :=
  ∀ id, (Within f top id → g id = none) ∧ (¬Within f top id → g id = f id)

namespace Removed

variable {f g : Forest π τ} {top : Uuid} (h : Removed f g top)
include h

theorem of_some {id : Uuid} {r : Record π τ} (hr : g id = some r) :
    ¬Within f top id ∧ f id = some r := by
  by_cases hw : Within f top id
  · rw [(h id).1 hw] at hr
    cases hr
  · exact ⟨hw, (h id).2 hw ▸ hr⟩

/-- What stays has its parent staying too. -/
theorem parent_stays {id p : Uuid} {r : Record π τ} (hr : g id = some r)
    (hp : r.parent = some p) : ¬Within f top p := by
  obtain ⟨hw, hr⟩ := h.of_some hr
  exact fun hwp => hw (hwp.of_parent hr hp)

theorem isOutline (hf : IsOutline f) : IsOutline g where
  rooted := by
    refine ⟨fun hr => hf.rooted.own_id (h.of_some hr).2, fun {id r} hr => ?_, fun {id r} hr => ?_⟩
    · refine (hf.rooted.lodged (h.of_some hr).2).congr rfl rfl rfl fun p q hp hq => ?_
      exact ⟨q, by rw [(h p).2 (h.parent_stays hr hp), hq], rfl, rfl⟩
    · obtain ⟨hw, hr⟩ := h.of_some hr
      obtain ⟨path, hpath⟩ := hf.rooted.ascent hr
      refine ⟨path, hpath.congr fun a ha q hq => ⟨q, ?_, rfl⟩⟩
      -- a node on the way up is not below the removed one, or this one would be
      rw [(h a).2 fun hwa => ?_, hq]
      obtain ⟨rest, hrest, hmem⟩ := hwa
      obtain ⟨rest', hrest', hsuf⟩ := hpath.suffix ha
      rw [hrest'.unique hrest] at hsuf
      exact hw ⟨path, hpath, hsuf.subset hmem⟩
  keys hr hq := hf.keys (h.of_some hr).2 (h.of_some hq).2

end Removed

/-! ## What holds of every record -/

namespace Forest

/-- Every stored record has a property. -/
def All (f : Forest π τ) (P : Record π τ → Prop) : Prop :=
  ∀ ⦃id r⦄, f id = some r → P r

theorem All.put {f : Forest π τ} {P : Record π τ → Prop} (h : f.All P) {q : Record π τ} (hq : P q) :
    (f.put q).All P := by
  intro id r hr
  by_cases hid : id = q.id
  · rw [hid, f.put_self] at hr
    rwa [← Option.some.inj hr]
  · rw [f.put_of_ne hid] at hr
    exact h hr

end Forest

/-- A property that a record keeps with another parent, another key and perhaps a new time. -/
def Record.Keeps (P : Record π τ → Prop) (stamp : τ) : Prop :=
  ∀ r parent sort updated, P r → updated = r.updated ∨ updated = stamp →
    P { r with parent := parent, sort := sort, updated := updated }

theorem Rekeyed.all {f g : Forest π τ} {group : Group} {members : List Sibling} {stamp : τ}
    (h : Rekeyed f g group members stamp) {P : Record π τ → Prop} (hP : Record.Keeps P stamp)
    (hf : f.All P) : g.All P := by
  intro id q hq
  by_cases hin : ∃ r, f id = some r ∧ r.group = group
  · obtain ⟨r, hr, hgroup⟩ := hin
    obtain ⟨sort, updated, -, hup, hg⟩ := h.member hr hgroup
    rw [hq] at hg
    rw [Option.some.inj hg]
    exact hP r r.parent sort updated (hf hr) hup
  · rw [h.frame fun r hr hgroup => hin ⟨r, hr, hgroup⟩] at hq
    exact hf hq

theorem Placed.all {f g : Forest π τ} {r : Record π τ} {group : Group} {members : List Sibling}
    {stamp : τ} (h : Placed f g r group members stamp) {P : Record π τ → Prop}
    (hP : Record.Keeps P stamp) (hf : f.All P) (hr : P r) : g.All P :=
  Rekeyed.all h hP (hf.put (hP r group.parent r.sort r.updated hr (.inl rfl)))

theorem Removed.all {f g : Forest π τ} {top : Uuid} (h : Removed f g top) {P : Record π τ → Prop}
    (hf : f.All P) : g.All P :=
  fun _ _ hr => hf (h.of_some hr).2

/-! ## What a call does -/

/-- A call leaves the forest alone or makes one of the changes, with what was checked for it. -/
inductive Evolves (f g : Forest π τ) : Prop
  | same : g = f → Evolves f g
  | payload {r q : Record π τ} : f q.id = some r → q.shape = r.shape → q.sort = r.sort →
      g = f.put q → Evolves f g
  | placed {r : Record π τ} {group : Group} {members : List Sibling} {stamp : τ} :
      Placed f g r group members stamp → r.space = group.space →
      Lodged f { r with parent := group.parent } →
      (∀ p, group.parent = some p → ¬Within f r.id p) →
      (∀ old, f r.id = some old → old.space = r.space ∧ old.kind = r.kind) → Evolves f g
  | rekeyed {group : Group} {members : List Sibling} {stamp : τ} :
      Rekeyed f g group members stamp → Evolves f g
  | removed {top : Uuid} : Removed f g top → Evolves f g

namespace Evolves

variable {f g : Forest π τ} {r : Record π τ} {group : Group} {members : List Sibling} {stamp : τ}

/-- A stored record may be placed under a suitable parent that it is not above. -/
theorem moved (h : Placed f g r group members stamp) (hr : f r.id = some r)
    (hspace : r.space = group.space) (hlodged : Lodged f { r with parent := group.parent })
    (hclear : ∀ p, group.parent = some p → ¬Within f r.id p) : Evolves f g := by
  refine .placed h hspace hlodged hclear fun old hold => ?_
  rw [hr] at hold
  rw [Option.some.inj hold]
  exact ⟨rfl, rfl⟩

/-- A new record may be placed under any suitable parent: nothing stands below it yet. -/
theorem created (h : Placed f g r group members stamp) (hnew : f r.id = none)
    (hspace : r.space = group.space) (hlodged : Lodged f { r with parent := group.parent }) :
    Evolves f g := by
  refine .placed h hspace hlodged (fun p _ hw => ?_) fun old hold => ?_
  -- what is above something is stored
  · obtain ⟨path, hpath, hmem⟩ := hw
    obtain ⟨q, hq⟩ := hpath.stored hmem
    rw [hnew] at hq
    cases hq
  · rw [hnew] at hold
    cases hold

end Evolves

theorem Evolves.isOutline {f g : Forest π τ} (h : Evolves f g) (hf : IsOutline f) :
    IsOutline g := by
  cases h with
  | same heq => exact heq ▸ hf
  | payload hr hshape hsort heq => exact heq ▸ hf.put_payload hr hshape hsort
  | placed hplaced hspace hlodged hclear hsame =>
    exact hplaced.isOutline hf hspace hlodged hclear hsame
  | rekeyed hrekeyed => exact hrekeyed.isOutline hf
  | removed hremoved => exact hremoved.isOutline hf

end Outline
