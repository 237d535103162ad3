import Outline.Proofs.Arrangement.Basic
import Outline.Proofs.Exhaustion

/-!
# The store in memory follows an arrangement

Each call that names no key does to the store what it does to an arrangement that the store refines.
A call that an arrangement accepts can fail in the store only for want of keys: the checks of the
store ask for no more, since stored nodes pass the check of their records.

Main results:

* `Shelf.serve_follows` — one call;
* `Shelf.ids_list` — what is listed.
-/

namespace Outline

namespace Shelf

variable {s : Shelf} {a : Arrangement} {now : Timestamp}

/-! ## Placing a node -/

theorem insert_follows (h : s.Sound) (ha : Refines s.forest a) (n : Node) :
    Follows forest (a.step .space (.createLast n)) (s.insert n .last now) := by
  have hplace : a.suits ⟨n.space, n.kind, n.parent⟩ = true ↔ Lodged s.forest n.record :=
    ha.suits_iff n.record
  refine .of_cases (fun m s' hs => ?_) fun e a' hnext hs => ?_
  · obtain ⟨hcheck, hn, hl⟩ := of_insert h.agrees hs
    have haccepted : n.check.isOk ∧ a.spots[n.id]? = none ∧
        a.suits ⟨n.space, n.kind, n.parent⟩ :=
      ⟨by rw [hcheck]; rfl, ha.spots_none_iff.2 hn, hplace.2 hl⟩
    refine ⟨_, if_pos haccepted, ?_⟩
    exact ha.put (insert_last_positioned h hs) fun members _ => by simp [Target.cut]
  · obtain ⟨hcheck, hn, hl⟩ := (Option.ite_none_right_eq_some.1 hnext).1
    obtain ⟨u, hcheck⟩ := exists_eq_ok_of_isOk hcheck
    exact (insert_overflows h hcheck (ha.spots_none_iff.1 hn) (hplace.1 hl) hs).isExhausted

/-- A move to a place in a group, next to an anchor of the group if there is one. -/
theorem relocate_follows (h : s.Sound) (ha : Refines s.forest a) {id : Uuid}
    {r : Record Node.Payload Timestamp} (hr : s.forest id = some r) {parent : Option Uuid}
    {find : Space → Except StoreError (Option Uuid)} (hfind : find (s.space r.space) = .ok parent)
    {target : Target} {enter : List Uuid → List Uuid}
    (henter : ∀ members : List Sibling,
      (∀ anchor side, target = .beside anchor side → anchor ∈ members.map (·.id)) →
        (target.cut members).1.map (·.id) ++ id :: (target.cut members).2.map (·.id) =
          enter (members.map (·.id)))
    (hanchor : ∀ anchor side, target = .beside anchor side →
      anchor ≠ id ∧ ∃ q, s.forest anchor = some q ∧ q.group = ⟨r.space, parent⟩) :
    Follows forest (a.move id (r.spot.under parent) enter) (s.relocate id find target now) := by
  have ho := h.outline.rooted
  have hid : r.id = id := ho.own_id hr
  subst hid
  refine .of_cases (fun m s' hs => ?_) fun e a' hnext hs => ?_
  -- what the store has checked, and where the node is then
  · obtain ⟨r', parent', p, hr', hfind', hl, hclear, -⟩ := of_relocate h.agrees ho hs
    obtain ⟨r'', parent'', hr'', hfind'', hpos⟩ := relocate_positioned h hs
    obtain rfl : r = r' := Option.some.inj (hr.symm.trans hr')
    obtain rfl : r = r'' := Option.some.inj (hr.symm.trans hr'')
    obtain rfl : parent = parent' := Except.ok.inj (hfind.symm.trans hfind')
    obtain rfl : parent = parent'' := Except.ok.inj (hfind.symm.trans hfind'')
    exact ⟨_, (ha.move_eq_some_iff ho hr parent enter).2 ⟨hl, hclear, rfl⟩, ha.put hpos henter⟩
  -- the arrangement takes the move, so only keys are left to fail
  · obtain ⟨hl, hclear, -⟩ := (ha.move_eq_some_iff ho hr parent enter).1 hnext
    exact (relocate_overflows h hr hfind hl hclear hanchor hs).isExhausted

theorem moveLast_follows (h : s.Sound) (ha : Refines s.forest a) (id : Uuid)
    (parent : Option Uuid) :
    Follows forest (a.step .space (.moveLast id parent))
      (s.relocate id (fun _ => .ok parent) .last now) := by
  rw [Arrangement.step]
  cases hr : s.forest id with
  | none =>
    rw [ha.spots_none_iff.2 hr, relocate_none h.agrees hr]
    exact .inl rfl
  | some r =>
    rw [ha.spots_some hr]
    exact relocate_follows h ha hr rfl (fun members _ => by simp [Target.cut])
      fun _ _ htarget => by cases htarget

theorem moveBeside_follows (h : s.Sound) (ha : Refines s.forest a) (id anchor : Uuid)
    (side : Side) :
    Follows forest (a.step .space (.moveBeside id anchor side))
      (s.moveBeside id anchor side now) := by
  rw [Arrangement.step, moveBeside]
  -- both refuse a node beside itself, then one that is not stored, then an anchor elsewhere
  by_cases hself : anchor = id
  · rw [if_pos hself]
    refine .inl ?_
    cases a.spots[id]? <;> cases a.spots[anchor]? <;> simp [hself]
  rw [if_neg hself]
  cases hr : s.forest id with
  | none =>
    rw [ha.spots_none_iff.2 hr, relocate_none h.agrees hr]
    exact .inl rfl
  | some r =>
    obtain ⟨n, -, -, rfl⟩ := exists_node h.agrees hr
    -- an anchor in another space is none
    have hmissing : s.Outside n.space anchor →
        s.relocate id (fun space => (space.get anchor).map (·.parent)) (.beside anchor side) now =
          .error (.notFound anchor) := by
      intro hout
      refine relocate_unfound h.agrees hr ?_
      rw [space_get_eq_error h.agrees hout]
      rfl
    rw [ha.spots_some hr]
    cases hq : s.forest anchor with
    | none =>
      rw [ha.spots_none_iff.2 hq, hmissing (outside_of_none hq)]
      exact .inl rfl
    | some q =>
      obtain ⟨b, -, -, rfl⟩ := exists_node h.agrees hq
      rw [ha.spots_some hq]
      show Follows forest (if anchor ≠ id ∧ b.space = n.space then _ else none) _
      by_cases hspace : b.space = n.space
      · rw [if_pos ⟨hself, hspace⟩]
        have hfind : ((s.space n.space).get anchor).map (·.parent) = .ok b.parent := by
          rw [← hspace, space_get_of_forest h.agrees hq]
          rfl
        refine relocate_follows h ha hr hfind
          (fun members hmem => Arrangement.ids_cut_beside (hmem anchor side rfl))
          fun anchor' side' htarget => ?_
        cases htarget
        refine ⟨hself, b.record, hq, ?_⟩
        show (⟨b.space, b.parent⟩ : Group) = ⟨n.space, b.parent⟩
        rw [hspace]
      · rw [if_neg fun hboth => hspace hboth.2, hmissing (outside_of_space hq hspace)]
        exact .inl rfl

/-! ## The other calls -/

theorem update_follows (h : s.Sound) (hp : s.Proper) (ha : Refines s.forest a) (id : Uuid)
    (patch : Patch) :
    Follows forest (a.step .space (.update id patch)) (s.update id patch now) := by
  refine .of_cases (fun m s' hs => ?_) fun e a' hnext hs => ?_
  · obtain ⟨n, hn, hcheck⟩ := of_update h.agrees hs
    obtain ⟨t, ht, -, -, hput⟩ := update_eq now h.agrees hn hcheck
    rw [hs] at ht
    cases ht
    obtain rfl : n.id = id := (h.agrees.space _).own_id hn
    have hr := forest_of_node h.agrees hn
    refine ⟨a, if_pos ⟨ha.spots_isSome_iff.2 ⟨_, hr⟩, Node.isObject_of_check hcheck⟩, ?_⟩
    rw [hput]
    exact ha.put_payload (q := (n.patch patch now).record) hr rfl rfl
  · obtain ⟨hstored, hobject⟩ := (Option.ite_none_right_eq_some.1 hnext).1
    obtain ⟨r, hr⟩ := ha.spots_isSome_iff.1 hstored
    obtain ⟨answered, heq⟩ := update_accepted h hp hr hobject now
    cases hs.symm.trans heq

theorem delete_follows (h : s.Sound) (ha : Refines s.forest a) (space id : Uuid) :
    Follows forest (a.step .space (.delete space id)) (s.delete space id) := by
  rw [Arrangement.step]
  cases hr : s.forest id with
  | none =>
    rw [ha.spots_none_iff.2 hr, delete_refused h.agrees (outside_of_none hr)]
    exact .inl rfl
  | some r =>
    obtain ⟨n, -, -, rfl⟩ := exists_node h.agrees hr
    obtain rfl : n.id = id := h.outline.rooted.own_id hr
    rw [ha.spots_some hr]
    show Follows forest (if n.space = space then _ else none) _
    by_cases hspace : n.space = space
    · subst hspace
      obtain ⟨heq, -, hremoved⟩ := delete_eq h.agrees h.outline.rooted hr
      rw [if_pos rfl, heq]
      exact ⟨_, rfl, ha.removed h.outline.rooted hr hremoved⟩
    · rw [if_neg hspace, delete_refused h.agrees (outside_of_space hr hspace)]
      exact .inl rfl

theorem renumber_follows (h : s.Sound) (ha : Refines s.forest a) (group : Group) :
    Follows forest (a.step .space (.renumber group)) (s.renumber group now) := by
  have hlist := isListing_siblings h.agrees group
  refine .of_cases (fun ns s' hs => ?_) fun e a' hnext hs => ?_
  · obtain ⟨parent, members, hparent, hm⟩ := of_renumber hs
    obtain ⟨t, ht, -, -, hrekeyed⟩ := renumber_eq now h.agrees hparent hm
    rw [hs] at ht
    cases ht
    have hreaches := ha.reaches_space_iff.2
      ((exists_getParent_iff h.agrees group).1 ⟨parent, hparent⟩)
    refine ⟨a, if_pos hreaches, ha.rekeyed hrekeyed ?_⟩
    rw [(Gap.compact_eq_ok hlist.ascending hm).1, ha.order_eq hlist]
  · have hreaches := ha.reaches_space_iff.1 (Option.ite_none_right_eq_some.1 hnext).1
    exact (renumber_overflows h hreaches hs).isExhausted

/-- One call does what it does to an arrangement. -/
theorem serve_follows (h : s.Sound) (hp : s.Proper) (ha : Refines s.forest a) {c : StoreCall}
    (hc : c.isKeyless = true) : Follows forest (a.step .space c) (store.serve c now s) := by
  cases c with
  | createLast n => exact insert_follows h ha n
  | update id patch => exact update_follows h hp ha id patch
  | delete space id => exact delete_follows h ha space id
  | moveLast id parent => exact moveLast_follows h ha id parent
  | moveBeside id anchor side => exact moveBeside_follows h ha id anchor side
  | renumber group => exact renumber_follows h ha group
  | get | create | list | nextSort | moveAt | reorder => cases hc

/-- Groups are listed as bare lists. -/
theorem ids_list (h : s.Sound) (ha : Refines s.forest a) (group : Group) :
    ((s.list group).toOption.map fun ns => ns.map (·.id)) = a.list group := by
  have hmembers := isListing_siblings h.agrees group
  unfold Arrangement.list
  split
  · next hreaches =>
    obtain ⟨parent, hparent⟩ :=
      (exists_getParent_iff h.agrees group).2 (ha.reaches_space_iff.1 hreaches)
    rw [list_eq hparent, ha.order_eq hmembers, ← Space.map_sibling_children (h.agrees.space _),
      List.map_map]
    rfl
  · next hreaches =>
    cases hs : s.list group with
    | error e => rfl
    | ok ns =>
      obtain ⟨parent, hparent, -⟩ := bind_eq_ok_iff.1 hs
      have hstored := (exists_getParent_iff h.agrees group).1 ⟨parent, hparent⟩
      exact absurd (ha.reaches_space_iff.2 hstored) hreaches

end Shelf

end Outline
