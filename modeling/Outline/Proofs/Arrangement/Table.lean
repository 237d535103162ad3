import Outline.Proofs.Arrangement.Basic
import Outline.Proofs.Exhaustion

/-!
# The table follows an arrangement

As long as its rows can be read, and are few enough to find room for parking them, a table follows
an arrangement as the store in memory does. It looks for the parent of a group in all spaces when it
renumbers the group; a group that it finds this way outside the space of its parent is empty.

Main results:

* `Database.serve_follows` — one call;
* `Database.ids_list` — what is listed.
-/

namespace Outline

namespace Database

variable {db : Database} {a : Arrangement} {now : Timestamp}

/-- The forest that the rows of a database show. -/
def forest (db : Database) : Forest Row.Payload String := db.rows.forest

section Follow

variable (h : db.Sound) (ha : Refines db.forest a)
include h ha

theorem createLast_follows (hr : db.rows.Readable) (hroom : db.rows.Roomy) (n : Node) :
    Follows forest (a.step .everywhere (.createLast n))
      (db.writing (db.rows.createLast db.gap n now)) := by
  have hh := h.holds
  have hk : KeysDistinct db.rows.forest := h.outline.keys
  have hplace : a.suits ⟨n.space, n.kind, n.parent⟩ = true ↔ Lodged db.rows.forest n.line :=
    ha.suits_iff n.line
  refine .of_cases (fun m db' hs => ?_) fun e a' hnext hs => ?_
  · obtain ⟨hs, -⟩ := of_writing hs
    obtain ⟨u, hcheck, -⟩ := bind_eq_ok_iff.1 hs
    obtain ⟨-, -, -, hlodged, hn, -⟩ := hh.of_createLast hk hs
    -- what the table has accepted the arrangement accepts
    have haccepted : n.check.isOk ∧ a.spots[n.id]? = none ∧
        a.suits ⟨n.space, n.kind, n.parent⟩ :=
      ⟨by rw [(hh.of_checkNew hcheck).1]; rfl, ha.spots_none_iff.2 hn, hplace.2 hlodged⟩
    refine ⟨_, if_pos haccepted, ?_⟩
    exact ha.put (hh.createLast_positioned h.outline hs) fun members _ => by simp [Target.cut]
  · obtain ⟨hcheck, hn, hl⟩ := (Option.ite_none_right_eq_some.1 hnext).1
    -- what the arrangement accepts the table can refuse for want of keys only
    obtain ⟨u, hcheck⟩ := exists_eq_ok_of_isOk hcheck
    cases hcreate : db.rows.createLast db.gap n now with
    | ok created =>
      rw [hcreate] at hs
      cases hs
    | error e' =>
      rw [hcreate] at hs
      cases hs
      exact (hh.createLast_overflows h.outline hr hroom hcheck (ha.spots_none_iff.1 hn)
        (hplace.1 hl) hcreate).isExhausted

section Move

variable (hr : db.rows.Readable) (hroom : db.rows.Roomy) (hyear : now.HasPlainYear)
include hr hroom hyear

/-- A move to a place in a group, next to an anchor of the group if there is one. -/
theorem relocate_follows {id : Uuid} {l : Line} (hl : db.forest id = some l)
    {parent : Option Uuid} {target : Target} {enter : List Uuid → List Uuid}
    (henter : ∀ members : List Sibling,
      (∀ anchor side, target = .beside anchor side → anchor ∈ members.map (·.id)) →
        (target.cut members).1.map (·.id) ++ id :: (target.cut members).2.map (·.id) =
          enter (members.map (·.id)))
    (hanchor : ∀ anchor side, target = .beside anchor side →
      anchor ≠ id ∧ ∃ q, db.forest anchor = some q ∧ q.group = ⟨l.space, parent⟩) :
    Follows forest (a.move id (l.spot.under parent) enter)
      (db.writing (db.rows.relocate db.gap id parent target now)) := by
  have hh := h.holds
  have ho := h.outline
  have hid : l.id = id := ho.rooted.own_id hl
  subst hid
  refine .of_cases (fun m db' hs => ?_) fun e a' hnext hs => ?_
  -- what the table has checked, and where the node is then
  · obtain ⟨hs, -⟩ := of_writing hs
    obtain ⟨l', p, hl', hlodged, hclear, -⟩ := hh.of_relocate ho hs
    obtain ⟨l'', hl'', hpos⟩ := hh.relocate_positioned ho hs
    obtain rfl : l = l' := Option.some.inj (hl.symm.trans hl')
    obtain rfl : l = l'' := Option.some.inj (hl.symm.trans hl'')
    exact ⟨_, (ha.move_eq_some_iff ho.rooted hl parent enter).2 ⟨hlodged, hclear, rfl⟩,
      ha.put hpos henter⟩
  -- the arrangement takes the move, so only keys are left to fail
  · obtain ⟨hlodged, hclear, -⟩ := (ha.move_eq_some_iff ho.rooted hl parent enter).1 hnext
    cases hrel : db.rows.relocate db.gap l.id parent target now with
    | ok answered =>
      rw [hrel] at hs
      cases hs
    | error e' =>
      rw [hrel] at hs
      cases hs
      exact (hh.relocate_overflows ho hr hroom hyear hl hlodged hclear hanchor hrel).isExhausted

theorem moveLast_follows (id : Uuid) (parent : Option Uuid) :
    Follows forest (a.step .everywhere (.moveLast id parent))
      (db.writing (db.rows.relocate db.gap id parent .last now)) := by
  rw [Arrangement.step]
  cases hl : db.forest id with
  | none =>
    have hrefused : db.rows.relocate db.gap id parent .last now = .error (.notFound id) := by
      rw [Table.relocate, h.holds.fetch_none hl, bind_error]
    rw [ha.spots_none_iff.2 hl, hrefused]
    exact .inl rfl
  | some l =>
    rw [ha.spots_some hl]
    exact relocate_follows h ha hr hroom hyear hl (fun members _ => by simp [Target.cut])
      fun _ _ htarget => by cases htarget

theorem moveBeside_follows (id anchor : Uuid) (side : Side) :
    Follows forest (a.step .everywhere (.moveBeside id anchor side))
      (db.writing (db.rows.moveBeside db.gap id anchor side now)) := by
  have hh := h.holds
  rw [Arrangement.step, Table.moveBeside]
  -- both refuse a node beside itself, then one that is not stored, then an anchor elsewhere
  by_cases hself : anchor = id
  · rw [if_pos hself]
    refine .inl ?_
    cases a.spots[id]? <;> cases a.spots[anchor]? <;> simp [hself]
  rw [if_neg hself]
  cases hl : db.forest id with
  | none =>
    rw [ha.spots_none_iff.2 hl, hh.fetch_none hl]
    exact .inl rfl
  | some l =>
    obtain ⟨n, hn, hnode⟩ := hh.exists_fetch hr hl
    rw [ha.spots_some hl, hn]
    cases hq : db.forest anchor with
    | none =>
      rw [ha.spots_none_iff.2 hq, hh.fetch_none hq]
      exact .inl rfl
    | some q =>
      obtain ⟨b, hb, hbnode⟩ := hh.exists_fetch hr hq
      obtain ⟨-, hns, -⟩ := Row.toNode_row_eq_ok_iff.1 hnode
      obtain ⟨-, hbs, -, hbparent, -⟩ := Row.toNode_row_eq_ok_iff.1 hbnode
      rw [ha.spots_some hq, hb]
      show Follows forest (if anchor ≠ id ∧ q.space = l.space then _ else none)
        (db.writing (if b.space ≠ n.space then _ else _))
      rw [hbs, hns, hbparent]
      by_cases hspace : q.space = l.space
      · rw [if_pos ⟨hself, hspace⟩, if_neg (not_not.2 hspace)]
        refine relocate_follows h ha hr hroom hyear hl
          (fun members hmem => Arrangement.ids_cut_beside (hmem anchor side rfl))
          fun anchor' side' htarget => ?_
        cases htarget
        have hgroup : q.group = ⟨l.space, q.parent⟩ := by rw [Record.group, hspace]
        exact ⟨hself, q, hq, hgroup⟩
      · rw [if_neg fun hboth => hspace hboth.2, if_pos hspace]
        exact .inl rfl

end Move

/-! ## The other calls -/

theorem update_follows (hp : db.Proper) (hr : db.rows.Readable) (id : Uuid) (patch : Patch) :
    Follows forest (a.step .everywhere (.update id patch))
      (db.writing (db.rows.updateNode id patch now)) := by
  have hh := h.holds
  refine .of_cases (fun m db' hs => ?_) fun e a' hnext hs => ?_
  · obtain ⟨l, n, hl, hnode, rfl, hcheck, hh'⟩ := hh.of_updateNode (of_writing hs).1
    have hl' : db.rows.forest (patchedLine (n.patch patch now) l).id = some l := by
      rw [← hl]
      exact congrArg _ (hh.line hl).1
    refine ⟨a, if_pos ⟨ha.spots_isSome_iff.2 ⟨l, hl⟩, Node.isObject_of_check hcheck⟩, ?_⟩
    rw [forest, hh'.forest_eq]
    exact ha.put_payload hl' rfl rfl
  · obtain ⟨hstored, hobject⟩ := (Option.ite_none_right_eq_some.1 hnext).1
    obtain ⟨l, hl⟩ := ha.spots_isSome_iff.1 hstored
    obtain ⟨answered, heq⟩ := hh.update_accepted h.outline hr hp hl hobject now
    rw [heq] at hs
    cases hs

theorem delete_follows (hr : db.rows.Readable) (space id : Uuid) :
    Follows forest (a.step .everywhere (.delete space id))
      (db.writing (db.rows.deleteNode space id)) := by
  have hh := h.holds
  rw [Arrangement.step]
  cases hl : db.forest id with
  | none =>
    rw [ha.spots_none_iff.2 hl, Table.deleteNode, hh.fetch_none hl]
    exact .inl rfl
  | some l =>
    obtain ⟨n, hfetch, hnode⟩ := hh.exists_fetch hr hl
    obtain ⟨-, hspace, -⟩ := Row.toNode_row_eq_ok_iff.1 hnode
    rw [ha.spots_some hl, Table.Holds.deleteNode_eq space hfetch, hspace]
    show Follows forest (if l.space = space then _ else none) _
    by_cases hin : l.space = space
    · subst hin
      obtain ⟨g, hholds, hremoved⟩ := hh.removed_delete h.outline.rooted hl
      rw [if_pos rfl, if_neg (not_not.2 rfl)]
      refine ⟨_, rfl, ?_⟩
      show Refines (db.rows.delete id.toText l.space.toText).forest _
      rw [hholds.forest_eq]
      exact ha.removed h.outline.rooted hl hremoved
    · rw [if_neg hin, if_pos hin]
      exact .inl rfl

theorem renumber_follows (hr : db.rows.Readable) (hroom : db.rows.Roomy) (hyear : now.HasPlainYear)
    (group : Group) :
    Follows forest (a.step .everywhere (.renumber group))
      (db.writing (db.rows.renumber db.gap group now)) := by
  have hh := h.holds
  have hk : KeysDistinct db.rows.forest := h.outline.keys
  have hlist := hh.isListing_members hk group
  have hparent : (∃ pn, db.rows.fetchParent group.parent = .ok pn) ↔
      a.reaches .everywhere group = true :=
    (hh.exists_fetchParent_iff hr group.parent).trans ha.reaches_everywhere_iff.symm
  refine .of_cases (fun ns db' hs => ?_) fun e a' hnext hs => ?_
  · obtain ⟨parent, members, hfetch, hm, hholds, -, hrekeyed⟩ :=
      hh.of_renumber hk (of_writing hs).1
    refine ⟨a, if_pos (hparent.1 ⟨parent, hfetch⟩), ?_⟩
    rw [forest, hholds.forest_eq]
    exact ha.rekeyed hrekeyed
      ((Gap.compact_eq_ok hlist.ascending hm).1.trans (ha.order_eq hlist).symm)
  · have hreaches := ha.reaches_everywhere_iff.1 (Option.ite_none_right_eq_some.1 hnext).1
    cases hrenumber : db.rows.renumber db.gap group now with
    | ok renumbered =>
      rw [hrenumber] at hs
      cases hs
    | error e' =>
      rw [hrenumber] at hs
      cases hs
      exact (hh.renumber_overflows h.outline hr hroom hyear hreaches hrenumber).isExhausted

/-- One call does what it does to an arrangement. -/
theorem serve_follows (hp : db.Proper) (hr : db.rows.Readable) (hroom : db.rows.Roomy)
    (hyear : now.HasPlainYear) {c : StoreCall} (hc : c.isKeyless = true) :
    Follows forest (a.step .everywhere c) (store.serve c now db) := by
  cases c with
  | createLast n => exact createLast_follows h ha hr hroom n
  | update id patch => exact update_follows h ha hp hr id patch
  | delete space id => exact delete_follows h ha hr space id
  | moveLast id parent => exact moveLast_follows h ha hr hroom hyear id parent
  | moveBeside id anchor side => exact moveBeside_follows h ha hr hroom hyear id anchor side
  | renumber group => exact renumber_follows h ha hr hroom hyear group
  | get | create | list | nextSort | moveAt | reorder => cases hc

/-- Groups are listed as bare lists. -/
theorem ids_list (hr : db.rows.Readable) (group : Group) :
    ((db.rows.list group).toOption.map fun ns => ns.map (·.id)) = a.list group := by
  have hh := h.holds
  have hreach : a.reaches .space group = true ↔ ∀ p, group.parent = some p →
      ∃ l, db.rows.forest p = some l ∧ l.space = group.space := ha.reaches_space_iff
  unfold Arrangement.list
  split
  · next hreaches =>
    obtain ⟨ns, hns⟩ := hh.list_of_readable hr (hreach.1 hreaches)
    rw [hns, ha.order_eq (hh.isListing_of_list h.outline.keys hns), List.map_map]
    rfl
  · next hreaches =>
    cases hs : db.rows.list group with
    | error e => rfl
    | ok ns =>
      -- the parent was read, and is in the space
      obtain ⟨parent, hparent, hs⟩ := bind_eq_ok_iff.1 hs
      refine absurd (hreach.2 fun p hp => ?_) hreaches
      rw [hp] at hparent
      obtain ⟨n, hn, rfl⟩ := map_eq_ok_iff.1 hparent
      obtain ⟨hspace, -⟩ := guard_eq_ok_iff.1 hs
      obtain ⟨l, hl, hnode⟩ := hh.of_fetch hn
      obtain ⟨-, hns, -⟩ := Row.toNode_row_eq_ok_iff.1 hnode
      exact ⟨l, hl, hns.symm.trans (not_not.1 hspace)⟩

end Follow

end Database

end Outline
