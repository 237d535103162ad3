import Outline.Proofs.Agreement.Requests
import Outline.Proofs.Agreement.Runs
import Outline.Proofs.Excerpt.Indexed
import Outline.Proofs.Excerpt.Table

/-!
# States with one excerpt

Two states of a store of which the same is shown are linked, as long as nothing is named but what is
shown. The service cannot tell them apart then: a call on the one gives what the same call on the
other gives, as far as it is shown, and of the states afterwards the same is shown again.

Main results:

* `Shelf.linked_of_shown`, `Database.linked_of_shown` — states with one excerpt are linked.
-/

namespace Outline

variable {α β γ ρ σ τ : Type}

/-- Outcomes of which the same is shown. -/
theorem matched_of_shown {x : Except StoreError (α × σ)} {y : Except StoreError (β × τ)}
    {z : Except StoreError (γ × ρ)} {f : α → γ} {g : β → γ} {F : σ → ρ} {G : τ → ρ}
    (hx : z = x.map (Prod.map f F)) (hy : z = y.map (Prod.map g G)) :
    Matched (fun s t => F s = G t) (fun a b => f a = g b) x y := by
  rw [hx] at hy
  cases x with
  | error e =>
    cases y with
    | error e' =>
      cases hy
      exact .refused
    | ok b => cases hy
  | ok a =>
    cases y with
    | error e => cases hy
    | ok b =>
      have heq := Except.ok.inj hy
      exact .answered (congrArg Prod.fst heq) (congrArg Prod.snd heq)

/-- Readings of which the same is shown. -/
theorem matched_of_read {x : Except StoreError α} {y : Except StoreError β}
    {z : Except StoreError γ} {f : α → γ} {g : β → γ} (hx : z = x.map f) (hy : z = y.map g) (s : σ)
    (t : τ) :
    Matched (Still s t) (fun a b => f a = g b ∧ x = .ok a) (x.map (·, s)) (y.map (·, t)) := by
  rw [hx] at hy
  cases x with
  | error e =>
    cases y with
    | error e' =>
      cases hy
      exact .refused
    | ok b => cases hy
  | ok a =>
    cases y with
    | error e => cases hy
    | ok b => exact .answered ⟨Except.ok.inj hy, rfl⟩ ⟨rfl, rfl⟩

theorem forall₂_of_map_eq {f : α → γ} {g : β → γ} {xs : List α} {ys : List β}
    (h : xs.map f = ys.map g) : List.Forall₂ (fun a b => f a = g b) xs ys := by
  have heq : List.Forall₂ (· = ·) (xs.map f) (ys.map g) := by
    rw [h]
    exact List.forall₂_refl _
  exact List.forall₂_map_right_iff.1 (List.forall₂_map_left_iff.1 heq)

namespace Excerpt

variable {π : Type}

/-- Nothing may be named but what is shown, and everything that is shown. -/
structure Fits (e : Excerpt) (f : Forest π τ) (near opened : Uuid → Prop) : Prop where
  sees  : ∀ {sp}, opened sp → e.sees sp = true
  reach : ∀ {id}, near id → e.Near f id
  home  : ∀ {id r}, f id = some r → e.sees r.space = true → near id ∧ opened r.space

/-- A node that may be named is surrounded by what may be named. -/
theorem Fits.around {e : Excerpt} {f : Forest π τ} {near opened : Uuid → Prop}
    (h : e.Fits f near opened) (ho : Rooted f) {id : Uuid} (hid : near id) {r : Record π τ}
    (hr : f id = some r) : near r.id ∧ opened r.space ∧ ∀ p, r.parent = some p → near p := by
  have hsees := h.reach hid r hr
  obtain ⟨hnear, hopened⟩ := h.home hr hsees
  refine ⟨ho.own_id hr ▸ hnear, hopened, fun p hp => ?_⟩
  obtain ⟨q, hq, hspace, -⟩ := (ho.lodged hr).exists_parent hp
  exact (h.home hq (hspace ▸ hsees)).1

end Excerpt

open Excerpt

variable {e : Excerpt} {near opened : Uuid → Prop}

/-! ## In memory -/

section Shelf

variable {s s' : Shelf}

/-- A listing has members of the group only. -/
theorem Shelf.forest_of_list (h : s.Agrees) {group : Group} {ns : List Node}
    (hns : s.list group = .ok ns) {n : Node} (hn : n ∈ ns) :
    s.forest n.id = some n.record ∧ n.space = group.space := by
  obtain ⟨parent, -, hchildren⟩ := bind_eq_ok_iff.1 hns
  rw [← Except.ok.inj hchildren, Space.mem_children (h.space _)] at hn
  exact ⟨forest_of_node h hn.1, (h.space _).own_space hn.1⟩

theorem Shelf.linked_of_shown (hs : s.Sound) (hs' : s'.Sound) (hfit : e.Fits s.forest near opened)
    (hfit' : e.Fits s'.forest near opened) (heq : e.shelf s = e.shelf s') (now now' : Timestamp) :
    Linked Shelf.store Shelf.store now now' (fun s s' => e.shelf s = e.shelf s')
      (fun n m => e.node n = e.node m) near opened s s' where
  related := heq
  place := e.place_of_node_eq
  around hn := hfit.around hs.outline.rooted hn.1 (Shelf.forest_of_got hs.agrees hn)
  gets {id} hid := by
    have hget := shelf_get hs.agrees (hfit.reach hid)
    rw [heq] at hget
    exact (matched_of_read hget (shelf_get hs'.agrees (hfit'.reach hid)) s s').mono
      (fun _ _ hst => hst) fun _ _ hnm => hnm.1
  lists {group} hsp hparent := by
    have hsees := hfit.sees hsp
    have hlist := shelf_list (s := s) hsees
    rw [heq] at hlist
    refine (matched_of_read hlist (shelf_list hsees) s s').mono (fun _ _ hst => hst)
      fun ns ms ⟨hnms, hns⟩ => ?_
    -- members of the group are in its space, so they may be named from now on
    have hlisted : ∀ n ∈ ns, near n.id := fun n hn => by
      obtain ⟨hr, hspace⟩ := Shelf.forest_of_list hs.agrees hns hn
      exact (hfit.home hr (show e.sees n.space = true by rw [hspace, hsees])).1
    exact ((List.forall₂_and_left _ _).2 ⟨hlisted, forall₂_of_map_eq hnms⟩).imp fun _ _ h => h.symm
  writes {c} hc := by
    have ha := hs.agrees
    have ha' := hs'.agrees
    -- three of the moves are one relocation that finds the parent in different ways
    have hrelocate : ∀ {id : Uuid} (find : Space → Except StoreError (Option Uuid))
        (target : Target), near id → (∀ space, find (e.space space) = find space) →
        Matched (fun s s' => e.shelf s = e.shelf s') (fun n m => e.node n = e.node m)
          (s.relocate id find target now) (s'.relocate id find target now') := by
      intro id find target hid hfind
      have hmoved := shelf_relocate ha (hfit.reach hid) hfind target now
      rw [heq] at hmoved
      exact matched_of_shown hmoved (shelf_relocate ha' (hfit'.reach hid) hfind target now')
    cases hc with
    | @delete id n hn =>
      have hsees := hfit.sees (hfit.around hs.outline.rooted hn.1 (Shelf.forest_of_got ha hn)).2.1
      have hdeleted := shelf_delete (s := s) hsees id
      rw [Node.record_space, heq] at hdeleted
      exact matched_of_shown hdeleted (shelf_delete hsees id)
    | @moveLast id parent n hn hparent =>
      exact hrelocate (fun _ => .ok parent) .last hn.1 fun _ => rfl
    | @moveAt id parent sort n hn hparent =>
      exact hrelocate (fun _ => .ok parent) (.at sort) hn.1 fun _ => rfl
    | @reorder id sort n hn =>
      exact hrelocate (fun space => (space.get id).map (·.parent)) (.at sort) hn.1
        (space_get_parent id)
    | @moveBeside id anchor side n a hn _ _ =>
      have hmoved := shelf_moveBeside ha (hfit.reach hn.1) anchor side now
      rw [heq] at hmoved
      exact matched_of_shown hmoved (shelf_moveBeside ha' (hfit'.reach hn.1) anchor side now')
    | @renumber group hsp hparent =>
      have hrenumbered := shelf_renumber (s := s) (hfit.sees hsp) now
      rw [heq] at hrenumbered
      exact (matched_of_shown hrenumbered (shelf_renumber (hfit.sees hsp) now')).mono
        (fun _ _ hst => hst) fun _ _ hlist => forall₂_of_map_eq hlist

/-- New nodes of which the same is shown are created alike. -/
theorem Shelf.createLast_of_shown (ha : s.Agrees) (ha' : s'.Agrees) (heq : e.shelf s = e.shelf s')
    {n n' : Node} (hid : e.Near s.forest n.id) (hid' : e.Near s'.forest n'.id)
    (hsp : e.sees n.space = true) (hn : e.node n = e.node n')
    (hcheck : (e.node n).check = n.check) (hcheck' : (e.node n').check = n'.check)
    (now now' : Timestamp) :
    Matched (fun s s' => e.shelf s = e.shelf s') (fun n m => e.node n = e.node m)
      (Shelf.store.serve (.createLast n) now s) (Shelf.store.serve (.createLast n') now' s') := by
  have hsp' : e.sees n'.space = true := by rw [(e.place_of_node_eq hn).2.1, hsp]
  have hcreated := shelf_insert ha hid hsp hcheck .last now
  rw [heq, hn] at hcreated
  exact matched_of_shown hcreated (shelf_insert ha' hid' hsp' hcheck' .last now')

/-- Where payload is shown, a patch changes what is shown alike. -/
theorem Shelf.update_of_shown (he : e.payload = true) (ha : s.Agrees) (ha' : s'.Agrees)
    (heq : e.shelf s = e.shelf s') {id : Uuid} (hid : e.Near s.forest id)
    (hid' : e.Near s'.forest id) (patch : Patch) (now now' : Timestamp) :
    Matched (fun s s' => e.shelf s = e.shelf s') (fun n m => e.node n = e.node m)
      (Shelf.store.serve (.update id patch) now s)
      (Shelf.store.serve (.update id patch) now' s') := by
  have hupdated := shelf_update ha he hid patch now
  rw [heq] at hupdated
  exact matched_of_shown hupdated (shelf_update ha' he hid' patch now')

end Shelf

/-! ## In the table -/

section Database

variable {db db' : Database}

theorem Database.fetch_of_served {now : Timestamp} {id : Uuid} {n : Node}
    (hn : store.serve (.get id) now db = .ok (n, db)) : db.rows.fetch id = .ok n := by
  obtain ⟨m, hm, heq⟩ := map_eq_ok_iff.1
    (show (db.rows.fetch id).map (·, db) = .ok (n, db) from hn)
  obtain rfl : m = n := congrArg Prod.fst heq
  exact hm

/-- A listing has members of the group only. -/
theorem Table.Holds.forest_of_list {t : Table} {f : Forest Row.Payload String} (h : t.Holds f)
    {group : Group} {ns : List Node} (hns : t.list group = .ok ns) {n : Node} (hn : n ∈ ns) :
    ∃ l, f n.id = some l ∧ l.space = group.space ∧ l.row.toNode = .ok n := by
  obtain ⟨r, hr, hread⟩ := exists_of_mem_mapM (fetchChildren_of_list hns) hn
  obtain ⟨l, hl, hgroup, rfl⟩ := h.mem_select_iff.1 hr
  have hnode : l.row.toNode = .ok n := mapError_eq_ok_iff.1 hread
  obtain ⟨hid, -⟩ := Row.toNode_row_eq_ok_iff.1 hnode
  exact ⟨l, hid ▸ hl, congrArg Group.space hgroup, hnode⟩

/-- Writing is shown when the rows that are written are. -/
theorem Excerpt.database_writing {x : Except StoreError (α × Table)}
    {z : Except StoreError (β × Table)} {g : α → β} (hz : z = x.map (Prod.map g e.table)) :
    (e.database db).writing z = (db.writing x).map (Prod.map g e.database) := by
  rw [hz]
  cases x <;> rfl

section Writing

variable (heq : e.database db = e.database db')
include heq

/-- Writings of which the same is shown. -/
theorem Database.matched_of_writing {g : α → γ} {h : β → γ} {x : Except StoreError (α × Table)}
    {y : Except StoreError (β × Table)} {z : Except StoreError (γ × Table)}
    (hx : z = x.map (Prod.map g e.table)) (hy : z = y.map (Prod.map h e.table)) :
    Matched (fun db db' => e.database db = e.database db') (fun a b => g a = h b) (db.writing x)
      (db'.writing y) := by
  refine matched_of_shown (database_writing hx) ?_
  rw [heq]
  exact database_writing hy

/-- New nodes of which the same is shown are created alike. -/
theorem Database.createLast_of_shown (hdb : db.Sound) (hdb' : db'.Sound)
    (hreads : ∀ r ∈ db.rows, e.Reads r) (hreads' : ∀ r ∈ db'.rows, e.Reads r) {n n' : Node}
    (hid : e.Near db.rows.forest n.id) (hid' : e.Near db'.rows.forest n'.id)
    (hparent : ∀ p, n.parent = some p → e.Near db.rows.forest p ∧ e.Near db'.rows.forest p)
    (hsp : e.sees n.space = true) (hn : e.node n = e.node n')
    (hcheck : (e.node n).check = n.check) (hcheck' : (e.node n').check = n'.check)
    (now now' : Timestamp) :
    Matched (fun db db' => e.database db = e.database db') (fun n m => e.node n = e.node m)
      (Database.store.serve (.createLast n) now db)
      (Database.store.serve (.createLast n') now' db') := by
  obtain ⟨gap, t⟩ := db
  obtain ⟨gap', t'⟩ := db'
  obtain rfl : gap = gap' := congrArg Database.gap heq
  obtain ⟨-, hspace, -, hparents⟩ := e.place_of_node_eq hn
  have hsp' : e.sees n'.space = true := by rw [hspace, hsp]
  have hcreated := createLast_table hdb.holds hreads hdb.outline.keys hsp hid
    (fun p hp => (hparent p hp).1) hcheck gap now
  rw [show e.table t = e.table t' from congrArg Database.rows heq, hn] at hcreated
  exact matched_of_writing heq hcreated (createLast_table hdb'.holds hreads' hdb'.outline.keys hsp'
    hid' (fun p hp => (hparent p (hparents ▸ hp)).2) hcheck' gap now')

/-- Where payload is shown, a patch changes what is shown alike. -/
theorem Database.update_of_shown (he : e.payload = true) (hdb : db.Sound) (hdb' : db'.Sound)
    (hreads : ∀ r ∈ db.rows, e.Reads r) (hreads' : ∀ r ∈ db'.rows, e.Reads r) {id : Uuid}
    (hid : e.Near db.rows.forest id) (hid' : e.Near db'.rows.forest id) (patch : Patch)
    (now now' : Timestamp) :
    Matched (fun db db' => e.database db = e.database db') (fun n m => e.node n = e.node m)
      (Database.store.serve (.update id patch) now db)
      (Database.store.serve (.update id patch) now' db') := by
  have hupdated := updateNode_table hdb.holds hreads he hid patch now
  rw [show e.table db.rows = e.table db'.rows from congrArg Database.rows heq] at hupdated
  exact matched_of_writing heq hupdated (updateNode_table hdb'.holds hreads' he hid' patch now')

end Writing

theorem Database.linked_of_shown (hdb : db.Sound) (hdb' : db'.Sound)
    (hreads : ∀ r ∈ db.rows, e.Reads r) (hreads' : ∀ r ∈ db'.rows, e.Reads r)
    (hfit : e.Fits db.rows.forest near opened) (hfit' : e.Fits db'.rows.forest near opened)
    (heq : e.database db = e.database db') {now now' : Timestamp} (hyear : now.HasPlainYear)
    (hyear' : now'.HasPlainYear) :
    Linked Database.store Database.store now now' (fun db db' => e.database db = e.database db')
      (fun n m => e.node n = e.node m) near opened db db' where
  related := heq
  place := e.place_of_node_eq
  around {id n} hn := by
    obtain ⟨l, hl, hnode⟩ := hdb.holds.of_fetch (fetch_of_served hn.2)
    obtain ⟨hid, hspace, -, hparent, -⟩ := Row.toNode_row_eq_ok_iff.1 hnode
    rw [hid, hspace, hparent]
    exact hfit.around hdb.outline.rooted hn.1 hl
  gets {id} hid := by
    have hget := fetch_table (keeps_of_forest hdb.holds (hfit.reach hid)) hreads
    have hget' := fetch_table (keeps_of_forest hdb'.holds (hfit'.reach hid)) hreads'
    rw [show e.table db.rows = e.table db'.rows from congrArg Database.rows heq] at hget
    exact (matched_of_read hget hget' db db').mono (fun _ _ hst => hst) fun _ _ hnm => hnm.1
  lists {group} hsp hparent := by
    have hsees := hfit.sees hsp
    have hlist := list_table hdb.holds hreads hsees fun p hp => hfit.reach (hparent p hp)
    have hlist' := list_table hdb'.holds hreads' hsees fun p hp => hfit'.reach (hparent p hp)
    rw [show e.table db.rows = e.table db'.rows from congrArg Database.rows heq] at hlist
    refine (matched_of_read hlist hlist' db db').mono (fun _ _ hst => hst)
      fun ns ms ⟨hnms, hns⟩ => ?_
    have hlisted : ∀ n ∈ ns, near n.id := fun n hn => by
      obtain ⟨l, hl, hspace, -⟩ := hdb.holds.forest_of_list hns hn
      exact (hfit.home hl (by rw [hspace, hsees])).1
    exact ((List.forall₂_and_left _ _).2 ⟨hlisted, forall₂_of_map_eq hnms⟩).imp fun _ _ h => h.symm
  writes {c} hc := by
    -- the gap is shown, so both stores place with the same one
    obtain ⟨gap, t⟩ := db
    obtain ⟨gap', t'⟩ := db'
    obtain rfl : gap = gap' := congrArg Database.gap heq
    have hrows : e.table t = e.table t' := congrArg Database.rows heq
    have hrelocate : ∀ {id : Uuid} {parent : Option Uuid} (target : Target), near id →
        (∀ p, parent = some p → near p) →
        Matched (fun db db' => e.database db = e.database db') (fun n m => e.node n = e.node m)
          (Database.writing ⟨gap, t⟩ (t.relocate gap id parent target now))
          (Database.writing ⟨gap, t'⟩ (t'.relocate gap id parent target now')) := by
      intro id parent target hid hparent
      have hmoved := relocate_table hdb.holds hreads hdb.outline hyear (hfit.reach hid)
        (fun p hp => hfit.reach (hparent p hp)) gap target
      have hmoved' := relocate_table hdb'.holds hreads' hdb'.outline hyear' (hfit'.reach hid)
        (fun p hp => hfit'.reach (hparent p hp)) gap target
      rw [hrows] at hmoved
      exact matched_of_writing heq hmoved hmoved'
    cases hc with
    | @delete id n hn =>
      have hfetch : t.fetch id = .ok n := fetch_of_served hn.2
      have hsees := sees_of_fetch hdb.holds (hfit.reach hn.1) hfetch
      have hdeleted :=
        deleteNode_table hdb.holds hreads hdb.outline.rooted hsees (hfit.reach hn.1)
      rw [hrows] at hdeleted
      exact matched_of_writing heq hdeleted
        (deleteNode_table hdb'.holds hreads' hdb'.outline.rooted hsees (hfit'.reach hn.1))
    | @moveLast id parent n hn hparent =>
      refine hrelocate .last hn.1 fun p hp => ?_
      obtain ⟨q, hq, -⟩ := hparent p hp
      exact hq.1
    | @moveAt id parent sort n hn hparent =>
      refine hrelocate (.at sort) hn.1 fun p hp => ?_
      obtain ⟨q, hq, -⟩ := hparent p hp
      exact hq.1
    | @reorder id sort n hn =>
      have hmoved := reorder_table hdb.holds hreads hdb.outline hyear (hfit.reach hn.1) gap sort
      rw [hrows] at hmoved
      exact matched_of_writing heq hmoved
        (reorder_table hdb'.holds hreads' hdb'.outline hyear' (hfit'.reach hn.1) gap sort)
    | @moveBeside id anchor side n a hn ha _ =>
      have hmoved := moveBeside_table hdb.holds hreads hdb.outline hyear (hfit.reach hn.1)
        (hfit.reach ha.1) gap side
      rw [hrows] at hmoved
      exact matched_of_writing heq hmoved (moveBeside_table hdb'.holds hreads' hdb'.outline hyear'
        (hfit'.reach hn.1) (hfit'.reach ha.1) gap side)
    | @renumber group hsp hparent =>
      have hparents : ∀ p, group.parent = some p → near p := fun p hp => by
        obtain ⟨q, hq, -⟩ := hparent p hp
        exact hq.1
      have hrenumbered := renumber_table hdb.holds hreads hdb.outline hyear (hfit.sees hsp)
        (fun p hp => hfit.reach (hparents p hp)) gap
      have hrenumbered' := renumber_table hdb'.holds hreads' hdb'.outline hyear' (hfit'.sees hsp)
        (fun p hp => hfit'.reach (hparents p hp)) gap
      rw [hrows] at hrenumbered
      exact (matched_of_writing heq hrenumbered hrenumbered').mono (fun _ _ hst => hst)
        fun _ _ hlist => forall₂_of_map_eq hlist

end Database

end Outline
