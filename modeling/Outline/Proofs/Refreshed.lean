import Outline.Proofs.Renumbering

/-!
# Which times are refreshed

A call that gives keys stamps records with its time. The store in memory stamps the node that is
moved and every member that gets another key; a member whose key a respreading leaves as it was
keeps its record. The table compares nothing: it writes and stamps every row of a group that is
respread, the new row of a creation apart. So there a row can get a new time that is where it was.

Only the nodes that were stored before the call are looked at, and for each of them all of its
record is told.

Main results:

* `Shelf.refreshes_of_serve` — in memory what is displaced is stamped, and nothing else;
* `Database.refreshes_of_serve` — in the table what is written is;
* `Refreshes.displaced_iff` — when the two come to the same;
* `refreshed_run` — all of it, after every run.
-/

namespace Outline

variable {π τ : Type}

namespace StoreCall

/-- The calls that find keys for nodes. -/
def assignsKeys : StoreCall → Bool
  | .renumber _ => true
  | c => c.isPlacing

end StoreCall

/-! ## What is stamped -/

/-- Of the records of `f` those that are written have got the time `stamp`, and with it at most
another key and, for the node that is moved, another parent. All others are what they were. -/
structure Refreshes (f g : Forest π τ) (moved : Option Uuid) (written : Uuid → Prop) (stamp : τ) :
    Prop where
  stamped : ∀ {id r}, f id = some r → written id → ∃ parent sort,
              (moved = some id ∨ parent = r.parent) ∧
              g id = some { r with parent := parent, sort := sort, updated := stamp }
  kept    : ∀ {id r}, f id = some r → ¬written id → g id = some r

/-- The node is moved, or has another key than before. -/
def Displaced (f g : Forest π τ) (moved : Option Uuid) (id : Uuid) : Prop :=
  moved = some id ∨ ∃ r q, f id = some r ∧ g id = some q ∧ q.sort ≠ r.sort

namespace Refreshes

variable {f g : Forest π τ} {moved : Option Uuid} {written written' : Uuid → Prop} {stamp : τ}

theorem congr (h : Refreshes f g moved written stamp)
    (hiff : ∀ {id r}, f id = some r → (written id ↔ written' id)) :
    Refreshes f g moved written' stamp :=
  ⟨fun hr hw => h.stamped hr ((hiff hr).2 hw), fun hr hw => h.kept hr (mt (hiff hr).1 hw)⟩

/-- A record that is new is not looked at. -/
theorem put_new (h : Refreshes f g moved written stamp) {q : Record π τ} (hq : f q.id = none) :
    Refreshes f (g.put q) moved written stamp := by
  have hother : ∀ {id r}, f id = some r → g.put q id = g id := by
    intro id r hr
    refine g.put_of_ne fun hid => ?_
    rw [hid, hq] at hr
    cases hr
  exact ⟨fun hr hw => by rw [hother hr]; exact h.stamped hr hw,
    fun hr hw => by rw [hother hr]; exact h.kept hr hw⟩

/-- What is written and what is displaced come to the same exactly when a record that is written
where it was had the time already. -/
theorem displaced_iff (h : Refreshes f g moved written stamp)
    (hmoved : ∀ id, moved = some id → written id) :
    Refreshes f g moved (Displaced f g moved) stamp ↔
      ∀ {id r}, f id = some r → written id → Displaced f g moved id ∨ r.updated = stamp := by
  constructor
  · intro hlaw id r hr hw
    refine or_iff_not_imp_left.2 fun hd => ?_
    obtain ⟨parent, sort, -, hg⟩ := h.stamped hr hw
    rw [hlaw.kept hr hd] at hg
    exact congrArg Record.updated (Option.some.inj hg)
  · refine fun hall => ⟨fun {id r} hr hd => ?_, fun {id r} hr hd => ?_⟩
    -- whatever is displaced is written, or its key would be the old one
    · refine h.stamped hr ?_
      by_contra hw
      rcases hd with hmove | ⟨r', q, hr', hq, hsort⟩
      · exact hw (hmoved id hmove)
      · obtain rfl : r = r' := Option.some.inj (hr.symm.trans hr')
        obtain rfl : r = q := Option.some.inj ((h.kept hr hw).symm.trans hq)
        exact hsort rfl
    -- what is written where it was has nothing new in it but the time
    · by_cases hw : written id
      · obtain ⟨parent, sort, hparent, hg⟩ := h.stamped hr hw
        obtain rfl : parent = r.parent := hparent.resolve_left fun hmove => hd (.inl hmove)
        obtain rfl : sort = r.sort := by
          by_contra hsort
          exact hd (.inr ⟨r, _, hr, hg, hsort⟩)
        rw [hg, ← (hall hr hw).resolve_left hd]
      · exact h.kept hr hw

end Refreshes

/-! ## In memory -/

/-- A new version of a stored record: that of the node that is moved, or one with another key. -/
structure Renews (moved : Option Uuid) (now : Timestamp) (r : Record Node.Payload Timestamp)
    (c : Node) : Prop where
  cause  : moved = some c.id ∨ (c.parent = r.parent ∧ c.sort ≠ r.sort)
  record : c.record = { r with parent := c.parent, sort := c.sort, updated := now }

namespace Shelf

variable {s : Shelf} {now : Timestamp} {sp : Uuid} {changes : List Node}
  {locator : Std.ExtTreeMap Uuid Uuid}

/-- Changes are stamped where they change something. -/
theorem refreshes_enter (h : s.Agrees) (he : s.Enters sp changes locator) {moved : Option Uuid}
    (hchange : ∀ c ∈ changes, ∀ r, s.forest c.id = some r → Renews moved now r c)
    (hmoved : ∀ id, moved = some id → id ∈ changes.map (·.id)) :
    Refreshes s.forest (s.enter sp changes locator).forest moved
      (Displaced s.forest (s.enter sp changes locator).forest moved) now := by
  have hforest := forest_enter h he
  have hentered : ∀ c ∈ changes, (s.enter sp changes locator).forest c.id = some c.record := by
    intro c hc
    rw [hforest, find?_of_nodup he.admits.ids hc]
    rfl
  have hold : ∀ {id}, id ∉ changes.map (·.id) →
      (s.enter sp changes locator).forest id = s.forest id := by
    intro id hid
    have hnone : changes.find? (·.id = id) = none := by simpa [List.find?_eq_none] using hid
    rw [hforest, hnone]
    rfl
  -- a stored node is displaced exactly when it is among the changes
  have hdisplaced : ∀ {id r}, s.forest id = some r →
      (id ∈ changes.map (·.id) ↔
        Displaced s.forest (s.enter sp changes locator).forest moved id) := by
    intro id r hr
    constructor
    · intro hid
      obtain ⟨c, hc, rfl⟩ := List.mem_map.1 hid
      exact (hchange c hc r hr).cause.imp id fun hsort => ⟨r, _, hr, hentered c hc, hsort.2⟩
    · rintro (hmove | ⟨r', q, hr', hq, hsort⟩)
      · exact hmoved id hmove
      · by_contra hid
        rw [hold hid, hr'] at hq
        exact hsort (congrArg Record.sort (Option.some.inj hq)).symm
  refine Refreshes.congr ⟨fun {id r} hr hid => ?_, fun {id r} hr hid => ?_⟩ hdisplaced
  · obtain ⟨c, hc, rfl⟩ := List.mem_map.1 hid
    obtain ⟨hcause, hrecord⟩ := hchange c hc r hr
    exact ⟨c.parent, c.sort, hcause.imp_right And.left, by rw [hentered c hc, hrecord]⟩
  · rw [hold hid, hr]

/-- A member that is given its key anew is changed only if that is another one. -/
theorem renews_of_rekeyed? (h : s.Agrees) {m : Sibling} {c : Node}
    {r : Record Node.Payload Timestamp} (hc : (s.space sp).rekeyed? now m = some c)
    (hr : s.forest c.id = some r) (moved : Option Uuid) : Renews moved now r c := by
  unfold Space.rekeyed? at hc
  split at hc
  · next q hq =>
    split at hc
    · cases hc
    · next hsort =>
      cases hc
      have hid : q.id = m.id := (h.space sp).own_id hq
      obtain rfl : q.record = r :=
        Option.some.inj ((forest_of_node h (hid ▸ hq)).symm.trans hr)
      exact ⟨.inr ⟨rfl, Ne.symm hsort⟩, rfl⟩
  · cases hc

section Placing

variable {n : Node} {parent : Option Uuid} {p : Placement} {left right : List Sibling}

theorem refreshes_moved (h : s.Agrees) (hn : s.forest n.id = some n.record)
    (hp : Placing s.forest ⟨n.space, parent⟩ n.id p left right)
    (he : s.Enters n.space ((s.space n.space).changesFor n parent now p) locator) :
    let s' := s.enter n.space ((s.space n.space).changesFor n parent now p) locator
    Refreshes s.forest s'.forest (some n.id) (Displaced s.forest s'.forest (some n.id)) now := by
  rw [changesFor_eq h hp] at he ⊢
  refine refreshes_enter h he (fun c hc r hr => ?_) fun id hid => ?_
  · obtain ⟨m, -, hmc⟩ := List.mem_filterMap.1 hc
    unfold Space.change? at hmc
    split at hmc
    · cases hmc
      obtain rfl : n.record = r := Option.some.inj (hn.symm.trans hr)
      exact ⟨.inl rfl, rfl⟩
    · exact renews_of_rekeyed? h hmc hr _
  -- the node itself is always among the changes
  · obtain rfl := Option.some.inj hid
    obtain ⟨sort, hsort⟩ := hp.exists_key
    have hself : (s.space n.space).change? n parent now ⟨n.id, sort⟩ =
        some (n.moveTo parent sort now) := if_pos rfl
    exact List.mem_map.2 ⟨_, List.mem_filterMap.2 ⟨_, hsort, hself⟩, rfl⟩

/-- For a new node only the others can have been displaced. -/
theorem refreshes_created (h : s.Agrees) (hn : s.forest n.id = none)
    (he : s.Enters n.space ((s.space n.space).changesForNew n now p) locator) :
    let s' := s.enter n.space ((s.space n.space).changesForNew n now p) locator
    Refreshes s.forest s'.forest none (Displaced s.forest s'.forest none) now := by
  refine refreshes_enter h he (fun c hc r hr => ?_) fun id hid => by cases hid
  have hne : c.id ≠ n.id := by
    intro hid
    rw [hid, hn] at hr
    cases hr
  cases p with
  | key sort =>
    obtain rfl := List.mem_singleton.1 hc
    exact absurd rfl hne
  | respread members =>
    obtain ⟨m, -, hmc⟩ := List.mem_filterMap.1 hc
    split at hmc
    · cases hmc
      exact absurd rfl hne
    · exact renews_of_rekeyed? h hmc hr _

end Placing

theorem refreshes_of_relocate (h : s.Sound) {id : Uuid}
    {find : Space → Except StoreError (Option Uuid)} {target : Target} {m : Node} {s' : Shelf}
    (hs : s.relocate id find target now = .ok (m, s')) :
    Refreshes s.forest s'.forest (some id) (Displaced s.forest s'.forest (some id)) now := by
  have ho := h.outline.rooted
  obtain ⟨r, parent, p, hr, hfind, hl, hclear, hplace⟩ := of_relocate h.agrees ho hs
  obtain ⟨n, -, -, rfl⟩ := exists_node h.agrees hr
  obtain rfl : n.id = id := ho.own_id hr
  rw [Node.record_space] at hfind hplace
  obtain ⟨q, hrelocate, he, -⟩ := relocate_placed target now h.agrees ho hr hfind hl hclear hplace
  obtain ⟨-, rfl⟩ := Prod.mk.inj (Except.ok.inj (hs.symm.trans hrelocate))
  exact refreshes_moved h.agrees hr (placing_of_placeIn h.agrees hplace) he

theorem refreshes_of_insert (h : s.Sound) {n m : Node} {s' : Shelf}
    (hs : s.insert n .last now = .ok (m, s')) :
    Refreshes s.forest s'.forest none (Displaced s.forest s'.forest none) now := by
  obtain ⟨hcheck, hn, hl⟩ := of_insert h.agrees hs
  rw [insert_eq h.agrees hcheck hn hl] at hs
  obtain ⟨p, hplace, hs⟩ := bind_eq_ok_iff.1 hs
  obtain ⟨q, hinsert, he, -⟩ :=
    insert_entered now h.agrees hn (placing_of_placeIn h.agrees hplace)
  obtain ⟨-, rfl⟩ := Prod.mk.inj (Except.ok.inj (hs.symm.trans hinsert))
  exact refreshes_created h.agrees hn he

theorem refreshes_of_renumber (h : s.Sound) {group : Group} {ns : List Node} {s' : Shelf}
    (hs : s.renumber group now = .ok (ns, s')) :
    Refreshes s.forest s'.forest none (Displaced s.forest s'.forest none) now := by
  obtain ⟨parent, members, hparent, hm⟩ := of_renumber hs
  obtain ⟨he, hrenumber⟩ := renumber_entered now h.agrees hparent hm
  obtain ⟨-, rfl⟩ := Prod.mk.inj (Except.ok.inj (hs.symm.trans hrenumber))
  refine refreshes_enter h.agrees he (fun c hc r hr => ?_) fun id hid => by cases hid
  obtain ⟨m, -, hmc⟩ := List.mem_filterMap.1 hc
  exact renews_of_rekeyed? h.agrees hmc hr _

/-- Exactly the displaced nodes are stamped. -/
theorem refreshes_of_serve (h : s.Sound) {c : StoreCall} (hc : c.assignsKeys = true)
    {answer : c.Answer} {s' : Shelf} (hs : store.serve c now s = .ok (answer, s')) :
    Refreshes s.forest s'.forest c.moved? (Displaced s.forest s'.forest c.moved?) now := by
  cases c with
  | createLast n => exact refreshes_of_insert h hs
  | moveLast id parent =>
    change s.relocate id (fun _ => .ok parent) .last now = .ok (answer, s') at hs
    exact refreshes_of_relocate h hs
  | moveAt id parent sort =>
    change s.relocate id (fun _ => .ok parent) (.at sort) now = .ok (answer, s') at hs
    exact refreshes_of_relocate h hs
  | reorder id sort =>
    change s.relocate id (fun space => (space.get id).map (·.parent)) (.at sort) now =
      .ok (answer, s') at hs
    exact refreshes_of_relocate h hs
  | moveBeside id anchor side =>
    change s.moveBeside id anchor side now = .ok (answer, s') at hs
    unfold moveBeside at hs
    split at hs
    · cases hs
    · exact refreshes_of_relocate h hs
  | renumber group => exact refreshes_of_renumber h hs
  | get | create | update | delete | list | nextSort => cases hc

end Shelf

/-! ## In the table -/

section Settle

variable {f : Forest Row.Payload String} {group : Group} {keys : List Sibling}

/-- Every row that gets a key is stamped, whatever key it had. -/
theorem Rewrites.refreshes {mover : Option Mover} (h : Rewrites f group keys mover)
    (stamp : String) :
    Refreshes f (f.settle group keys stamp) (mover.map (·.id)) (· ∈ keys.map (·.id)) stamp where
  stamped {id l} hl hid := by
    obtain ⟨m, hm, rfl⟩ := List.mem_map.1 hid
    obtain ⟨q, hq, -, hparent⟩ := h.stored hm
    obtain rfl : l = q := Option.some.inj (hl.symm.trans hq)
    refine ⟨group.parent, m.sort, ?_, by rw [h.settle_of_mem hm, hl]; rfl⟩
    rcases hparent with hparent | ⟨mv, rfl, hid, -⟩
    · exact .inr hparent.symm
    · exact .inl (congrArg some hid)
  kept hl hid := by rw [Forest.settle_of_not_mem hid, hl]

variable {id a : Uuid} {p : Placement} {left right : List Sibling}
  (h : Placing f group id p left right)
include h

theorem id_mem_written_iff :
    a ∈ (p.written id).map (·.id) ↔
      a = id ∨ ((∃ members, p = .respread members) ∧ ∃ l, f a = some l ∧ l.group = group) := by
  cases p with
  | key sort => simp [Placement.written]
  | respread members =>
    rw [and_iff_right ⟨members, rfl⟩]
    exact h.id_mem_settled_iff

theorem id_mem_writtenOthers_iff (ha : a ≠ id) :
    a ∈ (p.writtenOthers id).map (·.id) ↔
      (∃ members, p = .respread members) ∧ ∃ l, f a = some l ∧ l.group = group := by
  cases p with
  | key sort => simp [Placement.writtenOthers]
  | respread members =>
    have hsettled := h.id_mem_settled_iff (a := a)
    rw [or_iff_right ha] at hsettled
    rw [and_iff_right ⟨members, rfl⟩, ← hsettled, List.mem_map, List.mem_map]
    refine exists_congr fun m => ?_
    rw [Placement.writtenOthers, List.mem_filter, and_assoc]
    refine and_congr_right fun _ => and_iff_right_of_imp ?_
    rintro rfl
    exact decide_eq_true ha

end Settle

namespace Database

/-- The call gives all members of the group their keys anew: it renumbers the group, or it places a
node there for which no key is left. -/
def Respreads (db : Database) (c : StoreCall) (group : Group) : Prop :=
  c = .renumber group ∨ ∃ l target members,
    c.placing? db.rows.forest Node.line = some (l, group, target) ∧
    db.gap.placeIn group (db.rows.members group) l.id target = .ok (.respread members)

/-- The row of the node is written: it is moved, or its group is respread. -/
def Writes (db : Database) (c : StoreCall) (id : Uuid) : Prop :=
  c.moved? = some id ∨ ∃ l, db.rows.forest id = some l ∧ db.Respreads c l.group

variable {db : Database} {now : Timestamp}

theorem respreads_iff_of_placing {c : StoreCall} {l : Line} {group other : Group} {target : Target}
    {p : Placement} (hc : c.placing? db.rows.forest Node.line = some (l, group, target))
    (hplace : db.gap.placeIn group (db.rows.members group) l.id target = .ok p) :
    db.Respreads c other ↔ (∃ members, p = .respread members) ∧ other = group := by
  constructor
  · rintro (rfl | ⟨l', target', members, hc', hplace'⟩)
    · cases hc
    · rw [hc] at hc'
      cases hc'
      exact ⟨⟨members, Except.ok.inj (hplace.symm.trans hplace')⟩, rfl⟩
  · rintro ⟨⟨members, rfl⟩, rfl⟩
    exact .inr ⟨l, target, members, hc, hplace⟩

/-- What a placement writes is what its call does. -/
theorem refreshes_of_placing {g : Forest Row.Payload String} {c : StoreCall} {l : Line}
    {group : Group} {target : Target} {p : Placement} {stamp : String}
    (hc : c.placing? db.rows.forest Node.line = some (l, group, target))
    (hplace : db.gap.placeIn group (db.rows.members group) l.id target = .ok p)
    (h : Refreshes db.rows.forest g c.moved? (fun id => c.moved? = some id ∨
      ((∃ members, p = .respread members) ∧
        ∃ q, db.rows.forest id = some q ∧ q.group = group)) stamp) :
    Refreshes db.rows.forest g c.moved? (db.Writes c) stamp := by
  refine h.congr fun {id r} hr => or_congr_right ?_
  simp only [respreads_iff_of_placing hc hplace]
  constructor
  · rintro ⟨hrespread, q, hq, hgroup⟩
    exact ⟨q, hq, hrespread, hgroup⟩
  · rintro ⟨q, hq, hrespread, hgroup⟩
    exact ⟨hrespread, q, hq, hgroup⟩

section Calls

variable (h : db.Sound)
include h

theorem refreshes_of_relocate {c : StoreCall} {id : Uuid} {parent : Option Uuid} {target : Target}
    {m : Node} {t' : Table} (hmoved : c.moved? = some id)
    (hc : ∀ l, db.rows.forest id = some l →
      c.placing? db.rows.forest Node.line = some (l, ⟨l.space, parent⟩, target))
    (hs : db.rows.relocate db.gap id parent target now = .ok (m, t')) :
    Refreshes db.rows.forest t'.forest c.moved? (db.Writes c) now.toOffsetText := by
  obtain ⟨l, p, hl, -, -, hplace, hholds, -⟩ := h.holds.of_relocate h.outline hs
  obtain ⟨rfl, -⟩ := h.holds.line hl
  have hplacing := Placing.of_placeIn
    (h.holds.isListing_members h.outline.keys ⟨l.space, parent⟩) hplace
  refine refreshes_of_placing (hc l hl) hplace ?_
  rw [hholds.forest_eq, hmoved]
  refine ((rewrites_written hl rfl hplacing).refreshes _).congr fun {a r} _ => ?_
  rw [id_mem_written_iff hplacing, Option.some_inj, eq_comm]

theorem refreshes_of_createLast {n m : Node} {t' : Table}
    (hs : db.rows.createLast db.gap n now = .ok (m, t')) :
    Refreshes db.rows.forest t'.forest none (db.Writes (.createLast n)) now.toOffsetText := by
  obtain ⟨p, sort, -, hn, hplace, rfl, -, hholds⟩ :=
    h.holds.createLast_settled h.outline.keys hs
  have hplacing := Placing.of_placeIn (h.holds.isListing_members h.outline.keys n.group) hplace
  refine refreshes_of_placing (c := .createLast n) rfl hplace ?_
  rw [hholds.forest_eq]
  have hr : Rewrites db.rows.forest n.group (p.writtenOthers n.id) none := by
    cases p with
    | key sort => exact ⟨.nil, .nil, fun {_} hm => absurd hm List.not_mem_nil,
        fun {_ _} hm => absurd hm List.not_mem_nil⟩
    | respread members => exact rewrites_others (l := n.line) hn hplacing
  refine ((hr.refreshes _).congr fun {a r} hr => ?_).put_new hn
  have hne : a ≠ n.id := by
    rintro rfl
    rw [hn] at hr
    cases hr
  rw [id_mem_writtenOthers_iff hplacing hne]
  exact (or_iff_right (by nofun)).symm

theorem refreshes_of_renumber {group : Group} {ns : List Node} {t' : Table}
    (hs : db.rows.renumber db.gap group now = .ok (ns, t')) :
    Refreshes db.rows.forest t'.forest none (db.Writes (.renumber group)) now.toOffsetText := by
  obtain ⟨parent, members, -, hm, hholds, -, hrekeyed⟩ := h.holds.of_renumber h.outline.keys hs
  have hlist := h.holds.isListing_members h.outline.keys group
  rw [hholds.forest_eq]
  refine ((rewrites_compact hlist hm now.toOffsetText).1.refreshes _).congr fun {a r} _ => ?_
  rw [hrekeyed.id_mem, Writes, or_iff_right (by nofun)]
  refine exists_congr fun l => and_congr_right fun _ => ?_
  constructor
  · rintro rfl
    exact .inl rfl
  · rintro (heq | ⟨_, _, _, hc, -⟩)
    · cases heq
      rfl
    · cases hc

/-- Exactly the rows that are written are stamped. -/
theorem refreshes_of_serve {c : StoreCall} (hc : c.assignsKeys = true) {answer : c.Answer}
    {db' : Database} (hs : store.serve c now db = .ok (answer, db')) :
    Refreshes db.rows.forest db'.rows.forest c.moved? (db.Writes c) now.toOffsetText := by
  have ht := h.holds
  cases c with
  | createLast n => exact refreshes_of_createLast h (of_writing hs).1
  | moveLast id parent =>
    refine refreshes_of_relocate h rfl (fun l hl => ?_) (of_writing hs).1
    rw [StoreCall.placing?, hl]
    rfl
  | moveAt id parent sort =>
    refine refreshes_of_relocate h rfl (fun l hl => ?_) (of_writing hs).1
    rw [StoreCall.placing?, hl]
    rfl
  | reorder id sort =>
    obtain ⟨n, hfetch, hrelocate⟩ := bind_eq_ok_iff.1 (of_writing hs).1
    obtain ⟨q, hq, hnode⟩ := ht.of_fetch hfetch
    obtain ⟨-, -, -, hparent, -⟩ := Row.toNode_row_eq_ok_iff.1 hnode
    refine refreshes_of_relocate h rfl (fun l hl => ?_) hrelocate
    -- the parent that was read is the one of the record
    obtain rfl : q = l := Option.some.inj (hq.symm.trans hl)
    rw [StoreCall.placing?, hl, hparent]
    rfl
  | moveBeside id anchor side =>
    obtain ⟨-, n, a, -, ha, -, hrelocate⟩ := Table.of_moveBeside (of_writing hs).1
    obtain ⟨q, hq, hnode⟩ := ht.of_fetch ha
    obtain ⟨-, -, -, hparent, -⟩ := Row.toNode_row_eq_ok_iff.1 hnode
    refine refreshes_of_relocate h rfl (fun l hl => ?_) hrelocate
    rw [StoreCall.placing?, hl, hq, hparent]
    rfl
  | renumber group => exact refreshes_of_renumber h (of_writing hs).1
  | get | create | update | delete | list | nextSort => cases hc

end Calls

end Database

/-! ## Every run -/

/-- After every run of either store, a call that gives keys and succeeds stamps the moved node and
the members that get another key. In memory it stamps nobody else. The table stamps also the other
members of a group that it respreads, so there it stamps nobody else exactly when each member of
such a group is displaced or had the time already. -/
theorem refreshed_run (gap : Gap) (calls : List (StoreCall × Timestamp)) (c : StoreCall)
    (now : Timestamp) (hc : c.assignsKeys = true) :
    (∀ answer s', Shelf.store.serve c now (Shelf.store.run calls (.empty gap)) = .ok (answer, s') →
      Refreshes (Shelf.store.run calls (.empty gap)).forest s'.forest c.moved?
        (Displaced (Shelf.store.run calls (.empty gap)).forest s'.forest c.moved?) now) ∧
    (∀ answer db', Database.store.serve c now (Database.store.run calls (.empty gap)) =
        .ok (answer, db') →
      Refreshes (Database.store.run calls (.empty gap)).rows.forest db'.rows.forest c.moved?
        ((Database.store.run calls (.empty gap)).Writes c) now.toOffsetText ∧
      (Refreshes (Database.store.run calls (.empty gap)).rows.forest db'.rows.forest c.moved?
          (Displaced (Database.store.run calls (.empty gap)).rows.forest db'.rows.forest c.moved?)
          now.toOffsetText ↔
        ∀ {id l}, (Database.store.run calls (.empty gap)).rows.forest id = some l →
          (Database.store.run calls (.empty gap)).Respreads c l.group →
            Displaced (Database.store.run calls (.empty gap)).rows.forest db'.rows.forest c.moved?
              id ∨ l.updated = now.toOffsetText)) := by
  refine ⟨fun answer s' hs => ?_, fun answer db' hs => ?_⟩
  · exact Shelf.refreshes_of_serve (Shelf.sound_run gap calls) hc hs
  -- the table stamps what it writes, so it keeps to the law where that had to be written
  · have hwritten := Database.refreshes_of_serve (Database.sound_run gap calls) hc hs
    refine ⟨hwritten, (hwritten.displaced_iff fun id hid => .inl hid).trans ?_⟩
    constructor
    · exact fun hall {id l} hl hrespread => hall hl (.inr ⟨l, hl, hrespread⟩)
    · rintro hall id l hl (hmove | ⟨l', hl', hrespread⟩)
      · exact .inl (.inl hmove)
      · obtain rfl : l = l' := Option.some.inj (hl.symm.trans hl')
        exact hall hl hrespread

namespace Sample

/-- Two pages at the top of their space, of which the first has the key that a renumbering would
give it. -/
def halfSpaced : List (StoreCall × Timestamp) :=
  [(.create { page 2 none with sort := Gap.standard.size }, time),
    (.create { page 3 none with sort := ⟨2500, by decide, by decide⟩ }, time)]

/-- The day after. -/
def later : Timestamp :=
  { time with date := ⟨2024, 1, 2, by decide⟩ }

/-- The two pages with their keys. -/
abbrev halfSpacedMembers : List Sibling :=
  [⟨uuid 2, Gap.standard.size⟩, ⟨uuid 3, ⟨2500, by decide, by decide⟩⟩]

theorem members_halfSpaced :
    (Database.store.run halfSpaced (.empty .standard)).rows.members topPages =
      halfSpacedMembers := by
  -- the rows have been stored in the order of their keys
  rw [Table.members, Table.select, List.mergeSort_of_pairwise (by decide +kernel)]
  decide +kernel

/-- Two keys fit, so the two pages are renumbered, and the first one gets the key it has. -/
theorem exists_renumber_halfSpaced {σ : Type} {store : Store σ} {forest : σ → Forest π τ} {s : σ}
    {fit : σ → Prop} {before : List Node}
    (h : RenumbersOnce store forest .standard topPages later s fit before)
    (hlist : IsListing (forest s) topPages halfSpacedMembers) :
    ∃ ns s', store.serve (.renumber topPages) later s = .ok (ns, s') ∧
      (forest s' (uuid 2)).map Record.sort = some Gap.standard.size := by
  have hbefore : before.map Node.sibling = halfSpacedMembers := h.listing.eq hlist
  have hlen : before.length = 2 := by simpa using congrArg List.length hbefore
  obtain ⟨ns, s', ⟨hserved, hspaced, -⟩, -⟩ := h.renumbered (by rw [hlen]; decide)
  have hafter : ns.map Node.sibling =
      [⟨uuid 2, Gap.standard.size⟩, ⟨uuid 3, ⟨2000, by decide, by decide⟩⟩] :=
    Sibling.eq_of_columns (by rw [hspaced.ids, hbefore]; rfl)
      (by rw [hspaced.keys, hbefore]; rfl)
  have hmem : (⟨uuid 2, Gap.standard.size⟩ : Sibling) ∈ ns.map Node.sibling := by
    rw [hafter]
    exact List.mem_cons_self
  obtain ⟨q, hq, -, hsort⟩ := hspaced.new.mem_iff.1 hmem
  exact ⟨ns, s', hserved, Option.map_eq_some_iff.2 ⟨q, hq, hsort⟩⟩

end Sample

/-- The first page keeps its key in both stores. In memory it keeps its record, in the table it gets
a new time. -/
theorem refreshed_run_halfSpaced :
    (∃ ns s', Shelf.store.serve (.renumber Sample.topPages) Sample.later
        (Shelf.store.run Sample.halfSpaced (.empty .standard)) = .ok (ns, s') ∧
      s'.forest (Sample.uuid 2) =
        (Shelf.store.run Sample.halfSpaced (.empty .standard)).forest (Sample.uuid 2)) ∧
    (∃ ns db', Database.store.serve (.renumber Sample.topPages) Sample.later
        (Database.store.run Sample.halfSpaced (.empty .standard)) = .ok (ns, db') ∧
      ¬Refreshes (Database.store.run Sample.halfSpaced (.empty .standard)).rows.forest
        db'.rows.forest none
        (Displaced (Database.store.run Sample.halfSpaced (.empty .standard)).rows.forest
          db'.rows.forest none) Sample.later.toOffsetText) := by
  obtain ⟨hshelf, hrows⟩ :=
    refreshed_run .standard Sample.halfSpaced (.renumber Sample.topPages) Sample.later (by decide)
  constructor
  · have hsound := Shelf.sound_run .standard Sample.halfSpaced
    have hfit : (Shelf.store.run Sample.halfSpaced (.empty .standard)).RenumberFit .standard
        Sample.topPages := ⟨hsound, Shelf.gap_run .standard Sample.halfSpaced, nofun⟩
    have hmembers : ((Shelf.store.run Sample.halfSpaced (.empty .standard)).space
        (Sample.uuid 1)).siblings none = Sample.halfSpacedMembers := by decide +kernel
    obtain ⟨before, hbefore⟩ := hfit.once Sample.later
    obtain ⟨ns, s', hs, hsort⟩ := Sample.exists_renumber_halfSpaced hbefore
      (hmembers ▸ Shelf.isListing_siblings hsound.agrees Sample.topPages)
    obtain ⟨r, hr, hold⟩ := Option.map_eq_some_iff.1 (show
      ((Shelf.store.run Sample.halfSpaced (.empty .standard)).forest (Sample.uuid 2)).map
        Record.sort = some Gap.standard.size by decide +kernel)
    refine ⟨ns, s', hs, ?_⟩
    rw [hr]
    refine (hshelf ns s' hs).kept hr ?_
    -- ⟨r', q, hr', hq, hne⟩) | the page is not the one that is moved, and it gets the key that it
    -- has
    rintro (hmove | ⟨r', q, hr', hq, hne⟩)
    · cases hmove
    · obtain rfl : r = r' := Option.some.inj (hr.symm.trans hr')
      rw [hq] at hsort
      exact hne ((Option.some.inj hsort).trans hold.symm)
  · have hsound := Database.sound_run .standard Sample.halfSpaced
    have hfit : (Database.store.run Sample.halfSpaced (.empty .standard)).RenumberFit .standard
        Sample.topPages :=
      ⟨hsound, Database.gap_run .standard Sample.halfSpaced, nofun, by decide +kernel,
        by decide +kernel⟩
    obtain ⟨before, hbefore⟩ := hfit.once (show Sample.later.HasPlainYear by decide)
    obtain ⟨ns, db', hs, hsort⟩ := Sample.exists_renumber_halfSpaced hbefore
      (Sample.members_halfSpaced ▸
        hsound.holds.isListing_members hsound.outline.keys Sample.topPages)
    refine ⟨ns, db', hs, fun hlaw => ?_⟩
    obtain ⟨l, hl, hold⟩ := Option.map_eq_some_iff.1 (show
      ((Database.store.run Sample.halfSpaced (.empty .standard)).rows.forest (Sample.uuid 2)).map
        (fun l => (l.group, l.sort, l.updated)) =
          some (Sample.topPages, Gap.standard.size, Sample.time.toOffsetText) by
        decide +kernel)
    simp only [Prod.mk.injEq] at hold
    obtain ⟨hgroup, hkey, htime⟩ := hold
    -- if the law held, the row would have had the new time before the call
    rcases (hrows ns db' hs).2.1 hlaw hl (hgroup ▸ .inl rfl) with
      (hmove | ⟨l', q, hl', hq, hne⟩) | hstamp
    · cases hmove
    · obtain rfl : l = l' := Option.some.inj (hl.symm.trans hl')
      rw [Database.forest, hq] at hsort
      exact hne ((Option.some.inj hsort).trans hkey.symm)
    · rw [htime] at hstamp
      exact absurd hstamp (by decide +kernel)

end Outline
