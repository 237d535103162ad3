import Outline.Proofs.Arrangement.Table
import Outline.Proofs.Placement.Room

/-!
# The key that is foretold

A store can be asked for the key of the next member of a group, and it can be told to create a node
at the end of the group. The answer looks at the last key alone; the creation sorts all members,
takes out the node, and respreads the group where there is no key behind the last one. Both come to
one function of the listing of the group, so the answer foretells what the creation does: a key that
is foretold is the one that the node gets, and no other record is touched. Where none is foretold
the creation respreads the group, or has no keys for that either and changes nothing.

Any group can be asked for, also one that is below no node. The node that is created has to be sound
by itself, new, and suited to its parent; in a table the rows have to be readable and few besides.

Main results:

* `Gap.foretells_nextIn` — what is answered, told by the largest key;
* `Gap.placeIn_last_eq` — the creation asks for the same key;
* `Shelf.appends`, `Database.appends` — one creation;
* `foretold_run` — both, after every run.
-/

namespace Outline

open Sibling (Ascending)

variable {π τ : Type} {gap : Gap} {group : Group} {members : List Sibling}

/-! ## The next key of a listing -/

/-- The largest key of a group. -/
def IsTop (members : List Sibling) (top : SortKey) : Prop :=
  ∃ m ∈ members, m.sort = top ∧ ∀ m' ∈ members, m'.sort.val ≤ top.val

theorem isTop_iff_of_ascending (ha : Ascending members) {last : Sibling}
    (hlast : members.getLast? = some last) {top : SortKey} :
    IsTop members top ↔ top = last.sort := by
  have hmem := List.mem_of_getLast? hlast
  have hle := Gap.le_getLast?_of_ascending ha hlast
  constructor
  · rintro ⟨m, hm, rfl, hall⟩
    exact SortKey.ext_val (Int.le_antisymm (hle m hm) (hall last hmem))
  · rintro rfl
    exact ⟨last, hmem, rfl, hle⟩

/-- What is answered for the next key of a group that is listed as `members`: the gap for an empty
group, otherwise the gap above its largest key, as long as that is a key. -/
structure Foretells (gap : Gap) (group : Group) (members : List Sibling)
    (outcome : Except StoreError SortKey) : Prop where
  key   : ∀ k, outcome = .ok k ↔ (members = [] ∧ k = gap.size) ∨
            ∃ top, IsTop members top ∧ k.val = top.val + gap.size.val
  error : ∀ e, outcome = .error e ↔ e = .exhausted group ⟨members.length, gap.size.val⟩ ∧
            ∃ top, IsTop members top ∧ 2 ^ 63 ≤ top.val + gap.size.val

namespace Gap

/-- The key behind the last member. -/
def nextIn (gap : Gap) (group : Group) (members : List Sibling) : Except StoreError SortKey :=
  match gap.next? (members.getLast?.map (·.sort)) with
  | some sort => .ok sort
  | none => .error (.exhausted group ⟨members.length, gap.size.val⟩)

section Next

variable (ha : Ascending members)
include ha

theorem foretells_nextIn (gap : Gap) (group : Group) :
    Foretells gap group members (gap.nextIn group members) := by
  unfold nextIn
  cases hlast : members.getLast? with
  | none =>
    obtain rfl := List.getLast?_eq_none_iff.1 hlast
    have hnone : ∀ top, ¬IsTop [] top := fun top ⟨m, hm, _⟩ => List.not_mem_nil hm
    exact ⟨fun k => by simp [next?, hnone, eq_comm], fun e => by simp [next?, hnone]⟩
  | some last =>
    have hne : members ≠ [] := by
      rintro rfl
      cases hlast
    have htop : ∀ top, IsTop members top ↔ top = last.sort :=
      fun top => isTop_iff_of_ascending ha hlast
    have hmin := last.sort.ge_min
    have hsize := gap.two_le
    simp only [Option.map_some, next?]
    cases hkey : SortKey.ofInt? (last.sort.val + gap.size.val) with
    | some sort =>
      have hval := SortKey.ofInt?_eq_some_iff.1 hkey
      refine ⟨fun k => ?_, fun e => ?_⟩
      · simp only [Except.ok.injEq, htop, hne, false_and, false_or, exists_eq_left, hval]
        exact ⟨fun h => h ▸ rfl, fun h => (SortKey.ext_val h).symm⟩
      -- a key is less than the bound
      · have hlt := sort.lt_max
        simp only [reduceCtorEq, htop, exists_eq_left, false_iff, not_and]
        omega
    | none =>
      have hover := SortKey.ofInt?_eq_none_iff.1 hkey
      refine ⟨fun k => ?_, fun e => ?_⟩
      · have hlt := k.lt_max
        simp only [reduceCtorEq, htop, hne, false_and, false_or, exists_eq_left, false_iff]
        omega
      · simp only [Except.error.injEq, htop, exists_eq_left, eq_comm (a := e)]
        exact (and_iff_left (by omega)).symm

/-- A node that is not in the group goes to the key that is foretold, and without one the group is
respread with the node at its end. -/
theorem placeIn_last_eq {id : Uuid} (hfresh : ∀ m ∈ members, m.id ≠ id) :
    gap.placeIn group members id .last =
      match gap.nextIn group members with
      | .ok sort => .ok (.key sort)
      | .error _ => ((gap.spread (members.map (·.id) ++ [id])).map .respread).mapError
          (.exhausted group) := by
  have hothers : Sibling.others members id = members := by
    rw [Sibling.others_of_ascending ha, List.filter_eq_self]
    exact fun m hm => decide_eq_true (hfresh m hm)
  have hbetween : ∀ below, gap.between? below none = gap.next? below := by
    intro below
    cases below <;> rfl
  rw [placeIn, placeLast, hothers, placeBetween, List.head?_nil, Option.map_none, hbetween, nextIn]
  cases gap.next? (members.getLast?.map (·.sort)) <;> rfl

end Next

end Gap

/-! ## What a creation does -/

/-- The node `id` has come to the end of the group that was listed as `before`, which has been given
the keys `gap`, `2 * gap`, … for it. Of the nodes stored before, the members of the group have
changed in their keys and times at most, and the others not at all. -/
structure Appended (f g : Forest π τ) (gap : Gap) (group : Group) (id : Uuid)
    (before after : List Sibling) : Prop where
  new    : IsListing g group after
  ids    : after.map (·.id) = before.map (·.id) ++ [id]
  keys   : after.map (·.sort.val) =
             (List.range' 1 (before.length + 1)).map fun i : Nat => (i : Int) * gap.size.val
  member : ∀ {a r}, f a = some r → r.group = group →
             ∃ sort updated, g a = some { r with sort := sort, updated := updated }
  frame  : ∀ {a}, a ≠ id → (∀ r, f a = some r → r.group ≠ group) → g a = f a

theorem Placed.appended {f g : Forest π τ} {r : Record π τ} {after : List Sibling} {stamp : τ}
    (h : Placed f g r group after stamp) (hnew : f r.id = none)
    (hspread : gap.spread (members.map (·.id) ++ [r.id]) = .ok after) :
    Appended f g gap group r.id members after where
  new := Rekeyed.isListing h
  ids := Gap.ids_spreadFrom? (Gap.spread_eq_ok hspread)
  keys := by
    rw [Gap.keys_spreadFrom? (Gap.spread_eq_ok hspread), List.length_append, List.length_map]
    rfl
  member {a q} hq hgroup := by
    have hne : a ≠ r.id := by
      rintro rfl
      rw [hnew] at hq
      cases hq
    obtain ⟨sort, updated, -, -, hg⟩ := h.sibling hne hq hgroup
    exact ⟨sort, updated, hg⟩
  frame hne hout := h.frame hne hout

/-- The node is the last member. -/
theorem Appended.key_of_mem {f g : Forest π τ} {id : Uuid} {before after : List Sibling}
    (h : Appended f g gap group id before after) {sort : SortKey} (hm : ⟨id, sort⟩ ∈ after) :
    sort.val = (before.length + 1) * gap.size.val := by
  obtain ⟨front, back, rfl, hfront, hback⟩ := List.map_eq_append_iff.1 h.ids
  obtain ⟨last, rfl, hid⟩ := List.map_eq_singleton_iff.1 hback
  obtain rfl : last = ⟨id, sort⟩ := List.inj_on_of_nodup_map h.new.nodup (by simp) hm hid
  have hkeys := h.keys
  rw [List.map_append, List.range'_1_concat, List.map_append] at hkeys
  have hlength := congrArg List.length hfront
  obtain ⟨-, hlast⟩ := List.append_inj hkeys (by simpa using hlength)
  have hkey : sort.val = ((1 + before.length : Nat) : Int) * gap.size.val := (List.cons.inj hlast).1
  rw [hkey, Nat.add_comm]
  rfl

section Store

variable {σ : Type}

/-- What creating `n` at the end of its group, listed as `members`, comes to after the group has
been asked for its next key. Stored nodes are looked up in `forest`, where `n` is `entry n`. -/
structure Appends (store : Store σ) (forest : σ → Forest π τ) (entry : Node → Record π τ)
    (gap : Gap) (now : Timestamp) (s : σ) (n : Node) (members : List Sibling) : Prop where
  /-- The node gets the key that was foretold, and no other record changes. -/
  key       : ∀ k, store.serve (.nextSort n.group) now s = .ok (k, s) →
                ∃ s', store.serve (.createLast n) now s = .ok ({ n with sort := k }, s') ∧
                  forest s' = (forest s).put (entry { n with sort := k })
  /-- Where none was, the group is respread if it can be. -/
  respread  : ∀ e, store.serve (.nextSort n.group) now s = .error e →
                (members.length + 1) * gap.size.val < 2 ^ 63 →
                  ∃ m s' after, store.serve (.createLast n) now s = .ok (m, s') ∧
                    Appended (forest s) (forest s') gap n.group n.id members after ∧
                    forest s' n.id = some (entry m) ∧
                    ∃ sort updated, m = { n with sort := sort, updated := updated } ∧
                      sort.val = (members.length + 1) * gap.size.val
  /-- Otherwise the call is refused and has no effect. -/
  exhausted : ∀ e, store.serve (.nextSort n.group) now s = .error e →
                2 ^ 63 ≤ (members.length + 1) * gap.size.val →
                  store.step (.createLast n) now s =
                    (.error (.exhausted n.group ⟨members.length + 1, gap.size.val⟩), s)

variable {store : Store σ} {forest : σ → Forest π τ} {entry : Node → Record π τ} {now : Timestamp}
  {s : σ} {n : Node}

/-- A store that answers the next key of the listing, and creates what the allocator finds. -/
theorem Appends.of_placing (ha : Ascending members) (hfresh : ∀ m ∈ members, m.id ≠ n.id)
    (hentry : (entry n).id = n.id) (hnew : forest s n.id = none)
    (hnext : store.serve (.nextSort n.group) now s =
      (gap.nextIn n.group members).map (·, s))
    (hkey : ∀ k, gap.placeIn n.group members n.id .last = .ok (.key k) →
      ∃ s', store.serve (.createLast n) now s = .ok ({ n with sort := k }, s') ∧
        forest s' = (forest s).put (entry { n with sort := k }))
    (hrespread : ∀ after, gap.placeIn n.group members n.id .last = .ok (.respread after) →
      ∃ m s' stamp sort updated, store.serve (.createLast n) now s = .ok (m, s') ∧
        forest s' n.id = some (entry m) ∧ m = { n with sort := sort, updated := updated } ∧
        ⟨n.id, sort⟩ ∈ after ∧ Placed (forest s) (forest s') (entry n) n.group after stamp)
    (herror : ∀ e, gap.placeIn n.group members n.id .last = .error e →
      store.serve (.createLast n) now s = .error e) :
    Appends store forest entry gap now s n members := by
  have hplace : gap.placeIn n.group members n.id .last = _ := Gap.placeIn_last_eq ha hfresh
  have hne : members.map (·.id) ++ [n.id] ≠ [] := by simp
  have hlen : (members.map (·.id) ++ [n.id]).length = members.length + 1 := by simp
  -- a refusal to foretell is one of the allocator
  have hrefused : ∀ e, store.serve (.nextSort n.group) now s = .error e →
      gap.placeIn n.group members n.id .last =
        ((gap.spread (members.map (·.id) ++ [n.id])).map .respread).mapError
          (.exhausted n.group) := by
    intro e he
    rw [hnext] at he
    rw [hplace, map_eq_error_iff.1 he]
  refine ⟨fun k hk => ?_, fun e he hfits => ?_, fun e he hover => ?_⟩
  · rw [hnext] at hk
    obtain ⟨k', hk', heq⟩ := map_eq_ok_iff.1 hk
    obtain rfl : k' = k := congrArg Prod.fst heq
    exact hkey k' (by rw [hplace, hk'])
  · obtain ⟨after, hspread⟩ := (Gap.spread_ok_iff hne).2 (by rw [hlen]; exact_mod_cast hfits)
    obtain ⟨m, s', stamp, sort, updated, hs, hself, hm, hmem, hplaced⟩ :=
      hrespread after (by rw [hrefused e he, hspread]; rfl)
    have happended := hplaced.appended (hentry ▸ hnew) (by rwa [hentry])
    rw [hentry] at happended
    exact ⟨m, s', after, hs, happended, hself, sort, updated, hm, happended.key_of_mem hmem⟩
  · have hspread := (Gap.spread_error_iff hne).2 ⟨by rw [hlen]; exact_mod_cast hover, rfl⟩
    have hs := herror _ (by rw [hrefused e he, hspread]; rfl)
    rw [hlen] at hs
    rw [Store.step, hs]

end Store

namespace Shelf

variable {s : Shelf}

theorem serve_nextSort (s : Shelf) (group : Group) (now : Timestamp) :
    store.serve (.nextSort group) now s =
      (s.gap.nextIn group ((s.space group.space).siblings group.parent)).map (·, s) :=
  rfl

/-- A new node that suits its parent. -/
theorem appends (h : s.Sound) {n : Node} (hcheck : n.check = .ok ()) (hn : s.forest n.id = none)
    (hl : Lodged s.forest n.record) (now : Timestamp) :
    Appends store forest Node.record s.gap now s n
      ((s.space n.group.space).siblings n.group.parent) := by
  have hlist := isListing_siblings h.agrees n.group
  have hserve : store.serve (.createLast n) now s = s.insert n .last now := rfl
  have hinsert := insert_last_eq now h.agrees hcheck hn hl
  refine .of_placing hlist.ascending (fun m hm hid => ?_) rfl hn (serve_nextSort s n.group now)
    (fun k hplace => ?_) (fun after hplace => ?_) fun e hplace => ?_
  · obtain ⟨r, hr, -⟩ := hlist.mem_iff.1 hm
    rw [hid, hn] at hr
    cases hr
  -- the node is the only change
  · obtain ⟨m, hs, he, hm⟩ :=
      insert_entered now h.agrees hn (placing_of_placeIn h.agrees hplace)
    have hforest := forest_enter_singleton (c := { n with sort := k }) h.agrees he
    have hself := congrFun hforest n.id
    rw [Forest.put, if_pos (show n.id = ({ n with sort := k } : Node).record.id from rfl)] at hself
    obtain rfl : { n with sort := k } = m :=
      Node.record_inj.1 (Option.some.inj (hself.symm.trans hm))
    refine ⟨_, ?_, hforest⟩
    rw [hserve, insert_eq h.agrees hcheck hn hl]
    exact (congrArg (· >>= _) hplace).trans hs
  · change s.gap.placeIn n.group ((s.space n.space).siblings n.parent) n.id .last = _ at hplace
    rw [hplace] at hinsert
    obtain ⟨m, s', stamp, hs, -, -, hm, hplaced⟩ := hinsert
    obtain ⟨sort, updated, hmem, -, hself⟩ := hplaced.self rfl
    refine ⟨m, s', stamp, sort, updated, hs, hm, ?_, hmem, hplaced⟩
    exact Node.record_inj.1 (Option.some.inj (hm.symm.trans hself))
  · change s.gap.placeIn n.group ((s.space n.space).siblings n.parent) n.id .last = _ at hplace
    rw [hplace] at hinsert
    exact hinsert

end Shelf

namespace Database

variable {db : Database}

/-- The rows of a group have the keys of its members. -/
theorem serve_nextSort (h : db.Sound) (group : Group) (now : Timestamp) :
    store.serve (.nextSort group) now db =
      (db.gap.nextIn group (db.rows.members group)).map (·, db) := by
  have hkeys := h.holds.map_sort_members group
  have hlen := congrArg List.length hkeys
  rw [List.length_map, List.length_map] at hlen
  have hlast := congrArg List.getLast? hkeys
  rw [List.getLast?_map, List.getLast?_map] at hlast
  show db.reading (db.rows.nextSort db.gap group) = _
  rw [reading, Gap.nextIn, hlen, hlast]
  rfl

/-- A new node that suits its parent, in a table whose rows are few and can be read. -/
theorem appends (h : db.Sound) (hr : db.rows.Readable) (hroom : db.rows.Roomy) {n : Node}
    (hcheck : n.check = .ok ()) (hn : db.forest n.id = none) (hl : Lodged db.forest n.line)
    (now : Timestamp) :
    Appends store forest Node.line db.gap now db n (db.rows.members n.group) := by
  have ht := h.holds
  have hk : KeysDistinct db.rows.forest := h.outline.keys
  have hlist := ht.isListing_members hk n.group
  have hserve : store.serve (.createLast n) now db =
      db.writing (db.rows.createLast db.gap n now) := rfl
  have hcreate := ht.exists_createLast hk hroom hn
    ((Table.Holds.checkNew_eq hcheck).trans (ht.checkFetched_of_lodged hr hl)) db.gap now
  refine .of_placing hlist.ascending (fun m hm hid => ?_) rfl hn (serve_nextSort h n.group now)
    (fun k hplace => ?_) (fun after hplace => ?_) fun e hplace => ?_
  · obtain ⟨r, hr, -⟩ := hlist.mem_iff.1 hm
    rw [hid] at hr
    cases hr.symm.trans hn
  -- no key is written before the row of the node
  · rw [hplace] at hcreate
    obtain ⟨n', t', hs⟩ := hcreate
    obtain ⟨p, sort, -, -, hplace', rfl, hsort, hholds⟩ := ht.createLast_settled hk hs
    obtain rfl := Except.ok.inj (hplace.symm.trans hplace')
    obtain rfl : sort = k := congrArg Sibling.sort (List.mem_singleton.1 hsort)
    exact ⟨{ db with rows := t' }, by rw [hserve, hs]; rfl, hholds.forest_eq⟩
  · rw [hplace] at hcreate
    obtain ⟨n', t', hs⟩ := hcreate
    obtain ⟨p, sort, g, -, -, hplace', rfl, hholds, hself, hplaced⟩ := ht.of_createLast hk hs
    obtain rfl := Except.ok.inj (hplace.symm.trans hplace')
    have hforest : ({ db with rows := t' } : Database).forest = g := hholds.forest_eq
    obtain ⟨sort', updated, hmem, -, hself'⟩ := hplaced.self rfl
    obtain rfl : sort = sort' :=
      congrArg Record.sort (Option.some.inj (hself.symm.trans hself'))
    refine ⟨_, { db with rows := t' }, now.toOffsetText, sort, n.updated, by rw [hserve, hs]; rfl,
      ?_, rfl, hmem, ?_⟩
    · rw [hforest, hself]
    · rw [hforest]
      exact hplaced
  · rw [hplace] at hcreate
    rw [hserve, hcreate]
    rfl

end Database

/-! ## Every run -/

/-- After every run of either store, any group can be asked for its next key. The answer is the gap
for an empty group and the gap above its largest key otherwise, or the refusal that names its size
if that is no key. A new node that may be created in the group then gets the key that was answered
and changes no other record. After a refusal it goes to the end of the group with the keys `gap`,
`2 * gap`, … for all, or, when these do not fit, is refused and changes nothing. -/
theorem foretold_run (gap : Gap) (calls : List (StoreCall × Timestamp)) (group : Group)
    (now : Timestamp) :
    (∃ members, IsListing (Shelf.store.run calls (.empty gap)).forest group members ∧
      (∃ outcome, Foretells gap group members outcome ∧
        Shelf.store.serve (.nextSort group) now (Shelf.store.run calls (.empty gap)) =
          outcome.map (·, Shelf.store.run calls (.empty gap))) ∧
      ∀ n : Node, n.group = group → n.check = .ok () →
        (Shelf.store.run calls (.empty gap)).forest n.id = none →
        Lodged (Shelf.store.run calls (.empty gap)).forest n.record →
          Appends Shelf.store Shelf.forest Node.record gap now
            (Shelf.store.run calls (.empty gap)) n members) ∧
    ∃ members, IsListing (Database.store.run calls (.empty gap)).forest group members ∧
      (∃ outcome, Foretells gap group members outcome ∧
        Database.store.serve (.nextSort group) now (Database.store.run calls (.empty gap)) =
          outcome.map (·, Database.store.run calls (.empty gap))) ∧
      ((Database.store.run calls (.empty gap)).rows.Readable →
        (Database.store.run calls (.empty gap)).rows.Roomy →
        ∀ n : Node, n.group = group → n.check = .ok () →
          (Database.store.run calls (.empty gap)).forest n.id = none →
          Lodged (Database.store.run calls (.empty gap)).forest n.line →
            Appends Database.store Database.forest Node.line gap now
              (Database.store.run calls (.empty gap)) n members) := by
  have hshelf := Shelf.sound_run gap calls
  have hrows := Database.sound_run gap calls
  -- both listings are those of the forest, so one rule says what key comes next
  refine ⟨⟨_, Shelf.isListing_siblings hshelf.agrees group,
    ⟨_, Gap.foretells_nextIn (Space.ascending_siblings _ _) gap group, ?_⟩, ?_⟩,
    ⟨_, hrows.holds.isListing_members hrows.outline.keys group,
      ⟨_, Gap.foretells_nextIn
        (hrows.holds.isListing_members hrows.outline.keys group).ascending gap group, ?_⟩, ?_⟩⟩
  · rw [Shelf.serve_nextSort, Shelf.gap_run]
  · rintro n rfl hcheck hn hl
    have happends := Shelf.appends hshelf hcheck hn hl now
    rwa [Shelf.gap_run] at happends
  · rw [Database.serve_nextSort hrows, Database.gap_run]
  · rintro hr hroom n rfl hcheck hn hl
    have happends := Database.appends hrows hr hroom hcheck hn hl now
    rwa [Database.gap_run] at happends

namespace Sample

/-- Two pages at the top of their space, of which the second has the largest key that there is. -/
def crowded : List (StoreCall × Timestamp) :=
  [(.create { page 2 none with sort := Gap.standard.size }, time),
    (.create { page 3 none with sort := ⟨2 ^ 63 - 1, by decide, by decide⟩ }, time)]

/-- The two pages with their keys. -/
abbrev crowdedMembers : List Sibling :=
  [⟨uuid 2, Gap.standard.size⟩, ⟨uuid 3, ⟨2 ^ 63 - 1, by decide, by decide⟩⟩]

theorem members_crowded :
    (Database.store.run crowded (.empty .standard)).rows.members ⟨uuid 1, none⟩ =
      crowdedMembers := by
  -- the rows have been stored in the order of their keys
  rw [Table.members, Table.select, List.mergeSort_of_pairwise (by decide +kernel)]
  decide +kernel

theorem isTop_crowded : IsTop crowdedMembers ⟨2 ^ 63 - 1, by decide, by decide⟩ :=
  ⟨_, List.mem_cons_of_mem _ (List.mem_singleton_self _), rfl, by decide⟩

end Sample

/-- Behind the largest key there is none. The next key is refused, and the creation respreads the
group: the third page gets the third key. -/
theorem foretold_run_crowded :
    (∃ m s', Shelf.store.serve (.createLast (Sample.page 4 none)) Sample.time
        (Shelf.store.run Sample.crowded (.empty .standard)) = .ok (m, s') ∧ m.sort.val = 3000) ∧
    ∃ m db', Database.store.serve (.createLast (Sample.page 4 none)) Sample.time
        (Database.store.run Sample.crowded (.empty .standard)) = .ok (m, db') ∧
      m.sort.val = 3000 := by
  obtain ⟨⟨members, hlist, ⟨outcome, hforetells, hnext⟩, happends⟩,
    members', hlist', ⟨outcome', hforetells', hnext'⟩, happends'⟩ :=
    foretold_run .standard Sample.crowded ⟨Sample.uuid 1, none⟩ Sample.time
  constructor
  · have hsiblings : ((Shelf.store.run Sample.crowded (.empty .standard)).space
        (Sample.uuid 1)).siblings none = Sample.crowdedMembers := by decide +kernel
    obtain rfl : members = Sample.crowdedMembers :=
      (hlist.eq (Shelf.isListing_siblings (Shelf.sound_run .standard Sample.crowded).agrees
        ⟨Sample.uuid 1, none⟩)).trans hsiblings
    -- nothing is above the largest key, so the next one is refused
    have hrefused := (hforetells.error _).2 ⟨rfl, _, Sample.isTop_crowded, by decide⟩
    rw [hrefused] at hnext
    obtain ⟨m, s', after, hs, -, -, sort, updated, rfl, hsort⟩ :=
      (happends (Sample.page 4 none) rfl (by decide) (by decide +kernel) rfl).respread _ hnext
        (by decide)
    exact ⟨_, s', hs, hsort⟩
  · have hsound := Database.sound_run .standard Sample.crowded
    obtain rfl : members' = Sample.crowdedMembers :=
      (hlist'.eq (hsound.holds.isListing_members hsound.outline.keys
        ⟨Sample.uuid 1, none⟩)).trans Sample.members_crowded
    have hrefused := (hforetells'.error _).2 ⟨rfl, _, Sample.isTop_crowded, by decide⟩
    rw [hrefused] at hnext'
    obtain ⟨m, db', after, hs, -, -, sort, updated, rfl, hsort⟩ :=
      (happends' (by decide +kernel) (by decide +kernel) (Sample.page 4 none) rfl (by decide)
        (by decide +kernel) rfl).respread _ hnext' (by decide)
    exact ⟨_, db', hs, hsort⟩

end Outline
