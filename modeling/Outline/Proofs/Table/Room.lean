import Outline.Proofs.Placement.Order
import Outline.Proofs.Table.FreeRun
import Outline.Proofs.Table.Statements

/-!
# Room for parking

The search for a run of unused keys is exact: it finds free keys, and it finds some whenever there
are any. Nothing is assumed of the used keys, neither their order nor that they differ. Counting
the stretches that the used keys leave shows that few keys always leave a long one.

So a store with few rows in a space never runs out of keys to park rows on. That is followed through
every call, over any rows, damaged ones included: where a call reports that keys have run out, it is
the allocator that says so, with the gap of the store, and not the search.

Main results:

* `freeRun?_exact` — free keys are found exactly when there are some;
* `Table.exhausts_writeKeys` — in a space with few rows the search succeeds;
* `Database.exhausts_serve` — so keys run out at the gap of the store only.
-/

namespace Outline

/-! ## What a placement asks for -/

namespace Gap

variable {gap : Gap}

/-- A placement gives keys to at most `room` members, and is refused at the gap only. -/
structure Modest (gap : Gap) (room : Nat) (outcome : Except Exhausted Placement) : Prop where
  members : ∀ members, outcome = .ok (.respread members) → members.length ≤ room
  gap     : ∀ cause, outcome = .error cause → cause.gap = gap.size.val

/-- A refusal to spread a group names the gap that it was to be spread with. -/
theorem gap_of_spread {ids : List Uuid} {cause : Exhausted} (h : gap.spread ids = .error cause) :
    cause.gap = gap.size.val := by
  unfold spread at h
  split at h
  · cases h
  · cases h
    rfl

/-- Everybody in the group gets a key. -/
theorem length_spread {ids : List Uuid} {members : List Sibling}
    (h : gap.spread ids = .ok members) : members.length = ids.length := by
  rw [← ids_spreadFrom? (spread_eq_ok h), List.length_map]

variable {left right siblings : List Sibling} {moving : Uuid} {room : Nat}

/-- A group that is spread with its new member in it is as large as the two sides and one. -/
theorem modest_respread (hroom : left.length + 1 + right.length ≤ room) :
    Modest gap room (gap.respread left moving right) := by
  unfold respread
  cases hspread : gap.spread (left.map (·.id) ++ moving :: right.map (·.id)) with
  | error cause =>
    refine ⟨fun members h => ?_, fun cause' h => ?_⟩
    · cases h
    · cases h
      exact gap_of_spread hspread
  | ok found =>
    refine ⟨fun members h => ?_, fun cause h => ?_⟩
    · cases h
      rw [length_spread hspread, List.length_append, List.length_cons, List.length_map,
        List.length_map]
      omega
    · cases h

/-- A node that is put between two sides needs no more room than that. -/
theorem modest_placeBetween (hroom : left.length + 1 + right.length ≤ room) :
    Modest gap room (gap.placeBetween left moving right) := by
  unfold placeBetween
  split
  · exact ⟨nofun, nofun⟩
  · exact modest_respread hroom

/-- Leaving the moving node out makes the group no larger. -/
theorem length_others_le (siblings : List Sibling) (moving : Uuid) :
    (Sibling.others siblings moving).length ≤ siblings.length := by
  rw [(Sibling.others_perm siblings moving).length_eq]
  exact List.length_filter_le _ _

/-- A group that is cut in two keeps its size. -/
theorem length_takeWhile_add_dropWhile (siblings : List Sibling) (p : Sibling → Bool) :
    (siblings.takeWhile p).length + (siblings.dropWhile p).length = siblings.length := by
  rw [← List.length_append, List.takeWhile_append_dropWhile]

/-- The new member is one more than the others, at a chosen key. -/
theorem modest_placeAt (siblings : List Sibling) (moving : Uuid) (target : SortKey) :
    Modest gap (siblings.length + 1) (gap.placeAt siblings moving target) := by
  have hothers := length_others_le siblings moving
  have hsplit := length_takeWhile_add_dropWhile (Sibling.others siblings moving)
    (fun m => decide (m.sort ≠ target))
  unfold placeAt
  dsimp only
  split
  · exact ⟨nofun, nofun⟩
  · exact modest_respread (by omega)

/-- And so it is beside an anchor. -/
theorem modest_placeBeside {anchor : Uuid} {side : Side} {outcome : Except Exhausted Placement}
    (h : gap.placeBeside siblings moving anchor side = some outcome) :
    Modest gap (siblings.length + 1) outcome := by
  have hothers := length_others_le siblings moving
  have hsplit := length_takeWhile_add_dropWhile (Sibling.others siblings moving)
    (fun m => decide (m.id ≠ anchor))
  unfold placeBeside at h
  dsimp only at h
  split at h
  · cases h
  · next found right hright =>
    cases h
    rw [hright, List.length_cons] at hsplit
    exact modest_placeBetween (by rw [List.length_cons]; omega)
  · next found right hright =>
    cases h
    rw [hright, List.length_cons] at hsplit
    exact modest_placeBetween (by
      rw [List.length_append, List.length_singleton]
      omega)

/-- Wherever a node is placed, at most its siblings and itself get keys. -/
theorem modest_placeIn {group : Group} {target : Target} {outcome : Except StoreError Placement}
    (h : gap.placeIn group siblings moving target = outcome) :
    (∀ members, outcome = .ok (.respread members) → members.length ≤ siblings.length + 1) ∧
      ∀ g cause, outcome = .error (.exhausted g cause) → cause.gap = gap.size.val := by
  have hmapped : ∀ {x : Except Exhausted Placement}, Modest gap (siblings.length + 1) x →
      x.mapError (.exhausted group) = outcome →
      (∀ members, outcome = .ok (.respread members) → members.length ≤ siblings.length + 1) ∧
        ∀ g cause, outcome = .error (.exhausted g cause) → cause.gap = gap.size.val := by
    rintro x hx rfl
    refine ⟨fun members hok => hx.members members (mapError_eq_ok_iff.1 hok),
      fun g cause herror => ?_⟩
    obtain ⟨cause', hcause, heq⟩ := mapError_eq_error_iff.1 herror
    cases heq
    exact hx.gap cause hcause
  cases target with
  | last =>
    have hothers := length_others_le siblings moving
    exact hmapped (modest_placeBetween (by rw [List.length_nil]; omega)) h
  | «at» sort => exact hmapped (modest_placeAt siblings moving sort) h
  | beside anchor side =>
    unfold placeIn at h
    dsimp only at h
    split at h
    · next placed hplaced => exact hmapped (modest_placeBeside hplaced) h
    -- the anchor is not in the group
    · subst h
      exact ⟨nofun, nofun⟩

end Gap

/-! ## Steps that may run out of keys -/

section Steps

variable {α β : Type} {P Q : Group → Exhausted → Prop}

/-- If keys run out, then in a group and at a gap of which `P` holds. -/
def Exhausts (P : Group → Exhausted → Prop) (outcome : Except StoreError α) : Prop :=
  ∀ group cause, outcome = .error (.exhausted group cause) → P group cause

namespace Exhausts

/-- What succeeds is not exhausted. -/
theorem ok (a : α) : Exhausts P (.ok a) := nofun

/-- A weaker cause will do. -/
theorem imp {x : Except StoreError α} (hx : Exhausts P x) (h : ∀ g cause, P g cause → Q g cause) :
    Exhausts Q x :=
  fun g cause hg => h g cause (hx g cause hg)

/-- A sequence of steps is exhausted at one of them, after the steps before it succeeded. -/
theorem bind {x : Except StoreError α} {f : α → Except StoreError β} (hx : Exhausts P x)
    (hf : ∀ a, x = .ok a → Exhausts P (f a)) : Exhausts P (x >>= f) := by
  intro group cause h
  rcases bind_eq_error_iff.1 h with hx' | ⟨a, ha, hfa⟩
  · exact hx group cause hx'
  · exact hf a ha group cause hfa

/-- A check that stops the sequence with another refusal. -/
theorem guard {c : Prop} [Decidable c] {e : StoreError} {f : PUnit → Except StoreError α}
    (he : ∀ g cause, e ≠ .exhausted g cause) (hf : Exhausts P (f ⟨⟩)) :
    Exhausts P (if c then (throw e : Except StoreError PUnit) >>= f else f ⟨⟩) := by
  split
  · intro g cause h
    exact absurd (Except.error.inj h) (he g cause)
  · exact hf

/-- A refusal that is worded as another one. -/
theorem mapError {ε : Type} {x : Except ε α} {f : ε → StoreError}
    (hf : ∀ e g cause, f e ≠ .exhausted g cause) : Exhausts P (x.mapError f) := by
  intro g cause h
  obtain ⟨e, -, he⟩ := mapError_eq_error_iff.1 h
  exact absurd he (hf e g cause)

/-- What becomes of an answer does not matter. -/
theorem map {x : Except StoreError α} (f : α → β) (hx : Exhausts P x) : Exhausts P (x.map f) :=
  fun group cause h => hx group cause (map_eq_error_iff.1 h)

/-- In a list of steps one of them is exhausted. -/
theorem mapM {f : α → Except StoreError β} {l : List α} (hf : ∀ a, Exhausts P (f a)) :
    Exhausts P (l.mapM f) := by
  intro group cause h
  obtain ⟨a, -, ha⟩ := exists_of_mapM_eq_error h
  exact hf a group cause ha

/-- A record that is at fault is no shortage of keys. -/
theorem ofFault (x : Except RecordFault α) : Exhausts P (StoreError.ofFault x) :=
  mapError nofun

end Exhausts

end Steps

open Exhausts (ofFault)

namespace Table

variable {t : Table} {P : Group → Exhausted → Prop}

/-! ## Reading rows -/

/-- Looking up takes no key, so it runs out of none. -/
theorem exhausts_fetch (id : Uuid) : Exhausts P (t.fetch id) := by
  unfold fetch
  split
  · exact ofFault _
  · exact nofun

/-- Nor does the look-up of a parent. -/
theorem exhausts_fetchParent (parent : Option Uuid) : Exhausts P (t.fetchParent parent) := by
  cases parent with
  | none => exact .ok none
  | some id => exact (exhausts_fetch id).map some

/-- Nor the look-up of a group. -/
theorem exhausts_fetchChildren (group : Group) : Exhausts P (t.fetchChildren group) :=
  .mapM fun r => ofFault r.toNode

/-- Nor reading its keys. -/
theorem exhausts_siblings (group : Group) : Exhausts P (t.siblings group) :=
  .mapM fun r => (ofFault r.readId).map _

/-- A group is no larger than its space. -/
theorem length_of_siblings {group : Group} {members : List Sibling}
    (h : t.siblings group = .ok members) : members.length ≤ t.countSpace group.space := by
  have hmapM : ∀ {rows : List Row} {ms : List Sibling},
      (rows.mapM fun r => (StoreError.ofFault r.readId).map (⟨·, r.sort⟩ : Uuid → Sibling)) =
        .ok ms → ms.length = rows.length := by
    intro rows
    induction rows with
    | nil =>
      intro ms h
      cases h
      rfl
    | cons r rows ih =>
      intro ms h
      rw [List.mapM_cons] at h
      obtain ⟨m, -, h⟩ := bind_eq_ok_iff.1 h
      obtain ⟨rest, hrest, h⟩ := bind_eq_ok_iff.1 h
      cases h
      rw [List.length_cons, List.length_cons, ih hrest]
  rw [hmapM h, select, List.length_mergeSort, ← List.countP_eq_length_filter, countSpace]
  refine List.countP_mono_left fun r _ hr => ?_
  simp only [decide_eq_true_eq] at hr ⊢
  exact hr.1

/-! ## Writing keys -/

/-- Reading the keys of the members that stay takes none either. -/
theorem exhausts_usedKeys (group : Group) (keys : List Sibling) (mover : Option Mover) :
    Exhausts P (t.usedKeys group keys mover) := by
  unfold usedKeys
  refine .bind (exhausts_siblings group) fun here _ => ?_
  cases mover with
  | none => exact .ok _
  | some m =>
    dsimp only
    split
    · exact .ok _
    · exact .bind (exhausts_siblings _) fun there _ => .ok _

/-- The used keys are those to be written and those of at most two groups. -/
theorem length_of_usedKeys {group : Group} {keys : List Sibling} {mover : Option Mover}
    {used : List SortKey} (h : t.usedKeys group keys mover = .ok used) :
    used.length ≤ keys.length + 2 * t.countSpace group.space := by
  unfold usedKeys at h
  obtain ⟨here, hhere, h⟩ := bind_eq_ok_iff.1 h
  have hlen := length_of_siblings hhere
  have hgroups : ∀ {there : List Sibling}, there.length ≤ t.countSpace group.space →
      ((keys ++ here ++ there).map (·.sort)).length ≤
        keys.length + 2 * t.countSpace group.space := by
    intro there hthere
    rw [List.length_map, List.length_append, List.length_append]
    omega
  cases mover with
  | none =>
    cases h
    exact hgroups (Nat.zero_le _)
  | some m =>
    dsimp only at h
    split at h
    · cases h
      exact hgroups (Nat.zero_le _)
    · obtain ⟨there, hthere, h⟩ := bind_eq_ok_iff.1 h
      cases h
      have hlen' := length_of_siblings hthere
      exact hgroups hlen'

/-- Updates with given keys are refused for a slot that is taken, not for want of keys. -/
theorem exhausts_write (group : Group) (ws : List KeyWrite) (t : Table) :
    Exhausts P (t.write group ws) := by
  induction ws generalizing t with
  | nil => exact .ok t
  | cons w rest ih =>
    unfold write
    split
    · exact ih _
    · exact nofun

/-- There is no room to park the rows of a group on in a space with very many rows only. -/
theorem exhausts_writeKeys {group : Group} {keys : List Sibling} (mover : Option Mover)
    (now : Timestamp) (hkeys : keys.length ≤ t.countSpace group.space + 1) :
    Exhausts (fun g _ => g = group ∧ 2 ^ 31 ≤ t.countSpace group.space)
      (t.writeKeys group keys mover now) := by
  refine .bind ?_ fun ws _ => exhausts_write group ws t
  unfold writes
  split
  · exact .ok _
  · next hmany =>
    refine .bind (exhausts_usedKeys group keys mover) fun used hused => ?_
    split
    · exact .ok _
    · next hnone =>
      intro g cause h
      cases h
      refine ⟨rfl, ?_⟩
      by_contra hroom
      -- at most three used keys for each row of the space
      have hlen := length_of_usedKeys hused
      have hfits : (used.length + 1) * keys.length ≤ 3 * 2 ^ 31 * 2 ^ 31 :=
        Nat.mul_le_mul (by omega) (by omega)
      obtain ⟨start, hstart⟩ : ∃ start, freeRun? used keys.length = some start :=
        freeRun?_isSome (by omega) (by omega) (Nat.le_trans hfits (by decide))
      rw [hnone] at hstart
      cases hstart

/-! ## Calls -/

/-- Keys run out at the gap of the store, or in a space with very many rows. -/
def OutOfKeys (t : Table) (gap : Gap) (group : Group) (cause : Exhausted) : Prop :=
  t.countSpace group.space < 2 ^ 31 → cause.gap = gap.size.val

section Calls

variable (gap : Gap) (now : Timestamp)

/-- New keys for a group whose members are all in the space, but for one who moves into it. -/
theorem exhausts_parked {group : Group} {keys : List Sibling} (mover : Option Mover)
    (hkeys : keys.length ≤ t.countSpace group.space + 1) :
    Exhausts (t.OutOfKeys gap) (t.writeKeys group keys mover now) :=
  (exhausts_writeKeys mover now hkeys).imp fun _ _ hmany hfew => by
    obtain ⟨rfl, hmany⟩ := hmany
    omega

/-- The checks of a new node look nodes up. -/
theorem exhausts_checkNew (n : Node) : Exhausts P (t.checkNew n) :=
  .bind (.mapError nofun) fun _ _ =>
    .bind (exhausts_fetchParent n.parent) fun _ _ => .mapError nofun

/-- A node that goes in brings its key along. -/
theorem exhausts_insertNode (n : Node) (u : Table) : Exhausts P (u.insertNode n) :=
  .mapError fun conflict g cause => by cases conflict <;> exact nofun

/-- Where a placement runs out, the members and the gap are what it reports. -/
theorem exhausts_placeIn {group : Group} (siblings : List Sibling) (id : Uuid) (target : Target) :
    Exhausts (t.OutOfKeys gap) (gap.placeIn group siblings id target) :=
  fun g cause h _ => (Gap.modest_placeIn h).2 g cause rfl

/-- A node at the end of its group. -/
theorem exhausts_createLast (n : Node) : Exhausts (t.OutOfKeys gap) (t.createLast gap n now) := by
  refine .bind (exhausts_checkNew n) fun _ _ => ?_
  refine .bind (exhausts_siblings n.group) fun siblings hsiblings => ?_
  refine .bind (exhausts_placeIn gap siblings n.id .last) fun placement hplace => ?_
  have hlen := length_of_siblings hsiblings
  cases placement with
  | key sort => exact .bind (.ok t) fun u _ => .bind (exhausts_insertNode _ u) fun _ _ => .ok _
  | respread members =>
    have hmembers := (Gap.modest_placeIn hplace).1 members rfl
    have hfilter := List.length_filter_le (fun m : Sibling => decide (m.id ≠ n.id)) members
    exact .bind (exhausts_parked gap now none (by omega)) fun u _ =>
      .bind (exhausts_insertNode _ u) fun _ _ => .ok _

/-- The check for cycles looks nodes up. -/
theorem exhausts_checkClimb (n : Node) (id : Uuid) (parent : Option Uuid) :
    Exhausts P (t.checkClimb n id parent) := by
  cases parent with
  | none => exact .ok ()
  | some p => exact .bind (.mapM fun r => ofFault _) fun _ _ => .mapError nofun

/-- A move, wherever it goes. -/
theorem exhausts_relocate (id : Uuid) (parent : Option Uuid) (target : Target) :
    Exhausts (t.OutOfKeys gap) (t.relocate gap id parent target now) := by
  refine .bind (exhausts_fetch id) fun n _ => .bind (exhausts_fetchParent parent) fun _ _ => ?_
  refine .bind (.mapError nofun) fun _ _ => .bind (exhausts_checkClimb n id parent) fun _ _ => ?_
  refine .bind (exhausts_siblings _) fun siblings hsiblings => ?_
  refine .bind (exhausts_placeIn gap siblings id target) fun placement hplace => ?_
  have hlen := length_of_siblings hsiblings
  refine .bind (exhausts_parked gap now _ ?_) fun u _ => .bind (exhausts_fetch id) fun _ _ => .ok _
  cases placement with
  | key sort => exact Nat.le_add_left 1 _
  | respread members =>
    have hmembers := (Gap.modest_placeIn hplace).1 members rfl
    show members.length ≤ _
    omega

/-- New keys for a group in its present order. -/
theorem exhausts_renumber (group : Group) :
    Exhausts (t.OutOfKeys gap) (t.renumber gap group now) := by
  refine .bind (exhausts_fetchParent group.parent) fun _ _ => ?_
  refine .bind (exhausts_siblings group) fun siblings hsiblings => ?_
  have hlen := length_of_siblings hsiblings
  refine .bind (fun g cause h _ => ?_) fun members hmembers => ?_
  · obtain ⟨cause', hcause, heq⟩ := mapError_eq_error_iff.1 h
    cases heq
    exact Gap.gap_of_spread hcause
  · have hcompact := Gap.length_spread (mapError_eq_ok_iff.1 hmembers)
    rw [List.length_map, Sibling.sorted, List.length_mergeSort] at hcompact
    exact .bind (exhausts_parked gap now none (by omega)) fun u _ =>
      .bind (exhausts_fetchChildren group) fun _ _ => .ok _

/-- A listing looks nodes up. -/
theorem exhausts_list (group : Group) : Exhausts P (t.list group) := by
  refine .bind (exhausts_fetchParent group.parent) fun parent _ => ?_
  cases parent with
  | none => exact exhausts_fetchChildren group
  | some n => exact .guard nofun (exhausts_fetchChildren group)

/-- The key for the next member is sought in the group as it is. -/
theorem exhausts_nextSort (group : Group) : Exhausts (t.OutOfKeys gap) (t.nextSort gap group) := by
  unfold nextSort
  dsimp only
  split
  · exact .ok _
  · intro g cause h _
    cases h
    rfl

/-- A move beside an anchor is a move once the anchor is found. -/
theorem exhausts_moveBeside (id anchor : Uuid) (side : Side) :
    Exhausts (t.OutOfKeys gap) (t.moveBeside gap id anchor side now) := by
  unfold moveBeside
  refine Exhausts.guard ?_ ?_
  · exact nofun
  · refine .bind (exhausts_fetch id) fun n _ => .bind (exhausts_fetch anchor) fun m _ => ?_
    refine Exhausts.guard ?_ (exhausts_relocate gap now id m.parent (.beside anchor side))
    exact nofun

end Calls

end Table

namespace Database

/-- Whatever is asked of whatever rows, keys run out at the gap of the store: parking rows never
needs more keys than there are. -/
theorem exhausts_serve (db : Database) (c : StoreCall) (now : Timestamp) :
    Exhausts (db.rows.OutOfKeys db.gap) (serve c now db) := by
  -- only what places a node or renumbers a group asks for keys
  cases c with
  | get id => exact (Table.exhausts_fetch id).map _
  | create n =>
    exact (Exhausts.bind (Table.exhausts_checkNew n) fun _ _ =>
      .bind (Table.exhausts_insertNode n db.rows) fun _ _ => .ok _).map _
  | createLast n => exact (Table.exhausts_createLast db.gap now n).map _
  | update id patch =>
    exact (Exhausts.bind (Table.exhausts_fetch id) fun _ _ =>
      .bind (.mapError nofun) fun _ _ => .ok _).map _
  | delete space id =>
    refine Exhausts.map _ (.bind (Table.exhausts_fetch id) fun n _ => Exhausts.guard ?_ (.ok _))
    exact nofun
  | list group => exact (Table.exhausts_list group).map _
  | nextSort group => exact (Table.exhausts_nextSort db.gap group).map _
  | moveLast id parent => exact (Table.exhausts_relocate db.gap now id parent .last).map _
  | moveAt id parent sort => exact (Table.exhausts_relocate db.gap now id parent (.at sort)).map _
  | reorder id sort =>
    exact (Exhausts.bind (Table.exhausts_fetch id) fun n _ =>
      Table.exhausts_relocate db.gap now id n.parent (.at sort)).map _
  | moveBeside id anchor side =>
    exact (Table.exhausts_moveBeside db.gap now id anchor side).map _
  | renumber group => exact (Table.exhausts_renumber db.gap now group).map _

end Database

/-! ## The search is exact -/

/-- What the search reckons without asking whether it fits: in 64 bits the opposite of the count and
the keys behind used ones, in 128 the differences of used keys. -/
structure SearchFits (used : List SortKey) (count : Nat) : Prop where
  opposite    : ∃ k, SortKey.ofInt? (-count) = some k
  differences : ∀ a ∈ used, ∀ b ∈ used, -2 ^ 127 ≤ b.val - a.val ∧ b.val - a.val < 2 ^ 127
  between     : ∀ a, firstRoom? count (used.map (·.val)).mergeSort = some a →
                  ∃ k, SortKey.ofInt? (a + 1) = some k
  behind      : ∀ last ∈ used, (∃ top, SortKey.ofInt? (last.val + count) = some top) →
                  ∃ k, SortKey.ofInt? (last.val + 1) = some k

/-- A run of less than half of all keys is sought without leaving the machine integers. -/
theorem searchFits (used : List SortKey) {count : Nat} (hpos : 0 < count)
    (hcount : count < 2 ^ 63) : SearchFits used count where
  opposite := SortKey.exists_ofInt? (by omega) (by omega)
  differences a _ b _ := by
    have ha := a.ge_min
    have ha' := a.lt_max
    have hb := b.ge_min
    have hb' := b.lt_max
    omega
  between _ ha := exists_behind_of_firstRoom? (by omega) ha
  behind last _ := by
    rintro ⟨top, htop⟩
    have hval := SortKey.ofInt?_eq_some_iff.1 htop
    have hmin := last.ge_min
    have hmax := top.lt_max
    exact SortKey.exists_ofInt? (by omega) (by omega)

/-- The search finds free keys, misses none, and leaves the range of numbers nowhere. Few used keys
always leave a run, so in a space with few rows keys are always found to park on, and a store of
rows runs out of keys at its own gap only. -/
theorem freeRun?_exact :
    (∀ (used : List SortKey) (count : Nat), 0 < count → count < 2 ^ 63 →
      (∀ start, freeRun? used count = some start → FreeRun used count start) ∧
      (freeRun? used count = none → ∀ start, ¬FreeRun used count start) ∧
      ((used.length + 1) * count ≤ 2 ^ 64 → ∃ start, freeRun? used count = some start) ∧
      SearchFits used count) ∧
    (∀ (t : Table) (group : Group) (keys : List Sibling) (mover : Option Mover) (now : Timestamp),
      t.countSpace group.space < 2 ^ 31 → keys.length ≤ t.countSpace group.space + 1 →
      ∀ g cause, t.writeKeys group keys mover now ≠ .error (.exhausted g cause)) ∧
    ∀ (db : Database) (c : StoreCall) (now : Timestamp) (g : Group) (cause : Exhausted),
      Database.serve c now db = .error (.exhausted g cause) →
      db.rows.countSpace g.space < 2 ^ 31 → cause.gap = db.gap.size.val := by
  refine ⟨fun used count hpos hcount => ⟨fun start h => freeRun?_free h, fun hnone start h => ?_,
    freeRun?_isSome hpos hcount, searchFits used hpos hcount⟩,
    fun t group keys mover now hroom hkeys g cause h => ?_,
    fun db c now g cause => db.exhausts_serve c now g cause⟩
  · obtain ⟨found, hfound⟩ := freeRun?_of_free hpos hcount h
    rw [hnone] at hfound
    cases hfound
  · have hmany := (Table.exhausts_writeKeys mover now hkeys g cause h).2
    omega

namespace Sample

/-- Keys at both ends, one of them twice. -/
def ends : List SortKey :=
  [key (-2 ^ 63), key (-2 ^ 63 + 2), key (-2 ^ 63 + 2), key (2 ^ 63 - 1)]

/-- Two keys in the middle that leave nowhere room for almost half of all keys. -/
def middle : List SortKey :=
  [key (-2), key 1]

end Sample

/-- There is room between the keys at both ends, and none for almost half of all keys around the
middle. A group with the largest key has no next one; the refusal names its size and the gap. -/
theorem freeRun?_exact_ends :
    FreeRun Sample.ends 2 (Sample.key (-2 ^ 63 + 3)) ∧
    (∀ start, ¬FreeRun Sample.middle (2 ^ 63 - 1) start) ∧
    (∀ g cause, Table.writeKeys Sample.rows Sample.roots Sample.newKeys (some Sample.enters)
      Sample.time ≠ .error (.exhausted g cause)) ∧
    Database.serve (.nextSort Sample.roots) Sample.time ⟨.standard, Sample.rows⟩ =
      .error (.exhausted Sample.roots ⟨2, 1000⟩) ∧
    (1000 : Int) = Gap.standard.size.val := by
  obtain ⟨hsearch, hwrite, hserve⟩ := freeRun?_exact
  obtain ⟨hfree, -, -, -⟩ := hsearch Sample.ends 2 (by decide) (by decide)
  obtain ⟨-, hnone, -, -⟩ := hsearch Sample.middle (2 ^ 63 - 1) (by decide) (by decide)
  -- keys that are sorted already, and rows that are, stay as they are
  have hends : freeRun? Sample.ends 2 = some (Sample.key (-2 ^ 63 + 3)) := by
    rw [freeRun?, List.mergeSort_of_pairwise (by decide +kernel)]
    decide +kernel
  have hmiddle : freeRun? Sample.middle (2 ^ 63 - 1) = none := by
    rw [freeRun?, List.mergeSort_of_pairwise (by decide +kernel)]
    decide +kernel
  have hroots : Table.select Sample.rows Sample.roots = Sample.rows.take 2 :=
    (List.mergeSort_of_pairwise (by decide +kernel)).trans (by decide +kernel)
  have hout : Database.serve (.nextSort Sample.roots) Sample.time ⟨.standard, Sample.rows⟩ =
      .error (.exhausted Sample.roots ⟨2, 1000⟩) := by
    rw [Database.serve, Table.nextSort, hroots]
    rfl
  exact ⟨hfree _ hends, hnone hmiddle,
    hwrite _ _ _ _ _ (by decide +kernel) (by decide +kernel), hout,
    hserve _ _ _ _ _ hout (by decide +kernel)⟩

end Outline
