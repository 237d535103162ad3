import Outline.Proofs.Indexed.Edits
import Outline.Proofs.Runs

/-!
# Runs of the indexed store

Every successful call makes one of the changes of a forest and leaves the indexes in agreement, so
both the agreement and the outline are there after every run that starts with nothing.

Main results:

* `Shelf.Sound.serve` — what one successful call keeps;
* `Shelf.sound_run` — what every run keeps;
* `Shelf.indexes_consistent_run` — what that means for the indexes and for listings.
-/

namespace Outline

namespace Shelf

variable {s s' : Shelf} {now : Timestamp}

/-- The indexes agree, and what they hold is an outline. -/
structure Sound (s : Shelf) : Prop where
  agrees  : s.Agrees
  outline : IsOutline s.forest

/-- An outline that evolves stays one. -/
theorem Sound.of_evolves (h : s.Sound) (h' : s'.Agrees ∧ Evolves s.forest s'.forest) : s'.Sound :=
  ⟨h'.1, h'.2.isOutline h.outline⟩

theorem forest_empty (gap : Gap) (id : Uuid) : (empty gap).forest id = none := by
  refine Option.eq_none_iff_forall_ne_some.2 fun r hr => ?_
  obtain ⟨n, -, hn, -⟩ := exists_node (agrees_empty gap) hr
  simp [Shelf.space, empty, Space.empty] at hn

/-- The empty shelf is sound. -/
theorem sound_empty (gap : Gap) : (empty gap).Sound :=
  ⟨agrees_empty gap, isOutline_of_empty (forest_empty gap)⟩

/-- A move and what it has done. -/
theorem relocate_evolves (h : s.Sound) {id : Uuid} {find : Space → Except StoreError (Option Uuid)}
    {target : Target} {n : Node} (hs : s.relocate id find target now = .ok (n, s')) :
    s'.Agrees ∧ Evolves s.forest s'.forest := by
  have ho := h.outline.rooted
  obtain ⟨r, parent, p, hr, hfind, hl, hclear, hplace⟩ := of_relocate h.agrees ho hs
  have hid : r.id = id := ho.own_id hr
  have heq := relocate_eq target now h.agrees ho hr hfind hl hclear
  rw [hplace] at heq
  obtain ⟨m, t, ht, h', -, -, hplaced⟩ := heq
  rw [hs] at ht
  cases ht
  exact ⟨h', .moved hplaced (by rw [hid, hr]) rfl hl (by rwa [hid])⟩

/-- A new node joins an outline. -/
theorem insert_evolves (h : s.Sound) {n m : Node} {entry : Entry}
    (hs : s.insert n entry now = .ok (m, s')) : s'.Agrees ∧ Evolves s.forest s'.forest := by
  obtain ⟨hcheck, hn, hl⟩ := of_insert h.agrees hs
  cases entry with
  -- at its own key, which has to be free
  | own =>
    by_cases hfree : s.KeyFree n
    · obtain ⟨m', t, stamp, ht, h', -, -, hplaced⟩ :=
        insert_own_eq now h.agrees hcheck hn hl hfree
      rw [hs] at ht
      cases ht
      exact ⟨h', .created hplaced hn rfl hl⟩
    · rw [insert_own_taken h.agrees hcheck hn hl hfree] at hs
      cases hs
  -- at the end, where there have to be keys
  | last =>
    have heq := insert_last_eq now h.agrees hcheck hn hl
    split at heq
    · rw [hs] at heq
      cases heq
    · obtain ⟨m', t, stamp, ht, h', -, -, hplaced⟩ := heq
      rw [hs] at ht
      cases ht
      exact ⟨h', .created hplaced hn rfl hl⟩

/-- An update leaves every node at its place. -/
theorem update_evolves (h : s.Sound) {id : Uuid} {patch : Patch} {m : Node}
    (hs : s.update id patch now = .ok (m, s')) : s'.Agrees ∧ Evolves s.forest s'.forest := by
  obtain ⟨n, hn, hcheck⟩ := of_update h.agrees hs
  obtain ⟨t, ht, h', -, hput⟩ := update_eq now h.agrees hn hcheck
  rw [hs] at ht
  cases ht
  have hid : n.id = id := (h.agrees.space _).own_id hn
  have hr : s.forest (n.patch patch now).record.id = some n.record :=
    forest_of_node h.agrees (hid.symm ▸ hn)
  exact ⟨h', .payload hr rfl rfl hput⟩

/-- With a node all that is below it goes. -/
theorem delete_evolves (h : s.Sound) {sp id : Uuid} {count : Nat}
    (hs : s.delete sp id = .ok (count, s')) : s'.Agrees ∧ Evolves s.forest s'.forest := by
  obtain ⟨n, hn, rfl, rfl⟩ := of_delete h.agrees hs
  obtain ⟨heq, h', hremoved⟩ := delete_eq h.agrees h.outline.rooted hn
  rw [hs] at heq
  cases heq
  exact ⟨h', .removed hremoved⟩

/-- New keys leave the order as it is. -/
theorem renumber_evolves (h : s.Sound) {group : Group} {ns : List Node}
    (hs : s.renumber group now = .ok (ns, s')) : s'.Agrees ∧ Evolves s.forest s'.forest := by
  obtain ⟨parent, members, hparent, hm⟩ := of_renumber hs
  obtain ⟨t, ht, h', -, hrekeyed⟩ := renumber_eq now h.agrees hparent hm
  rw [hs] at ht
  cases ht
  exact ⟨h', .rekeyed hrekeyed⟩

/-- A reading call gives the state back. -/
theorem of_reading {α : Type} {outcome : Except StoreError α} {a : α}
    (hs : s.reading outcome = .ok (a, s')) : s' = s := by
  obtain ⟨b, -, heq⟩ := map_eq_ok_iff.1 hs
  exact (congrArg Prod.snd heq).symm

/-- A successful call leaves the indexes in agreement and makes one change of the forest. -/
theorem serve_evolves (h : s.Sound) {c : StoreCall} {answer : c.Answer}
    (hs : store.serve c now s = .ok (answer, s')) : s'.Agrees ∧ Evolves s.forest s'.forest := by
  have hread : s' = s → s'.Agrees ∧ Evolves s.forest s'.forest := by
    rintro rfl
    exact ⟨h.agrees, .same rfl⟩
  cases c with
  | get | list | nextSort => exact hread (of_reading hs)
  | create n =>
    change s.insert n .own now = .ok (answer, s') at hs
    exact insert_evolves h hs
  | createLast n =>
    change s.insert n .last now = .ok (answer, s') at hs
    exact insert_evolves h hs
  | update id patch => exact update_evolves h hs
  | delete sp id => exact delete_evolves h hs
  | moveLast id parent =>
    change s.relocate id (fun _ => .ok parent) .last now = .ok (answer, s') at hs
    exact relocate_evolves h hs
  | moveAt id parent sort =>
    change s.relocate id (fun _ => .ok parent) (.at sort) now = .ok (answer, s') at hs
    exact relocate_evolves h hs
  | reorder id sort =>
    change s.relocate id (fun space => (space.get id).map (·.parent)) (.at sort) now =
      .ok (answer, s') at hs
    exact relocate_evolves h hs
  | moveBeside id anchor side =>
    change s.moveBeside id anchor side now = .ok (answer, s') at hs
    unfold moveBeside at hs
    split at hs
    · cases hs
    · exact relocate_evolves h hs
  | renumber group => exact renumber_evolves h hs

/-- A call that is served leaves a sound shelf. -/
theorem Sound.serve (h : s.Sound) {c : StoreCall} {answer : c.Answer}
    (hs : store.serve c now s = .ok (answer, s')) : s'.Sound :=
  h.of_evolves (serve_evolves h hs)

/-- Whatever calls are made of it, a shelf that began empty is sound. -/
theorem sound_run (gap : Gap) (calls : List (StoreCall × Timestamp)) :
    (store.run calls (empty gap)).Sound :=
  Store.run_induction (fun _ _ _ _ _ h hs => h.serve hs) calls (sound_empty gap)

/-! ## The gap -/

theorem gap_relocate (id : Uuid) (find : Space → Except StoreError (Option Uuid))
    (target : Target) (now : Timestamp) :
    LeadsTo (fun s' => s'.gap = s.gap) (s.relocate id find target now) := by
  unfold relocate
  refine .bind fun _ _ => .bind fun _ _ => .bind fun _ _ => .bind fun _ _ => .bind fun _ _ => ?_
  exact .pure rfl

theorem gap_insert (n : Node) (entry : Entry) (now : Timestamp) :
    LeadsTo (fun s' => s'.gap = s.gap) (s.insert n entry now) := by
  unfold insert
  refine .bind fun _ _ => .guard fun _ => .bind fun _ _ => .bind fun _ _ => ?_
  cases entry with
  | own => exact .bind fun _ _ => .bind fun _ _ => .bind fun _ _ => .pure rfl
  | last =>
    exact .bind fun _ _ => .bind fun _ _ => .bind fun _ _ => .bind fun _ _ => .pure rfl

/-- The gap is fixed once and for all. -/
theorem gap_serve (c : StoreCall) (now : Timestamp) :
    LeadsTo (fun s' => s'.gap = s.gap) (store.serve c now s) := by
  have hread : ∀ {α : Type} (outcome : Except StoreError α),
      LeadsTo (fun s' => s'.gap = s.gap) (s.reading outcome) :=
    fun outcome _ _ hs => congrArg gap (of_reading hs)
  cases c with
  | get | list | nextSort => exact hread _
  | create n => exact gap_insert n .own now
  | createLast n => exact gap_insert n .last now
  | update id patch =>
    show LeadsTo _ (s.update id patch now)
    exact .bind fun _ _ => .bind fun _ _ => .bind fun _ _ => .pure rfl
  | delete sp id =>
    show LeadsTo _ (s.delete sp id)
    exact .bind fun _ _ => .pure rfl
  | moveLast id parent => exact gap_relocate id (fun _ => .ok parent) .last now
  | moveAt id parent sort => exact gap_relocate id (fun _ => .ok parent) (.at sort) now
  | reorder id sort =>
    exact gap_relocate id (fun space => (space.get id).map (·.parent)) (.at sort) now
  | moveBeside id anchor side =>
    show LeadsTo _ (s.moveBeside id anchor side now)
    unfold moveBeside
    split
    · exact .error
    · exact gap_relocate id _ _ now
  | renumber group =>
    show LeadsTo _ (s.renumber group now)
    exact .bind fun _ _ => .bind fun _ _ => .bind fun _ _ => .pure rfl

/-- A store keeps its gap. -/
theorem gap_run (gap : Gap) (calls : List (StoreCall × Timestamp)) :
    (store.run calls (empty gap)).gap = gap :=
  Store.run_induction (P := fun s => s.gap = gap)
    (fun c now _ _ _ h hs => (gap_serve c now _ _ hs).trans h) calls rfl

/-! ## Listings -/

/-- The stored nodes of a group, each once, with strictly ascending keys. -/
structure Lists (s : Shelf) (group : Group) (ns : List Node) : Prop where
  ascending : ns.Pairwise (·.sort.val < ·.sort.val)
  nodup     : (ns.map (·.id)).Nodup
  mem_iff   : ∀ {n}, n ∈ ns ↔
                (s.space group.space).nodes[n.id]? = some n ∧ n.parent = group.parent

/-- The children that are listed are those of the forest, in their order. -/
theorem lists_children (h : s.Agrees) (group : Group) :
    s.Lists group ((s.space group.space).children group.parent) := by
  have hmap := Space.map_sibling_children (h.space group.space) group.parent
  have hlist := isListing_siblings h group
  refine ⟨?_, ?_, fun {n} => Space.mem_children (h.space _)⟩
  · have hasc := hlist.ascending
    rw [← hmap, Sibling.Ascending, List.pairwise_map] at hasc
    exact hasc
  · have hnodup := hlist.nodup
    rwa [← hmap, List.map_map] at hnodup

/-- What the three indexes of a shelf have to do with each other, and what is listed. -/
structure IndexesConsistent (s : Shelf) : Prop where
  place_iff   : ∀ {sp : Uuid} {parent : Option Uuid} {sort : SortKey} {id : Uuid},
                  (s.space sp).places[(⟨parent, sort⟩ : Place)]? = some id ↔
                    ∃ n, (s.space sp).nodes[id]? = some n ∧ n.parent = parent ∧ n.sort = sort
  filed       : ∀ {sp id : Uuid} {n : Node}, (s.space sp).nodes[id]? = some n →
                  n.id = id ∧ n.space = sp
  locator_iff : ∀ {sp id : Uuid}, s.locator[id]? = some sp ↔
                  ∃ n, (s.space sp).nodes[id]? = some n
  parent      : ∀ {sp p : Uuid} {sort : SortKey} {id : Uuid},
                  (s.space sp).places[(⟨some p, sort⟩ : Place)]? = some id →
                    ∃ n, (s.space sp).nodes[p]? = some n
  root_listed : ∀ sp, ∃ ns, s.list ⟨sp, none⟩ = .ok ns ∧ s.Lists ⟨sp, none⟩ ns
  listed      : ∀ {sp p : Uuid} {n : Node}, (s.space sp).nodes[p]? = some n →
                  ∃ ns, s.list ⟨sp, some p⟩ = .ok ns ∧ s.Lists ⟨sp, some p⟩ ns
  not_listed  : ∀ {sp p : Uuid}, (s.space sp).nodes[p]? = none →
                  s.list ⟨sp, some p⟩ = .error (.notFound p)

/-- Each index of a sound shelf says what its nodes say. -/
theorem Sound.indexesConsistent (h : s.Sound) : s.IndexesConsistent where
  place_iff {sp parent sort id} := by
    simp only [(h.agrees.space sp).place_iff, Node.place, Place.mk.injEq]
  filed hn := ⟨(h.agrees.space _).own_id hn, (h.agrees.space _).own_space hn⟩
  locator_iff := h.agrees.locator_iff
  parent {sp p sort id} hid := by
    -- a member is stored, so its parent is, and in the same space
    obtain ⟨m, hm, hplace⟩ := (h.agrees.space sp).place_iff.1 hid
    have hlodged := h.outline.rooted.lodged (forest_of_node h.agrees hm)
    have hp : m.record.parent = some p := congrArg Place.parent hplace
    obtain ⟨q, hq, hspace, -⟩ := hlodged.exists_parent hp
    obtain ⟨n, -, hn, -⟩ := exists_node h.agrees hq
    rw [hspace, Node.record_space, (h.agrees.space sp).own_space hm] at hn
    exact ⟨n, hn⟩
  root_listed sp := ⟨_, rfl, lists_children h.agrees ⟨sp, none⟩⟩
  listed {sp p n} hn := by
    refine ⟨_, ?_, lists_children h.agrees ⟨sp, some p⟩⟩
    simp only [list, Space.getParent, Space.get, hn]
    rfl
  not_listed {sp p} hp := by
    simp only [list, Space.getParent, Space.get, hp]
    rfl

/-- After every run the indexes agree with each other and listings are complete and in order. -/
theorem indexes_consistent_run (gap : Gap) (calls : List (StoreCall × Timestamp)) :
    (store.run calls (empty gap)).IndexesConsistent :=
  (sound_run gap calls).indexesConsistent

end Shelf

end Outline
