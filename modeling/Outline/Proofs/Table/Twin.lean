import Outline.Proofs.Table.Answers

/-!
# A new node whose identifier is taken

The table keeps no two rows with one identifier, so a new node is refused when a stored one, its
twin, has its identifier already. Yet the end of the group is looked for as if the twin were not
there, since a node that is placed is no sibling of itself. A twin that stands in the group may
therefore hold a key that the placement gives out, to the new node or to one of the others, and the
table runs into that key before it comes to the identifier.

The argument takes the twin out of the forest. What the placement asks for can be written there, so
in the forest with the twin the twin is the only obstacle, and it is met exactly when its key is one
of those given out.

Main results:

* `Table.Holds.write_clash` — updates stop at the one that would give a row the key of a row that
  they leave alone;
* `Table.Holds.createLast_twin` — what the table makes of a new node that has a twin.
-/

namespace Outline

/-! ## Without one record -/

namespace Forest

variable {π τ : Type}

/-- The forest without one of its records, if it is there. -/
def without (f : Forest π τ) (id : Uuid) : Forest π τ :=
  fun a => if a = id then none else f a

@[simp] theorem without_self (f : Forest π τ) (id : Uuid) : f.without id id = none :=
  if_pos rfl

theorem without_eq_some_iff {f : Forest π τ} {id a : Uuid} {r : Record π τ} :
    f.without id a = some r ↔ a ≠ id ∧ f a = some r := by
  unfold without
  split
  · next ha => simp [ha]
  · next ha => simp [ha]

/-- A record is changed in the same way whether another one is there or not. -/
theorem without_alter (f : Forest Row.Payload String) (id a : Uuid) (change : Line → Line) :
    (f.alter a change).without id = (f.without id).alter a change := by
  funext b
  by_cases hid : b = id
  · simp [without, alter, hid]
  · simp [without, alter, hid]

theorem without_assign (f : Forest Row.Payload String) (id : Uuid) (ws : List KeyWrite) :
    (f.assign ws).without id = (f.without id).assign ws := by
  funext b
  by_cases hid : b = id
  · rw [hid, without_self, assign]
    split <;> simp
  · simp [without, assign, hid]

theorem without_settle (f : Forest Row.Payload String) (id : Uuid) (group : Group)
    (keys : List Sibling) (stamp : String) :
    (f.settle group keys stamp).without id = (f.without id).settle group keys stamp := by
  funext b
  by_cases hid : b = id
  · rw [hid, without_self, settle]
    split <;> simp
  · simp [without, settle, hid]

end Forest

/-- A placement does not look at the node that is placed. -/
theorem Placing.without {π τ : Type} {f : Forest π τ} {group : Group} {id : Uuid} {p : Placement}
    {left right : List Sibling} (hp : Placing f group id p left right) :
    Placing (f.without id) group id p left right := by
  obtain ⟨members, hlist, hparts⟩ := hp.listing
  refine ⟨⟨members.filter (·.id ≠ id), ⟨hlist.ascending.filter _, fun {m} => ?_⟩, ?_⟩, hp.puts⟩
  · rw [List.mem_filter, hlist.mem_iff, decide_eq_true_eq]
    simp only [Forest.without_eq_some_iff, and_assoc, exists_and_left]
    exact and_comm
  · rw [hparts, List.filter_filter]
    simp

/-! ## Updates around one record -/

variable {f : Forest Row.Payload String} {q : Line}

/-- The update would give a record the group and the key of `q`. -/
def KeyWrite.Meets (f : Forest Row.Payload String) (q : Line) (w : KeyWrite) : Prop :=
  ∃ l, f w.id = some l ∧ (w.changed l).group = q.group ∧ w.sort = q.sort

/-- Updates that are free but for a record that they do not meet are free. -/
theorem Writable.of_without (hq : f q.id = some q) {ws : List KeyWrite}
    (hw : Writable (f.without q.id) ws) (hclear : ∀ w ∈ ws, ¬w.Meets f q) : Writable f ws := by
  have hstored : ∀ {w}, w ∈ ws → w.id ≠ q.id ∧ ∃ l, f w.id = some l := by
    intro w hmem
    obtain ⟨l, hl⟩ := hw.stored hmem
    obtain ⟨hne, hl⟩ := Forest.without_eq_some_iff.1 hl
    exact ⟨hne, l, hl⟩
  have hlift : ∀ {w l}, w ∈ ws → f w.id = some l → f.without q.id w.id = some l :=
    fun hmem hl => Forest.without_eq_some_iff.2 ⟨(hstored hmem).1, hl⟩
  refine ⟨hw.ids, fun hmem => (hstored hmem).2, fun {w l q'} hmem hl hq' hne hgroup hsort => ?_,
    fun hmem hmem' hne hl hl' => hw.new hmem hmem' hne (hlift hmem hl) (hlift hmem' hl')⟩
  by_cases hid : q'.id = q.id
  · rw [hid, hq] at hq'
    obtain rfl := Option.some.inj hq'
    exact hclear w hmem ⟨l, hl, hgroup.symm, hsort.symm⟩
  · exact hw.old hmem (hlift hmem hl) (Forest.without_eq_some_iff.2 ⟨hid, hq'⟩) hne hgroup hsort

namespace Table.Holds

variable {t : Table} (h : t.Holds f)
include h

/-- Updates that are free but for one record stop at the first that meets it. -/
theorem write_clash (hq : f q.id = some q) {ws : List KeyWrite}
    (hw : Writable (f.without q.id) ws) (hmeets : ∃ w ∈ ws, w.Meets f q) (group : Group) :
    t.write group ws = .error (.duplicateSort group q.sort) := by
  -- before that, each update leaves a table in which the rest is free but for the record
  induction ws generalizing t f with
  | nil =>
    obtain ⟨w, hmem, -⟩ := hmeets
    cases hmem
  | cons w ws ih =>
    obtain ⟨l, hl⟩ := hw.stored (w := w) (by simp)
    obtain ⟨hne, hl⟩ := Forest.without_eq_some_iff.1 hl
    by_cases hhit : (w.changed l).group = q.group ∧ w.sort = q.sort
    · have htaken : t.update? w.id.toText w.change = none := by
        refine Table.update?_eq_none_iff.2 ⟨l.row, h.find_some hl, q.row, h.mem_iff.2 hq, ?_, ?_⟩
        · rw [Record.row_id, ne_eq, Uuid.toText_inj]
          exact Ne.symm hne
        · rw [w.change_row]
          exact Row.slot_row_eq_iff.2 ⟨hhit.1.symm, hhit.2.symm⟩
      rw [write, htaken, hhit.2]
    · have hclear : ¬w.Meets f q := by
        rintro ⟨l', hl', hmeet⟩
        rw [hl] at hl'
        obtain rfl := Option.some.inj hl'
        exact hhit hmeet
      have hfirst : Writable f [w] :=
        (hw.sublist (List.singleton_sublist.2 (by simp))).of_without hq (by simpa using hclear)
      have hupdate := h.update?_eq hl w.change_row fun q' hq' hne' hgroup =>
        hfirst.old (List.mem_singleton.2 rfl) hl hq' hne' hgroup
      have hwrest : ∀ {w'}, w' ∈ ws → w'.id ≠ w.id := fun hmem heq =>
        (List.nodup_cons.1 hw.ids).1 (List.mem_map.2 ⟨_, hmem, heq⟩)
      rw [write, hupdate]
      refine ih (h.edit w.change_row fun _ => rfl) ?_ ?_ ?_
      · rw [Forest.alter, if_neg (Ne.symm hne), hq]
      · rw [Forest.without_alter]
        exact hw.tail
      · obtain ⟨w', hmem, hmeet⟩ := hmeets
        rcases List.mem_cons.1 hmem with rfl | hmem
        · exact absurd hmeet hclear
        · obtain ⟨l', hl', hmeet⟩ := hmeet
          exact ⟨w', hmem, l', by rw [Forest.alter, if_neg (hwrest hmem), hl'], hmeet⟩

end Table.Holds

/-! ## Keys around the twin -/

section Keys

variable {group : Group} {keys : List Sibling}

/-- The twin stands in the group and has one of the keys. -/
def Record.InTheWay (q : Line) (group : Group) (keys : List Sibling) : Prop :=
  q.group = group ∧ q.sort ∈ keys.map (·.sort)

/-- The twin is in the way of some members, or of the one that stands for itself. -/
theorem Record.inTheWay_iff (q : Line) (group : Group) {members : List Sibling} {id : Uuid}
    {sort : SortKey} (hnodup : (members.map (·.id)).Nodup) (hsort : ⟨id, sort⟩ ∈ members) :
    q.InTheWay group members ↔
      q.InTheWay group (members.filter (·.id ≠ id)) ∨ q.group = group ∧ q.sort = sort := by
  constructor
  · rintro ⟨hgroup, hin⟩
    obtain ⟨m, hm, hqsort⟩ := List.mem_map.1 hin
    by_cases hid : m.id = id
    · obtain rfl : m = ⟨id, sort⟩ := List.inj_on_of_nodup_map hnodup hm hsort hid
      exact .inr ⟨hgroup, hqsort.symm⟩
    · exact .inl ⟨hgroup, List.mem_map.2 ⟨m, List.mem_filter.2 ⟨hm, decide_eq_true hid⟩, hqsort⟩⟩
  · rintro (⟨hgroup, hin⟩ | ⟨hgroup, rfl⟩)
    · exact ⟨hgroup, (List.filter_sublist.map _).subset hin⟩
    · exact ⟨hgroup, List.mem_map.2 ⟨_, hsort, rfl⟩⟩

/-- Keys that may be given but for the twin may be given when it is not in the way. -/
theorem Rewrites.of_without (hq : f q.id = some q)
    (hr : Rewrites (f.without q.id) group keys none) (hway : ¬q.InTheWay group keys) :
    Rewrites f group keys none := by
  refine ⟨hr.sorts, hr.nodup, fun hm => ?_, fun {m q'} hm hq' hgroup hid => ?_⟩
  · obtain ⟨l, hl, hplace⟩ := hr.stored hm
    exact ⟨l, (Forest.without_eq_some_iff.1 hl).2, hplace⟩
  · by_cases heq : q'.id = q.id
    · rw [heq, hq] at hq'
      obtain rfl := Option.some.inj hq'
      exact fun hsort => hway ⟨hgroup, hsort ▸ List.mem_map_of_mem hm⟩
    · exact hr.free hm (Forest.without_eq_some_iff.2 ⟨heq, hq'⟩) hgroup hid

/-- Without a mover the keys are for members of the group. -/
theorem Rewrites.group_eq {g : Forest Row.Payload String} (hr : Rewrites g group keys none)
    {m : Sibling} {l : Line} (hm : m ∈ keys) (hl : g m.id = some l) : l.group = group := by
  obtain ⟨l', hl', hspace, hparent⟩ := hr.stored hm
  rw [hl] at hl'
  obtain rfl := Option.some.inj hl'
  rcases hparent with hparent | ⟨mv, hmv, -⟩
  · rw [Record.group, hspace, hparent]
  · cases hmv

theorem Rewrites.id_not_mem {id : Uuid} (hr : Rewrites (f.without id) group keys none) :
    id ∉ keys.map (·.id) := by
  intro hin
  obtain ⟨m, hm, hid⟩ := List.mem_map.1 hin
  obtain ⟨l, hl, -⟩ := hr.stored hm
  exact (Forest.without_eq_some_iff.1 hl).1 hid

/-- Where the twin is in the way, the row whose key it has cannot be settled. -/
theorem Rewrites.settling_meets {g : Forest Row.Payload String} (hr : Rewrites g group keys none)
    (hway : q.InTheWay group keys) {f : Forest Row.Payload String}
    (hsame : SameButKeys g f keys) (now : Timestamp) :
    ∃ w ∈ Table.settling group keys none now, w.Meets f q := by
  obtain ⟨hgroup, hsort⟩ := hway
  obtain ⟨m, hm, hsort⟩ := List.mem_map.1 hsort
  obtain ⟨l, hl, -⟩ := hr.stored hm
  obtain ⟨sort, hf⟩ := hsame hm hl
  exact ⟨_, List.mem_map.2 ⟨m, hm, rfl⟩, _, hf, (hr.group_eq hm hl).trans hgroup.symm, hsort⟩

namespace Table.Holds

variable {t : Table} (h : t.Holds f) (hk : KeysDistinct f) (hq : f q.id = some q)
include h hk hq

/-- The keys cannot be written when the twin is in the way, once the rows are parked. -/
theorem writeKeys_clash (hr : Rewrites (f.without q.id) group keys none)
    (hway : q.InTheWay group keys)
    (hpark : ¬keys.length ≤ 1 →
      ∃ start, freeRun? (t.inUse group keys none) keys.length = some start) (now : Timestamp) :
    t.writeKeys group keys none now = .error (.duplicateSort group q.sort) := by
  by_cases hone : keys.length ≤ 1
  · have hstay : SameButKeys (f.without q.id) f keys :=
      fun _ hl => ⟨_, (Forest.without_eq_some_iff.1 hl).2⟩
    rw [writeKeys, writes_lone hone, bind_ok]
    exact h.write_clash hq (writable_lone hr now hone) (hr.settling_meets hway hstay now) group
  obtain ⟨start, hrun⟩ := hpark hone
  have hfree := freeRun?_free hrun
  have hused : ∀ {q'}, f q'.id = some q' → q'.group = group →
      q'.sort ∈ t.inUse group keys none := by
    intro q' hq' hgroup
    have hlisted : ⟨q'.id, q'.sort⟩ ∈ t.members group :=
      (h.isListing_members hk group).mem_iff.2 ⟨q', hq', hgroup, rfl⟩
    exact List.mem_map.2 ⟨⟨q'.id, q'.sort⟩, by simp [hlisted], rfl⟩
  -- the twin does not hinder parking, since its key is in use
  have hparking : Writable f (parking start keys) := by
    refine (writable_parking hr hfree fun {m l q'} hm hl hq' hgroup => ?_).of_without hq
      fun w hw => ?_
    · exact hused (Forest.without_eq_some_iff.1 hq').2 (hgroup.trans (hr.group_eq hm hl))
    · rintro ⟨l, -, -, hsort⟩
      exact (parking_free hfree hw).2 (hsort ▸ hused hq hway.1)
  obtain ⟨t₁, ht₁, hh₁, -⟩ := h.write_eq hparking group
  have hq₁ : f.assign (parking start keys) q.id = some q := by
    rw [Forest.assign_of_not_mem, hq]
    rw [ids_parking hfree]
    exact hr.id_not_mem
  -- parked, the others are still to be settled around it
  have hsame : SameButKeys (f.without q.id) (f.assign (parking start keys)) keys := by
    intro m l hm hl
    obtain ⟨sort, -, hparked⟩ := assign_parking_of_mem hr hfree hm hl
    rw [← Forest.without_assign, Forest.without_eq_some_iff] at hparked
    exact ⟨sort, hparked.2⟩
  have hclash := hh₁.write_clash hq₁
    (by rw [Forest.without_assign]; exact (writable_settling_parked hr now hfree).1)
    (hr.settling_meets hway hsame now) group
  rw [writeKeys, h.writes_parked hone hrun now, bind_ok, write_append, ht₁]
  exact hclash

end Table.Holds

end Keys

/-! ## The new node -/

namespace Table

/-- What a table answers to a new node for the end of `group`, if the stored record `twin` has its
identifier. -/
inductive TwinAnswer (t : Table) (gap : Gap) (group : Group) (twin : Line) : StoreError → Prop
  /-- The others in the group and the new node are too many for the keys that there are. -/
  | full {cause : Exhausted} : gap.placeLast (t.members group) twin.id = .error cause →
      TwinAnswer t gap group twin (.exhausted group cause)
  /-- The twin stands in the group and has a key that is given out. -/
  | clash {p : Placement} : gap.placeLast (t.members group) twin.id = .ok p →
      twin.InTheWay group (p.written twin.id) →
        TwinAnswer t gap group twin (.duplicateSort group twin.sort)
  /-- The twin is found out by its identifier. -/
  | known {p : Placement} : gap.placeLast (t.members group) twin.id = .ok p →
      ¬twin.InTheWay group (p.written twin.id) →
        TwinAnswer t gap group twin (.invalidRecord (.alreadyExists twin.id))
  /-- The group is to be respread, and the space is too full to park its rows. -/
  | crowded {members : List Sibling} :
      gap.placeLast (t.members group) twin.id = .ok (.respread members) →
        2 ^ 31 ≤ t.countSpace group.space → TwinAnswer t gap group twin
          (.exhausted group ⟨(members.filter (·.id ≠ twin.id)).length, 0⟩)

/-- With a lone key the twin is in the way when it has that key. -/
theorem TwinAnswer.eq_of_key {t : Table} {gap : Gap} {group : Group} {twin : Line}
    {e : StoreError} (h : t.TwinAnswer gap group twin e) {sort : SortKey}
    (hplace : gap.placeLast (t.members group) twin.id = .ok (.key sort)) :
    e = if twin.group = group ∧ twin.sort = sort then .duplicateSort group twin.sort
      else .invalidRecord (.alreadyExists twin.id) := by
  have hway : twin.InTheWay group ((Placement.key sort).written twin.id) ↔
      twin.group = group ∧ twin.sort = sort := by
    simp [Record.InTheWay, Placement.written]
  cases h with
  | full hfull => cases hplace.symm.trans hfull
  | crowded hcrowded => cases hplace.symm.trans hcrowded
  | clash hp hin =>
    cases hplace.symm.trans hp
    rw [if_pos (hway.1 hin)]
  | known hp hout =>
    cases hplace.symm.trans hp
    rw [if_neg fun hin => hout (hway.2 hin)]

namespace Holds

variable {t : Table} (h : t.Holds f)
include h

/-- A node that clears the others is refused for the key of its twin, or else for its identifier. -/
theorem insertNode_twin {n : Node} (hid : n.id = q.id) (hq : f q.id = some q)
    (hothers : ∀ q', f.without q.id q'.id = some q' → q'.group = n.group → q'.sort ≠ n.sort) :
    (q.group = n.group ∧ q.sort = n.sort →
      t.insertNode n = .error (.duplicateSort n.group q.sort)) ∧
    (¬(q.group = n.group ∧ q.sort = n.sort) →
      t.insertNode n = .error (.invalidRecord (.alreadyExists q.id))) := by
  constructor
  · rintro ⟨hgroup, hsort⟩
    rw [hsort]
    exact h.insertNode_taken hq hgroup hsort
  · intro hclear
    have hslot : (t.any fun r => r.slot = n.line.row.slot) = false := by
      rw [List.any_eq_false]
      intro r hr htaken
      obtain ⟨q', hq', rfl⟩ := h.row hr
      obtain ⟨hgroup, hsort⟩ := Row.slot_row_eq_iff.1 (of_decide_eq_true htaken)
      by_cases heq : q'.id = q.id
      · rw [heq, hq] at hq'
        obtain rfl := Option.some.inj hq'
        exact hclear ⟨hgroup, hsort⟩
      · exact hothers q' (Forest.without_eq_some_iff.2 ⟨heq, hq'⟩) hgroup hsort
    have hstored : (t.any fun r => r.id = n.line.row.id) = true :=
      List.any_eq_true.2 ⟨q.row, h.mem_iff.2 hq, decide_eq_true (congrArg Uuid.toText hid.symm)⟩
    rw [insertNode, ← Node.row_line, Table.insert, hslot, if_pos hstored, ← hid]
    rfl

/-- Only a full space has no run of keys to park the others on. -/
theorem le_countSpace_of_no_run (hk : KeysDistinct f) {group : Group} {keys : List Sibling}
    {id : Uuid} (hr : Rewrites (f.without id) group keys none) (hone : ¬keys.length ≤ 1)
    (hrun : freeRun? (t.inUse group keys none) keys.length = none) :
    2 ^ 31 ≤ t.countSpace group.space := by
  by_contra hroom
  have hle := h.length_le_of_space group.space hr.nodup fun a ha => by
    obtain ⟨m, hm, rfl⟩ := List.mem_map.1 ha
    obtain ⟨l, hl, hspace, -⟩ := hr.stored hm
    exact ⟨l, (Forest.without_eq_some_iff.1 hl).2, hspace⟩
  rw [List.length_map] at hle
  obtain ⟨start, hstart⟩ := h.exists_freeRun? hk (by omega) hle hone
  rw [hrun] at hstart
  cases hstart

section Create

variable (hk : KeysDistinct f) {n : Node} (hid : n.id = q.id) (hq : f q.id = some q)
  (hnew : t.checkNew n = .ok ()) {gap : Gap} {left right : List Sibling}
include hid hq hnew

theorem createLast_twin_of_key {sort : SortKey}
    (hplace : gap.placeIn n.group (t.members n.group) n.id .last = .ok (.key sort))
    (hplacing : Placing (f.without q.id) n.group n.id (.key sort) left right) :
    ∃ e, t.TwinAnswer gap n.group q e ∧ ∀ now, t.createLast gap n now = .error e := by
  have hplaceLast : gap.placeLast (t.members n.group) q.id = .ok (.key sort) :=
    hid ▸ mapError_eq_ok_iff.1 hplace
  have hgone : f.without q.id n.id = none := by rw [hid, Forest.without_self]
  have hinsert := h.insertNode_twin (n := { n with sort := sort }) hid hq fun q' hq' hgroup =>
    sort_ne_of_placing (l := n.line) hgone hplacing hq' hgroup
  have hcreate : ∀ {e}, t.insertNode { n with sort := sort } = .error e →
      ∀ now, t.createLast gap n now = .error e := by
    intro e he now
    rw [createLast_of_key now hnew (h.siblings_eq _) hplace, he]
    rfl
  by_cases hway : q.InTheWay n.group [⟨q.id, sort⟩]
  · have hsort : q.sort = sort := by simpa using hway.2
    exact ⟨_, .clash hplaceLast hway, hcreate (hinsert.1 ⟨hway.1, hsort⟩)⟩
  · refine ⟨_, .known hplaceLast hway, hcreate (hinsert.2 ?_)⟩
    rintro ⟨hgroup, hsort⟩
    have hsort : q.sort = sort := hsort
    exact hway ⟨hgroup, by simp [hsort]⟩

include hk

theorem createLast_twin_of_respread {members : List Sibling}
    (hplace : gap.placeIn n.group (t.members n.group) n.id .last = .ok (.respread members))
    (hplacing : Placing (f.without q.id) n.group n.id (.respread members) left right) :
    ∃ e, t.TwinAnswer gap n.group q e ∧ ∀ now, t.createLast gap n now = .error e := by
  have hplaceLast : gap.placeLast (t.members n.group) q.id = .ok (.respread members) :=
    hid ▸ mapError_eq_ok_iff.1 hplace
  have hgone : f.without q.id n.id = none := by rw [hid, Forest.without_self]
  obtain ⟨sort, hsort⟩ := hplacing.exists_key
  have hway_iff : q.InTheWay n.group members ↔
      q.InTheWay n.group (members.filter (·.id ≠ n.id)) ∨ q.group = n.group ∧ q.sort = sort :=
    q.inTheWay_iff n.group hplacing.nodup_settled hsort
  have hcreate := fun now => createLast_of_respread now hnew (h.siblings_eq _) hplace
    hplacing.nodup_settled hsort
  have hsettled : ∀ {stamp q'},
      (f.without q.id).settle n.group (members.filter (·.id ≠ n.id)) stamp q'.id = some q' →
        q'.group = n.group → q'.sort ≠ sort :=
    fun hq' hgroup => sort_ne_of_settle (l := n.line) hgone hplacing hsort hq' hgroup
  obtain ⟨keys, hkeys⟩ : ∃ keys, keys = members.filter (·.id ≠ n.id) := ⟨_, rfl⟩
  have hr : Rewrites (f.without q.id) n.group keys none :=
    hkeys ▸ rewrites_others (l := n.line) hgone hplacing
  simp only [← hkeys] at hway_iff hcreate hsettled
  by_cases hpark : ¬keys.length ≤ 1 →
      ∃ start, freeRun? (t.inUse n.group keys none) keys.length = some start
  · by_cases hothers : q.InTheWay n.group keys
    · refine ⟨_, .clash hplaceLast (hway_iff.2 (.inl hothers)), fun now => ?_⟩
      rw [hcreate, h.writeKeys_clash hk hq hr hothers hpark, bind_error]
    -- the others get their keys around the twin
    · have hwritten : ∀ now, ∃ t', t.writeKeys n.group keys none now = .ok t' ∧
          t'.Holds (f.settle n.group keys now.toOffsetText) := by
        intro now
        rcases h.writeKeys_eq hk (hr.of_without hq hothers) now with
          ⟨t', ht', hh', -⟩ | ⟨hmany, hnone, -⟩
        · exact ⟨t', ht', hh'⟩
        · obtain ⟨start, hrun⟩ := hpark (by omega)
          rw [hnone] at hrun
          cases hrun
      have hinsert := fun {stamp : String} {t' : Table}
          (hh' : t'.Holds (f.settle n.group keys stamp)) =>
        hh'.insertNode_twin (n := { n with sort := sort }) hid
          (by rw [Forest.settle_of_not_mem hr.id_not_mem, hq])
          fun q' hq' hgroup => hsettled (by rwa [Forest.without_settle] at hq') hgroup
      by_cases hself : q.group = n.group ∧ q.sort = sort
      · refine ⟨_, .clash hplaceLast (hway_iff.2 (.inr hself)), fun now => ?_⟩
        obtain ⟨t', ht', hh'⟩ := hwritten now
        rw [hcreate, ht', bind_ok, (hinsert hh').1 hself]
        rfl
      · refine ⟨_, .known hplaceLast fun hway => ?_, fun now => ?_⟩
        · exact (hway_iff.1 hway).elim hothers hself
        · obtain ⟨t', ht', hh'⟩ := hwritten now
          rw [hcreate, ht', bind_ok, (hinsert hh').2 hself]
          rfl
  · simp only [not_forall] at hpark
    obtain ⟨hone, hnone⟩ := hpark
    have hrun : freeRun? (t.inUse n.group keys none) keys.length = none :=
      Option.eq_none_iff_forall_ne_some.2 fun start hrun => hnone ⟨start, hrun⟩
    refine ⟨_, .crowded hplaceLast (h.le_countSpace_of_no_run hk hr hone hrun), fun now => ?_⟩
    rw [hcreate, h.writeKeys_unparked hone hrun, bind_error, hkeys, hid]

end Create

/-- Whatever the table answers to a new node that has a twin, it is a refusal, and the same one at
all times. -/
theorem createLast_twin (hk : KeysDistinct f) {n : Node} (hid : n.id = q.id)
    (hq : f q.id = some q) (hnew : t.checkNew n = .ok ()) (gap : Gap) :
    ∃ e, t.TwinAnswer gap n.group q e ∧ ∀ now, t.createLast gap n now = .error e := by
  cases hplace : gap.placeIn n.group (t.members n.group) n.id .last with
  | error e =>
    cases hlast : gap.placeLast (t.members n.group) n.id with
    | error cause =>
      rw [Gap.placeIn, hlast, mapError_error] at hplace
      cases hplace
      exact ⟨_, .full (hid ▸ hlast), fun now => createLast_of_error now hnew (h.siblings_eq _)
        (by rw [Gap.placeIn, hlast, mapError_error])⟩
    | ok p =>
      rw [Gap.placeIn, hlast, mapError_ok] at hplace
      cases hplace
  | ok p =>
    have hplacing := (Placing.of_placeIn (h.isListing_members hk n.group) hplace).without
    rw [show f.without n.id = f.without q.id by rw [hid]] at hplacing
    cases p with
    | key sort => exact h.createLast_twin_of_key hid hq hnew hplace hplacing
    | respread members => exact h.createLast_twin_of_respread hk hid hq hnew hplace hplacing

end Holds

end Table

end Outline
