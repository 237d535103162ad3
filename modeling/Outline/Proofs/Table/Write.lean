import Outline.Proofs.Forest.Change
import Outline.Proofs.Table.FreeRun
import Outline.Proofs.Table.View

/-!
# Writing keys to rows

An update fails only when another row has the slot that is to be written, so a sequence of updates
of different rows succeeds when no new slot is that of another row, old or new. Parked rows have
keys that nobody around them uses, and rows that are to be settled afterwards find their slots free
because every row that was in the way is parked.

Main results:

* `Table.Holds.write_eq` — updates with free slots succeed, and what they make of the forest;
* `Table.Holds.writeKeys_eq` — a group is given its keys unless no run of free keys is found.
-/

namespace Outline

open Sibling (Ascending)

/-! ## Statements seen from the forest -/

namespace Forest

/-- The forest with one record changed, if there is one. -/
def alter (f : Forest Row.Payload String) (id : Uuid) (change : Line → Line) :
    Forest Row.Payload String :=
  fun a => if a = id then (f a).map change else f a

end Forest

namespace Table

namespace Holds

variable {t : Table} {f : Forest Row.Payload String} (h : t.Holds f)
include h

/-- A change of a row is one of its record. -/
theorem edit {id : Uuid} {change : Row → Row} {change' : Line → Line}
    (hrow : ∀ l, change l.row = (change' l).row) (hid : ∀ l, (change' l).id = l.id) :
    (t.edit id.toText change).Holds (f.alter id change') := by
  have hedited : ∀ l : Line, (if l.row.id = id.toText then change l.row else l.row) =
      (if l.id = id then change' l else l).row := by
    intro l
    by_cases hl : l.id = id
    · rw [if_pos (by rw [Record.row_id, hl]), if_pos hl, hrow]
    · rw [if_neg (by rwa [Record.row_id, Uuid.toText_inj]), if_neg hl]
  have hsame : ∀ l : Line, (if l.id = id then change' l else l).id = l.id := by
    intro l
    split
    · exact hid l
    · rfl
  have hput : ∀ l : Line, f l.id = some l →
      f.alter id change' l.id = some (if l.id = id then change' l else l) := by
    intro l hl
    unfold Forest.alter
    split
    · rw [hl, Option.map_some]
    · exact hl
  refine ⟨fun {r} hr => ?_, fun {a l} hl => ?_, ?_⟩
  -- each row is that of a record
  · obtain ⟨r', hr', rfl⟩ := List.mem_map.1 hr
    obtain ⟨l, hl, rfl⟩ := h.row hr'
    exact ⟨_, by rw [hsame]; exact hput l hl, (hedited l).symm⟩
  -- each record has its row
  · have hold : ∃ q, f a = some q ∧ (if q.id = id then change' q else q) = l := by
      unfold Forest.alter at hl
      split at hl
      · next ha =>
        obtain ⟨q, hq, rfl⟩ := Option.map_eq_some_iff.1 hl
        exact ⟨q, hq, if_pos ((h.line hq).1.trans ha)⟩
      · next ha => exact ⟨l, hl, if_neg fun heq => ha ((h.line hl).1.symm.trans heq)⟩
    obtain ⟨q, hq, rfl⟩ := hold
    obtain ⟨rfl, hmem⟩ := h.line hq
    exact ⟨hsame q, List.mem_map.2 ⟨q.row, hmem, hedited q⟩⟩
  -- and identifiers stay as they are
  · have hids : (t.edit id.toText change).map (·.id) = t.map (·.id) := by
      unfold Table.edit
      rw [List.map_map]
      refine List.map_congr_left fun r hr => ?_
      obtain ⟨l, -, rfl⟩ := h.row hr
      simp only [Function.comp_apply]
      rw [hedited, Record.row_id, hsame, Record.row_id]
    rw [hids]
    exact h.nodup

/-- An update succeeds when no other row has its slot. -/
theorem update?_eq {id : Uuid} {l : Line} (hl : f id = some l) {change : Row → Row}
    {change' : Line → Line} (hrow : ∀ l, change l.row = (change' l).row)
    (hfree : ∀ q, f q.id = some q → q.id ≠ id → q.group = (change' l).group →
      q.sort ≠ (change' l).sort) :
    t.update? id.toText change = some (t.edit id.toText change) := by
  have hfind := h.find_some hl
  unfold find at hfind
  -- the unique index has no objection
  have hclear : (t.any fun q => q.id ≠ id.toText ∧ q.slot = (change l.row).slot) = false := by
    rw [List.any_eq_false]
    intro r hr htaken
    obtain ⟨hne, hslot⟩ := of_decide_eq_true htaken
    obtain ⟨q, hq, rfl⟩ := h.row hr
    rw [hrow, Row.slot_row_eq_iff] at hslot
    rw [Record.row_id, ne_eq, Uuid.toText_inj] at hne
    exact hfree q hq hne hslot.1 hslot.2
  unfold update?
  rw [hfind]
  dsimp only
  rw [hclear]
  rfl

/-- A new row goes in when its slot and its identifier are free. -/
theorem insert_eq {l : Line} (hnew : f l.id = none)
    (hfree : ∀ q, f q.id = some q → q.group = l.group → q.sort ≠ l.sort) :
    t.insert l.row = .ok (t ++ [l.row]) ∧ (t ++ [l.row]).Holds (f.put l) := by
  have hslot : (t.any fun r => r.slot = l.row.slot) = false := by
    rw [List.any_eq_false]
    intro r hr htaken
    obtain ⟨q, hq, rfl⟩ := h.row hr
    obtain ⟨hgroup, hsort⟩ := Row.slot_row_eq_iff.1 (of_decide_eq_true htaken)
    exact hfree q hq hgroup hsort
  have hother : ∀ r ∈ t, r.id ≠ l.row.id := by
    intro r hr hid
    obtain ⟨q, hq, rfl⟩ := h.row hr
    rw [Record.row_id, Record.row_id, Uuid.toText_inj] at hid
    rw [hid, hnew] at hq
    cases hq
  have hids : (t.any fun r => r.id = l.row.id) = false := by
    rw [List.any_eq_false]
    exact fun r hr htaken => hother r hr (of_decide_eq_true htaken)
  refine ⟨?_, fun {r} hr => ?_, fun {a q} hq => ?_, ?_⟩
  · rw [Table.insert, hslot, hids]
    rfl
  -- the rows are the old ones and the new one
  · rcases List.mem_append.1 hr with hr | hr
    · obtain ⟨q, hq, rfl⟩ := h.row hr
      refine ⟨q, ?_, rfl⟩
      rw [f.put_of_ne fun hid => hother _ hr (congrArg Uuid.toText hid), hq]
    · exact ⟨l, f.put_self l, (List.mem_singleton.1 hr).symm⟩
  · by_cases ha : a = l.id
    · rw [ha, f.put_self] at hq
      obtain rfl := Option.some.inj hq
      exact ⟨ha.symm, by simp⟩
    · rw [f.put_of_ne ha] at hq
      obtain ⟨hid, hmem⟩ := h.line hq
      exact ⟨hid, List.mem_append_left _ hmem⟩
  · rw [List.map_append, List.map_singleton, List.nodup_append]
    refine ⟨h.nodup, by simp, fun a ha b hb hab => ?_⟩
    obtain ⟨r, hr, rfl⟩ := List.mem_map.1 ha
    exact hother r hr (hab.trans (List.mem_singleton.1 hb))

end Holds

end Table

/-! ## Sequences of updates -/

namespace KeyWrite

/-- What an update makes of a record. -/
def changed (w : KeyWrite) (l : Line) : Line :=
  { l with
    sort := w.sort
    parent := match w.parent with
      | some parent => parent
      | none => l.parent
    updated := match w.updated with
      | some now => now.toOffsetText
      | none => l.updated }

theorem change_row (w : KeyWrite) (l : Line) : w.change l.row = (w.changed l).row := by
  unfold change changed
  cases w.parent <;> cases w.updated <;> rfl

end KeyWrite

namespace Forest

/-- The forest after updates of different records. -/
def assign (f : Forest Row.Payload String) (ws : List KeyWrite) : Forest Row.Payload String :=
  fun id => match ws.find? (·.id = id) with
    | some w => (f id).map w.changed
    | none => f id

variable {f : Forest Row.Payload String} {ws : List KeyWrite}

theorem assign_of_mem (hids : (ws.map (·.id)).Nodup) {w : KeyWrite} (hw : w ∈ ws) :
    f.assign ws w.id = (f w.id).map w.changed := by
  have hfind : ws.find? (fun w' => decide (w'.id = w.id)) = some w := find?_of_nodup hids hw
  simp only [assign, hfind]

theorem assign_of_not_mem {id : Uuid} (hid : id ∉ ws.map (·.id)) : f.assign ws id = f id := by
  have hfind : ws.find? (fun w' => decide (w'.id = id)) = none := by
    refine List.find?_eq_none.2 fun w hw heq => hid ?_
    exact List.mem_map.2 ⟨w, hw, of_decide_eq_true heq⟩
  simp only [assign, hfind]

/-- Updates may be made one after the other. -/
theorem assign_cons {w : KeyWrite} (hids : ((w :: ws).map (·.id)).Nodup) :
    f.assign (w :: ws) = (f.alter w.id w.changed).assign ws := by
  obtain ⟨hw, hrest⟩ := List.nodup_cons.1 hids
  funext id
  by_cases hid : w.id = id
  · subst hid
    rw [assign_of_mem hids (by simp), assign_of_not_mem hw, alter, if_pos rfl]
  · by_cases hin : id ∈ ws.map (·.id)
    · obtain ⟨w', hw', rfl⟩ := List.mem_map.1 hin
      rw [assign_of_mem hids (by simp [hw']), assign_of_mem hrest hw', alter,
        if_neg (Ne.symm hid)]
    · rw [assign_of_not_mem (by simp [Ne.symm hid, hin]), assign_of_not_mem hin, alter,
        if_neg (Ne.symm hid)]

end Forest

/-- Updates of different stored records whose new slots are nobody else's, old or new. -/
structure Writable (f : Forest Row.Payload String) (ws : List KeyWrite) : Prop where
  ids    : (ws.map (·.id)).Nodup
  stored : ∀ {w}, w ∈ ws → ∃ l, f w.id = some l
  old    : ∀ {w l q}, w ∈ ws → f w.id = some l → f q.id = some q → q.id ≠ w.id →
             q.group = (w.changed l).group → q.sort ≠ w.sort
  new    : ∀ {w l w' l'}, w ∈ ws → w' ∈ ws → w.id ≠ w'.id → f w.id = some l →
             f w'.id = some l' → (w.changed l).group = (w'.changed l').group → w.sort ≠ w'.sort

namespace Writable

variable {f : Forest Row.Payload String} {w : KeyWrite} {ws : List KeyWrite}

/-- After the first of the updates the others are still free to be made. -/
theorem tail (h : Writable f (w :: ws)) :
    Writable (f.alter w.id w.changed) ws := by
  obtain ⟨hw, hrest⟩ := List.nodup_cons.1 h.ids
  have hne : ∀ {w'}, w' ∈ ws → w'.id ≠ w.id :=
    fun hw' heq => hw (List.mem_map.2 ⟨_, hw', heq⟩)
  have hsame : ∀ {w'}, w' ∈ ws → f.alter w.id w.changed w'.id = f w'.id :=
    fun hw' => if_neg (hne hw')
  refine ⟨hrest, fun {w'} hw' => ?_, fun {w' l q} hw' hl hq hid hgroup => ?_,
    fun {w' l w'' l'} hw' hw'' hid hl hl' hgroup => ?_⟩
  · rw [hsame hw']
    exact h.stored (by simp [hw'])
  -- the record that was changed first has the first new slot, and the others their old ones
  · rw [hsame hw'] at hl
    unfold Forest.alter at hq
    split at hq
    · next hqw =>
      obtain ⟨q', hq', rfl⟩ := Option.map_eq_some_iff.1 hq
      have hq'w : q'.id = w.id := hqw
      rw [hqw] at hq'
      exact h.new (by simp) (by simp [hw']) (Ne.symm (hne hw')) hq' hl hgroup
    · exact h.old (by simp [hw']) hl hq hid hgroup
  · rw [hsame hw'] at hl
    rw [hsame hw''] at hl'
    exact h.new (by simp [hw']) (by simp [hw'']) hid hl hl' hgroup

/-- Leaving out some of the updates leaves the others free to be made. -/
theorem sublist (h : Writable f ws) {ws' : List KeyWrite} (hsub : ws'.Sublist ws) :
    Writable f ws' :=
  ⟨h.ids.sublist (hsub.map _), fun hw => h.stored (hsub.subset hw),
    fun hw => h.old (hsub.subset hw),
    fun hw hw' => h.new (hsub.subset hw) (hsub.subset hw')⟩

/-- A record after the updates is as it was, or it is what one of them makes of it. -/
theorem of_assign (h : Writable f ws) {id : Uuid} {l : Line} (hl : f.assign ws id = some l) :
    (id ∉ ws.map (·.id) ∧ f id = some l) ∨
      ∃ w ∈ ws, w.id = id ∧ ∃ q, f w.id = some q ∧ w.changed q = l := by
  by_cases hid : id ∈ ws.map (·.id)
  · obtain ⟨w, hw, rfl⟩ := List.mem_map.1 hid
    rw [Forest.assign_of_mem h.ids hw, Option.map_eq_some_iff] at hl
    exact .inr ⟨w, hw, rfl, hl⟩
  · rw [Forest.assign_of_not_mem hid] at hl
    exact .inl ⟨hid, hl⟩

/-- Updates whose new slots are nobody else's leave every group with distinct keys. -/
theorem keysDistinct (h : Writable f ws) (hown : ∀ {id l}, f id = some l → l.id = id)
    (hk : KeysDistinct f) : KeysDistinct (f.assign ws) := by
  -- a record that is written and another one that is not
  have hmixed : ∀ {w l b q}, w ∈ ws → f w.id = some l → b ∉ ws.map (·.id) → f b = some q →
      q.group = (w.changed l).group → q.sort ≠ w.sort := by
    intro w l b q hw hl hb hq hgroup
    obtain rfl := hown hq
    exact h.old hw hl hq (fun heq => hb (heq ▸ List.mem_map_of_mem hw)) hgroup
  intro a b r q hr hq hgroup hsort
  rcases h.of_assign hr with ⟨ha, hr⟩ | ⟨w, hw, rfl, l, hl, rfl⟩ <;>
    rcases h.of_assign hq with ⟨hb, hq⟩ | ⟨w', hw', rfl, l', hl', rfl⟩
  · exact hk hr hq hgroup hsort
  · exact absurd hsort (hmixed hw' hl' ha hr hgroup)
  · exact absurd hsort.symm (hmixed hw hl hb hq hgroup.symm)
  · by_contra hne
    exact h.new hw hw' hne hl hl' hgroup hsort

end Writable

namespace Table

/-- Updates with free slots succeed one after the other. -/
theorem Holds.write_eq {t : Table} {f : Forest Row.Payload String} (h : t.Holds f)
    {ws : List KeyWrite} (hw : Writable f ws) (group : Group) :
    ∃ t', t.write group ws = .ok t' ∧ t'.Holds (f.assign ws) ∧ t'.length = t.length := by
  -- what is left to write is writable in the forest that the first update leaves
  induction ws generalizing t f with
  | nil => exact ⟨t, rfl, h, rfl⟩
  | cons w ws ih =>
    obtain ⟨l, hl⟩ := hw.stored (w := w) (by simp)
    have hupdate := h.update?_eq hl w.change_row fun q hq hne hgroup =>
      hw.old (by simp) hl hq hne hgroup
    obtain ⟨t', ht', hh', hlen⟩ := ih (h.edit w.change_row fun _ => rfl) hw.tail
    refine ⟨t', ?_, by rw [Forest.assign_cons hw.ids]; exact hh', ?_⟩
    · rw [write, hupdate]
      exact ht'
    · rw [hlen, Table.edit, List.length_map]

end Table

/-! ## Giving a group its keys -/

/-- Keys that a group may be given: distinct ones, to stored rows of the group or of the mover, and
clear of the members of the group that get none. -/
structure Rewrites (f : Forest Row.Payload String) (group : Group) (keys : List Sibling)
    (mover : Option Mover) : Prop where
  sorts     : (keys.map (·.sort)).Nodup
  nodup     : (keys.map (·.id)).Nodup
  stored    : ∀ {m}, m ∈ keys → ∃ l, f m.id = some l ∧ l.space = group.space ∧
                (l.parent = group.parent ∨
                  ∃ mv, mover = some mv ∧ mv.id = m.id ∧ l.parent = mv.origin)
  free      : ∀ {m q}, m ∈ keys → f q.id = some q → q.group = group → q.id ∉ keys.map (·.id) →
                q.sort ≠ m.sort

/-- The members of a group have the records that they had, but perhaps not the keys. -/
def SameButKeys (f g : Forest Row.Payload String) (keys : List Sibling) : Prop :=
  ∀ {m l}, m ∈ keys → f m.id = some l → ∃ sort, g m.id = some { l with sort := sort }

/-- The record of a member that has been given its key. -/
def settledLine (group : Group) (stamp : String) (m : Sibling) (l : Line) : Line :=
  { l with parent := group.parent, sort := m.sort, updated := stamp }

/-- The forest with the keys of a group. -/
def Forest.settle (f : Forest Row.Payload String) (group : Group) (keys : List Sibling)
    (stamp : String) : Forest Row.Payload String :=
  fun id => match keys.find? (·.id = id) with
    | some m => (f id).map (settledLine group stamp m)
    | none => f id

theorem Forest.settle_of_not_mem {f : Forest Row.Payload String} {group : Group}
    {keys : List Sibling} {stamp : String} {id : Uuid} (hid : id ∉ keys.map (·.id)) :
    f.settle group keys stamp id = f id := by
  have hfind : keys.find? (fun m => decide (m.id = id)) = none := by
    refine List.find?_eq_none.2 fun m hm heq => hid ?_
    exact List.mem_map.2 ⟨m, hm, of_decide_eq_true heq⟩
  simp only [settle, hfind]

namespace Rewrites

variable {t : Table} {f : Forest Row.Payload String} {group : Group} {keys : List Sibling}
  {mover : Option Mover} {now : Timestamp} (h : Rewrites f group keys mover)
include h

/-- Members with one key are one member. -/
theorem eq_of_sort {a b : Sibling} (ha : a ∈ keys) (hb : b ∈ keys) (hab : a.sort = b.sort) :
    a = b :=
  List.inj_on_of_nodup_map h.sorts ha hb hab

theorem settle_of_mem {m : Sibling} (hm : m ∈ keys) (stamp : String) :
    f.settle group keys stamp m.id = (f m.id).map (settledLine group stamp m) := by
  have hfind : keys.find? (fun m' => decide (m'.id = m.id)) = some m := find?_of_nodup h.nodup hm
  simp only [Forest.settle, hfind]

/-- What settling makes of a record, whatever key it has been parked at. -/
theorem changed_settling {m : Sibling} (hm : m ∈ keys) {l : Line} (hl : f m.id = some l)
    (sort : SortKey) :
    (KeyWrite.changed ⟨m.id, m.sort, if mover.any (·.id = m.id) then some group.parent else none,
      some now⟩ { l with sort := sort }) = settledLine group now.toOffsetText m l := by
  obtain ⟨q, hq, -, hparent⟩ := h.stored hm
  rw [hl] at hq
  obtain rfl := Option.some.inj hq
  -- the mover gets the parent of the group, which the others have
  have hp : (match (if mover.any (·.id = m.id) then some group.parent else none :
      Option (Option Uuid)) with
      | some parent => parent
      | none => l.parent) = group.parent := by
    by_cases hmover : mover.any (·.id = m.id)
    · rw [if_pos hmover]
    · rw [if_neg hmover]
      refine hparent.resolve_right ?_
      rintro ⟨mv, rfl, hid, -⟩
      exact hmover (by simpa using hid)
  unfold KeyWrite.changed settledLine
  simp only [hp]

/-- Rows may be settled when nobody else in the group has their keys. -/
theorem writable_settling (now : Timestamp) {g : Forest Row.Payload String}
    (hg : SameButKeys f g keys)
    (hfree : ∀ {m q}, m ∈ keys → g q.id = some q → q.id ≠ m.id → q.group = group →
      q.sort ≠ m.sort) :
    Writable g (Table.settling group keys mover now) := by
  -- a row that is settled is in the group
  have hgroup : ∀ {m l'}, m ∈ keys → g m.id = some l' → (KeyWrite.changed ⟨m.id, m.sort,
      if mover.any (·.id = m.id) then some group.parent else none, some now⟩ l').group = group := by
    intro m l' hm hl'
    obtain ⟨l, hl, hspace, -⟩ := h.stored hm
    obtain ⟨sort, hg⟩ := hg hm hl
    rw [hl'] at hg
    obtain rfl := Option.some.inj hg
    rw [h.changed_settling hm hl sort, Record.group, settledLine, hspace]
  have hids : (Table.settling group keys mover now).map (·.id) = keys.map (·.id) := by
    simp [Table.settling, Function.comp_def]
  refine ⟨hids ▸ h.nodup, fun {w} hw => ?_, fun {w l q} hw hl hq hne hslot => ?_,
    fun {w l w' l'} hw hw' hne hl hl' _ hsort => ?_⟩
  · obtain ⟨m, hm, rfl⟩ := List.mem_map.1 hw
    obtain ⟨l, hl, -⟩ := h.stored hm
    obtain ⟨sort, hg⟩ := hg hm hl
    exact ⟨_, hg⟩
  · obtain ⟨m, hm, rfl⟩ := List.mem_map.1 hw
    exact hfree hm hq hne (hslot.trans (hgroup hm hl))
  · obtain ⟨m, hm, rfl⟩ := List.mem_map.1 hw
    obtain ⟨m', hm', rfl⟩ := List.mem_map.1 hw'
    exact hne (congrArg Sibling.id (h.eq_of_sort hm hm' hsort))

/-- However the rows come to be settled, the forest is as it is to be. -/
theorem assign_settling {g : Forest Row.Payload String} (hg : SameButKeys f g keys)
    (hout : ∀ {id}, id ∉ keys.map (·.id) → g id = f id) :
    g.assign (Table.settling group keys mover now) = f.settle group keys now.toOffsetText := by
  have hids : (Table.settling group keys mover now).map (·.id) = keys.map (·.id) := by
    simp [Table.settling, Function.comp_def]
  funext id
  by_cases hid : id ∈ keys.map (·.id)
  · obtain ⟨m, hm, rfl⟩ := List.mem_map.1 hid
    obtain ⟨l, hl, -⟩ := h.stored hm
    obtain ⟨sort, hg⟩ := hg hm hl
    have hnodup : ((Table.settling group keys mover now).map (·.id)).Nodup := hids ▸ h.nodup
    have hassign := Forest.assign_of_mem (f := g) hnodup (List.mem_map.2 ⟨m, hm, rfl⟩)
    simp only [hg, Option.map_some, h.changed_settling hm hl sort] at hassign
    rw [hassign, h.settle_of_mem hm, hl, Option.map_some]
  · rw [Forest.assign_of_not_mem (by rwa [hids]), hout hid, Forest.settle_of_not_mem hid]

end Rewrites

/-! ## Parking -/

namespace Table

theorem write_append (group : Group) (ws ws' : List KeyWrite) (t : Table) :
    t.write group (ws ++ ws') = t.write group ws >>= fun t => t.write group ws' := by
  induction ws generalizing t with
  | nil => rfl
  | cons w ws ih =>
    rw [List.cons_append, write, write]
    split
    · exact ih _
    · rfl

theorem mem_parking {start : SortKey} {keys : List Sibling} {w : KeyWrite} :
    w ∈ parking start keys ↔ ∃ (i : Nat) (m : Sibling), keys[i]? = some m ∧
      SortKey.ofInt? (start.val + i) = some w.sort ∧ w = ⟨m.id, w.sort, none, none⟩ := by
  unfold parking
  rw [List.mem_filterMap]
  constructor
  · rintro ⟨⟨m, i⟩, hmem, hw⟩
    obtain ⟨sort, hsort, rfl⟩ := Option.map_eq_some_iff.1 hw
    exact ⟨i, m, List.mk_mem_zipIdx_iff_getElem?.1 hmem, hsort, rfl⟩
  · rintro ⟨i, m, hi, hsort, hw⟩
    refine ⟨(m, i), List.mk_mem_zipIdx_iff_getElem?.2 hi, ?_⟩
    rw [hw] at hsort ⊢
    simp only [hsort, Option.map_some]

section Parking

variable {used : List SortKey} {start : SortKey} {keys : List Sibling}
  (hfree : FreeRun used keys.length start)
include hfree

/-- Every row of the group is parked. -/
theorem ids_parking : (parking start keys).map (·.id) = keys.map (·.id) := by
  -- the run has a key for each position, so none is left out
  have hfrom : ∀ (rest : List Sibling) (n : Nat), n + rest.length = keys.length →
      ((rest.zipIdx n).filterMap fun p => (SortKey.ofInt? (start.val + p.2)).map fun sort =>
        (⟨p.1.id, sort, none, none⟩ : KeyWrite)).map (·.id) = rest.map (·.id) := by
    intro rest
    induction rest with
    | nil => simp
    | cons m rest ih =>
      intro n hn
      obtain ⟨k, hk, -⟩ := hfree n (by simp at hn; omega)
      have hrest := ih (n + 1) (by simp at hn; omega)
      simp only [List.zipIdx_cons, List.filterMap_cons, hk, Option.map_some, List.map_cons, hrest]
  exact hfrom keys 0 (by simp)

/-- A row is parked on a free key, and on another one than the others. -/
theorem parking_free {w : KeyWrite} (hw : w ∈ parking start keys) :
    (∃ m ∈ keys, w = ⟨m.id, w.sort, none, none⟩) ∧ w.sort ∉ used := by
  obtain ⟨i, m, hi, hsort, heq⟩ := mem_parking.1 hw
  obtain ⟨hlt, -⟩ := List.getElem?_eq_some_iff.1 hi
  obtain ⟨k, hk, hunused⟩ := hfree i hlt
  rw [hsort] at hk
  obtain rfl := Option.some.inj hk
  exact ⟨⟨m, List.mem_of_getElem? hi, heq⟩, hunused⟩

omit hfree in
theorem parking_inj {w w' : KeyWrite} (hw : w ∈ parking start keys)
    (hw' : w' ∈ parking start keys) (hsort : w.sort = w'.sort) : w.id = w'.id := by
  obtain ⟨i, m, hi, hk, heq⟩ := mem_parking.1 hw
  obtain ⟨j, m', hj, hk', heq'⟩ := mem_parking.1 hw'
  rw [SortKey.ofInt?_eq_some_iff] at hk hk'
  -- one key, one position
  obtain rfl : i = j := by
    rw [hsort] at hk
    omega
  rw [hi] at hj
  obtain rfl := Option.some.inj hj
  rw [heq, heq']

end Parking

/-- The keys that parked rows have to keep clear of. -/
def inUse (t : Table) (group : Group) (keys : List Sibling) (mover : Option Mover) :
    List SortKey :=
  (keys ++ t.members group ++ match mover with
    | some m => if m.origin = group.parent then [] else t.members ⟨group.space, m.origin⟩
    | none => []).map (·.sort)

namespace Holds

variable {t : Table} {f : Forest Row.Payload String} {group : Group} {keys : List Sibling}
  {mover : Option Mover} {now : Timestamp} (h : t.Holds f)
include h

theorem usedKeys_eq : t.usedKeys group keys mover = .ok (t.inUse group keys mover) := by
  unfold usedKeys inUse
  rw [h.siblings_eq, bind_ok]
  cases mover with
  | none => rfl
  | some m =>
    dsimp only
    split
    · rfl
    · rw [h.siblings_eq]
      rfl

omit h in
theorem writes_lone (hone : keys.length ≤ 1) :
    t.writes group keys mover now = .ok (settling group keys mover now) := by
  rw [writes, if_pos hone]
  rfl

theorem writes_parked (hone : ¬keys.length ≤ 1) {start : SortKey}
    (hrun : freeRun? (t.inUse group keys mover) keys.length = some start) (now : Timestamp) :
    t.writes group keys mover now =
      .ok (parking start keys ++ settling group keys mover now) := by
  rw [writes, if_neg hone, h.usedKeys_eq, bind_ok, hrun]
  rfl

theorem writeKeys_unparked (hone : ¬keys.length ≤ 1)
    (hrun : freeRun? (t.inUse group keys mover) keys.length = none) (now : Timestamp) :
    t.writeKeys group keys mover now = .error (.exhausted group ⟨keys.length, 0⟩) := by
  rw [writeKeys, writes, if_neg hone, h.usedKeys_eq, bind_ok, hrun]
  rfl

variable (hk : KeysDistinct f) (hr : Rewrites f group keys mover)
include hk hr

/-- The key of a record that is in the group, or in the group that the mover leaves, is in use. -/
theorem sort_mem_inUse {m : Sibling} {l q : Line} (hm : m ∈ keys) (hl : f m.id = some l)
    (hq : f q.id = some q) (hgroup : q.group = l.group) :
    q.sort ∈ t.inUse group keys mover := by
  obtain ⟨l', hl', hspace, hparent⟩ := hr.stored hm
  rw [hl] at hl'
  obtain rfl := Option.some.inj hl'
  have hlisted : ∀ g : Group, q.group = g → ⟨q.id, q.sort⟩ ∈ t.members g :=
    fun g hg => (h.isListing_members hk g).mem_iff.2 ⟨q, hq, hg, rfl⟩
  have hgroup_eq : ∀ parent, l.parent = parent → q.group = ⟨group.space, parent⟩ := by
    rintro parent rfl
    rw [hgroup, Record.group, hspace]
  unfold inUse
  rw [List.mem_map]
  refine ⟨⟨q.id, q.sort⟩, ?_, rfl⟩
  -- a member of the group itself, or the mover in the group that it leaves
  rcases hparent with hparent | ⟨mv, rfl, -, hparent⟩
  · have hin := hlisted group (hgroup_eq _ hparent)
    simp [hin]
  · by_cases horigin : mv.origin = group.parent
    · have hin := hlisted group (hgroup_eq _ (hparent.trans horigin))
      simp [hin]
    · have hin := hlisted _ (hgroup_eq _ hparent)
      simp [horigin, hin]

omit h hk in
/-- Rows may be parked on keys that nobody in their groups has. -/
theorem writable_parking {used : List SortKey} {start : SortKey}
    (hfree : FreeRun used keys.length start)
    (hused : ∀ {m l q}, m ∈ keys → f m.id = some l → f q.id = some q → q.group = l.group →
      q.sort ∈ used) : Writable f (parking start keys) := by
  refine ⟨by rw [ids_parking hfree]; exact hr.nodup, fun {w} hw => ?_,
    fun {w l q} hw hl hq _ hgroup hsort => ?_,
    fun {w l w' l'} hw hw' hne _ _ _ hsort => hne (parking_inj hw hw' hsort)⟩
  · obtain ⟨⟨m, hm, heq⟩, -⟩ := parking_free hfree hw
    obtain ⟨l, hl, -⟩ := hr.stored hm
    exact ⟨l, by rw [heq]; exact hl⟩
  · obtain ⟨⟨m, hm, heq⟩, hunused⟩ := parking_free hfree hw
    rw [heq] at hl hgroup
    exact hunused (hsort ▸ hused hm hl hq hgroup)

omit h hk in
theorem writable_lone (now : Timestamp) (hone : keys.length ≤ 1) :
    Writable f (settling group keys mover now) :=
  hr.writable_settling now (fun _ hl => ⟨_, hl⟩) fun {m q} hm hq hne hgroup =>
    hr.free hm hq hgroup fun hin => by
      -- nobody else is given a key
      obtain ⟨m', hm', hid⟩ := List.mem_map.1 hin
      obtain ⟨a, rfl⟩ := List.length_eq_one_iff.1
        (Nat.le_antisymm hone (List.length_pos_of_mem hm))
      rw [List.mem_singleton] at hm hm'
      exact hne (by rw [← hid, hm', hm])

omit hk in
/-- A lone key is written straight away. -/
theorem writeKeys_lone (now : Timestamp) (hone : keys.length ≤ 1) :
    ∃ t', t.writeKeys group keys mover now = .ok t' ∧
      t'.Holds (f.settle group keys now.toOffsetText) ∧ t'.length = t.length := by
  obtain ⟨t', ht', hh', hlen⟩ := h.write_eq (writable_lone hr now hone) group
  rw [hr.assign_settling (fun _ hl => ⟨_, hl⟩) fun _ => rfl] at hh'
  refine ⟨t', ?_, hh', hlen⟩
  rw [writeKeys, writes_lone hone]
  exact ht'

omit h hk in
/-- A parked record has a key that is not in use, and is the old one otherwise. -/
theorem assign_parking_of_mem {used : List SortKey} {start : SortKey}
    (hfree : FreeRun used keys.length start) {m : Sibling} {l : Line} (hm : m ∈ keys)
    (hl : f m.id = some l) :
    ∃ sort, sort ∉ used ∧ f.assign (parking start keys) m.id = some { l with sort := sort } := by
  have hin : m.id ∈ (parking start keys).map (·.id) := by
    rw [ids_parking hfree]
    exact List.mem_map_of_mem hm
  obtain ⟨w, hw, hid⟩ := List.mem_map.1 hin
  obtain ⟨⟨m', -, heq⟩, hunused⟩ := parking_free hfree hw
  refine ⟨w.sort, hunused, ?_⟩
  have hnodup : ((parking start keys).map (·.id)).Nodup := by
    rw [ids_parking hfree]
    exact hr.nodup
  have hassign := Forest.assign_of_mem (f := f) hnodup hw
  rw [hid, hl, Option.map_some] at hassign
  rw [hassign, heq]
  rfl

omit h hk in
/-- The parked rows have left the places that are to be filled. -/
theorem writable_settling_parked (now : Timestamp) {start : SortKey}
    (hfree : FreeRun (t.inUse group keys mover) keys.length start) :
    Writable (f.assign (parking start keys)) (settling group keys mover now) ∧
      (f.assign (parking start keys)).assign (settling group keys mover now) =
        f.settle group keys now.toOffsetText := by
  have hsame : SameButKeys f (f.assign (parking start keys)) keys := by
    intro m l hm hl
    obtain ⟨sort, -, hl'⟩ := assign_parking_of_mem hr hfree hm hl
    exact ⟨sort, hl'⟩
  have hout : ∀ {id}, id ∉ keys.map (·.id) → f.assign (parking start keys) id = f id :=
    fun hid => Forest.assign_of_not_mem (by rwa [ids_parking hfree])
  refine ⟨hr.writable_settling now hsame fun {m q} hm hq hne hgroup hsort => ?_,
    hr.assign_settling hsame hout⟩
  by_cases hin : q.id ∈ keys.map (·.id)
  -- a parked row has a key that nobody was to get
  · obtain ⟨m', hm', hid⟩ := List.mem_map.1 hin
    obtain ⟨l, hl, -⟩ := hr.stored hm'
    obtain ⟨sort, hunused, hl'⟩ := assign_parking_of_mem hr hfree hm' hl
    rw [hid, hq] at hl'
    obtain rfl := Option.some.inj hl'
    refine hunused ?_
    rw [show sort = m.sort from hsort]
    exact List.mem_map.2 ⟨m, by simp [hm], rfl⟩
  -- and a row that stays where it is was no obstacle before
  · rw [hout hin] at hq
    exact hr.free hm hq hgroup hin hsort

/-- Several keys are written after the rows have been parked. -/
theorem writeKeys_parked (now : Timestamp) (hone : ¬keys.length ≤ 1) {start : SortKey}
    (hrun : freeRun? (t.inUse group keys mover) keys.length = some start) :
    ∃ t', t.writeKeys group keys mover now = .ok t' ∧
      t'.Holds (f.settle group keys now.toOffsetText) ∧ t'.length = t.length := by
  have hfree := freeRun?_free hrun
  obtain ⟨t₁, ht₁, hh₁, hlen₁⟩ :=
    h.write_eq (writable_parking hr hfree (h.sort_mem_inUse hk hr)) group
  obtain ⟨hw, hassign⟩ := writable_settling_parked hr now hfree
  obtain ⟨t', ht', hh', hlen⟩ := hh₁.write_eq hw group
  rw [hassign] at hh'
  refine ⟨t', ?_, hh', hlen.trans hlen₁⟩
  rw [writeKeys, h.writes_parked hone hrun now, bind_ok, write_append, ht₁]
  exact ht'

/-- A group is given its keys, unless rows have to be parked and there is no room for them. -/
theorem writeKeys_eq (now : Timestamp) :
    (∃ t', t.writeKeys group keys mover now = .ok t' ∧
      t'.Holds (f.settle group keys now.toOffsetText) ∧ t'.length = t.length) ∨
    (1 < keys.length ∧ freeRun? (t.inUse group keys mover) keys.length = none ∧
      t.writeKeys group keys mover now = .error (.exhausted group ⟨keys.length, 0⟩)) := by
  by_cases hone : keys.length ≤ 1
  · exact .inl (h.writeKeys_lone hr now hone)
  · cases hrun : freeRun? (t.inUse group keys mover) keys.length with
    | none => exact .inr ⟨by omega, rfl, h.writeKeys_unparked hone hrun now⟩
    | some start => exact .inl (h.writeKeys_parked hk hr now hone hrun)

end Holds

end Table

end Outline
