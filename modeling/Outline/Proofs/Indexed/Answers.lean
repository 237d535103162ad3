import Outline.Proofs.Indexed.Runs

/-!
# What the index answers

Why the store in memory refuses a call, and what it answers to a call that it does not refuse.

Main results:

* `Shelf.relocate_refused`, `Shelf.insert_refused` — a parent that is missing or does not suit;
* `Shelf.list_eq` — a group is listed when its parent is in its space.
-/

namespace Outline

namespace Shelf

variable {s : Shelf} {now : Timestamp}

/-! ## Looking for nodes -/

/-- A node of the forest is found as it is. -/
theorem get_of_forest (h : s.Agrees) {id : Uuid} {n : Node} (hn : s.forest id = some n.record) :
    s.get id = .ok n := by
  obtain ⟨m, hm, -, heq⟩ := exists_node h hn
  rwa [Node.record_inj.1 heq] at hm

/-- Nothing in the space `sp` has the identifier `id`. -/
def Outside (s : Shelf) (sp id : Uuid) : Prop :=
  ∀ r, s.forest id = some r → r.space ≠ sp

/-- What is not stored is in no space. -/
theorem outside_of_none {sp id : Uuid} (hid : s.forest id = none) : s.Outside sp id := by
  intro r hr
  rw [hid] at hr
  cases hr

theorem outside_of_space {sp id : Uuid} {n : Node} (hn : s.forest id = some n.record)
    (hne : n.space ≠ sp) : s.Outside sp id := by
  intro r hr
  rw [hn] at hr
  rw [← Option.some.inj hr]
  exact hne

/-- A space finds its own nodes only. -/
theorem space_get_eq_error (h : s.Agrees) {sp id : Uuid} (hout : s.Outside sp id) :
    (s.space sp).get id = .error (.notFound id) := by
  unfold Space.get
  cases hn : (s.space sp).nodes[id]? with
  | none => rfl
  | some n => exact absurd ((h.space sp).own_space hn) (hout _ (forest_of_node h hn))

/-- A node is found in its own space, too. -/
theorem space_get_of_forest (h : s.Agrees) {id : Uuid} {n : Node}
    (hn : s.forest id = some n.record) : (s.space n.space).get id = .ok n := by
  obtain ⟨m, hm, heq⟩ := space_get_eq h hn
  rwa [Node.record_inj.1 heq] at hm

/-! ## Moves -/

section Move

variable {id : Uuid} {find : Space → Except StoreError (Option Uuid)} {target : Target}
  {e : StoreError}

/-- A node that is not stored cannot be moved. -/
theorem relocate_none (h : s.Agrees) (hid : s.forest id = none) :
    s.relocate id find target now = .error (.notFound id) := by
  rw [relocate, spaceOf_eq_error h hid, bind_error]

/-- If the new parent cannot be made out, nothing is moved. -/
theorem relocate_unfound (h : s.Agrees) {n : Node} (hn : s.forest id = some n.record)
    (hfind : find (s.space n.space) = .error e) : s.relocate id find target now = .error e := by
  rw [relocate, spaceOf_eq h hn, bind_ok]
  dsimp only [Node.record_space]
  rw [hfind, bind_error]

/-- Nor if the parent is missing or the rules refuse it. -/
theorem relocate_refused (h : s.Agrees) {n : Node} {parent : Option Uuid}
    (hn : s.forest id = some n.record) (hfind : find (s.space n.space) = .ok parent)
    (hcheck : checkFetched n.kind n.space ((s.space n.space).getParent parent) = .error e) :
    s.relocate id find target now = .error e := by
  have hplan : (s.space n.space).planMove s.gap id parent target now = .error e := by
    unfold Space.planMove
    rw [space_get_of_forest h hn, bind_ok]
    unfold checkFetched at hcheck
    -- the parent is not found, or is found and does not suit
    cases hget : (s.space n.space).getParent parent with
    | error e' =>
      rw [hget, bind_error] at hcheck
      rw [bind_error, Except.error.inj hcheck]
    | ok pn =>
      rw [hget, bind_ok] at hcheck
      rw [bind_ok, hcheck]
      rfl
  rw [relocate_eq_bind target now h hn hfind, Node.record_space, hplan, bind_error]

end Move

/-! ## Creations -/

section Create

variable {n : Node} {entry : Entry}

/-- A record that is not sound is refused before anything else. -/
theorem insert_defect {d : Defect} (hcheck : n.check = .error d) :
    s.insert n entry now = .error (.invalidRecord (.defect d)) := by
  unfold insert
  rw [hcheck]
  rfl

/-- A new node is refused as its parent is. -/
theorem insert_refused (h : s.Agrees) (hcheck : n.check = .ok ()) (hn : s.forest n.id = none)
    {e : StoreError}
    (hparent : checkFetched n.kind n.space ((s.space n.space).getParent n.parent) = .error e) :
    s.insert n entry now = .error e := by
  have hnew : s.locator.contains n.id = false := by
    rw [Std.ExtTreeMap.contains_eq_isSome_getElem?, (locator_eq_none_iff h).2 hn,
      Option.isSome_none]
  unfold insert
  rw [hcheck, mapError_ok, bind_ok, hnew]
  unfold checkFetched at hparent
  cases hget : (s.space n.space).getParent n.parent with
  | error e' =>
    rw [hget, bind_error] at hparent
    simp only [Bool.false_eq_true, if_false, hget, bind_error]
    rw [Except.error.inj hparent]
  | ok pn =>
    rw [hget, bind_ok] at hparent
    simp only [Bool.false_eq_true, if_false, hget, bind_ok, hparent, bind_error]

end Create

/-! ## Other calls -/

theorem update_none (h : s.Agrees) {id : Uuid} (hid : s.forest id = none) (patch : Patch) :
    s.update id patch now = .error (.notFound id) := by
  rw [update, spaceOf_eq_error h hid, bind_error]

/-- A patch must leave a sound record. -/
theorem update_defect (h : s.Agrees) {id : Uuid} {n : Node} (hn : s.forest id = some n.record)
    {patch : Patch} {d : Defect} (hcheck : (n.patch patch now).check = .error d) :
    s.update id patch now = .error (.invalidRecord (.defect d)) := by
  rw [update, spaceOf_eq h hn, bind_ok]
  dsimp only [Node.record_space]
  rw [space_get_of_forest h hn, bind_ok, hcheck]
  rfl

/-- A node is deleted only through the space that it is in. -/
theorem delete_refused (h : s.Agrees) {sp id : Uuid} (hout : s.Outside sp id) :
    s.delete sp id = .error (.notFound id) := by
  rw [delete, space_get_eq_error h hout, bind_error]

/-- A group for which there are not keys enough is left as it is. -/
theorem renumber_exhausted {group : Group} {parent : Option Node}
    (hparent : (s.space group.space).getParent group.parent = .ok parent) {e : Exhausted}
    (hm : s.gap.compact ((s.space group.space).siblings group.parent) = .error e) :
    s.renumber group now = .error (.exhausted group e) := by
  unfold renumber
  dsimp only
  rw [hparent, bind_ok, hm]
  rfl

/-- A group is listed when its parent, if it has one, is found in its space. -/
theorem list_eq {group : Group} {parent : Option Node}
    (hparent : (s.space group.space).getParent group.parent = .ok parent) :
    s.list group = .ok ((s.space group.space).children group.parent) := by
  unfold list
  dsimp only
  rw [hparent, bind_ok]
  rfl

end Shelf

end Outline
