import Outline.Proofs.InPlace.Indexed
import Outline.Proofs.Invariants

/-!
# Commits enter all or nothing

A commit is given any records with different identifiers: new ones, new versions of stored nodes,
nodes that leave a group for another, that swap their places or pass them round. All that is assumed
of the space is that its index agrees with its table. Then the records are entered exactly when
their places differ and none belongs to a node that stays as it is. If not, the commit names the
first record that stands in the way, and has put back by then whatever it took out of the index.

Main results:

* `Space.conflict?_eq_some` — what is reported is the first record whose place is taken;
* `Space.commitInPlace_exact` — what a commit enters, what it refuses, and what it leaves.
-/

namespace Outline

namespace Space

variable {s : Space} {changes part : List Node}

/-! ## Places that are taken -/

/-- The records of `part` have places of their own: no two the same, and none that of a stored node
which `changes` leaves alone. -/
structure Clear (s : Space) (changes part : List Node) : Prop where
  places : (part.map Node.place).Nodup
  stored : ∀ n ∈ part, ∀ id m, s.nodes[id]? = some m → m.place = n.place → id ∈ changes.map (·.id)

/-- Once the old versions have given up their places, only nodes that do not change have one. -/
theorem Indexed.mem_release_iff (h : s.Indexed) {place : Place} :
    place ∈ s.release changes ↔
      ∃ id m, s.nodes[id]? = some m ∧ m.place = place ∧ id ∉ changes.map (·.id) := by
  rw [← Std.ExtTreeMap.isSome_getElem?_iff_mem, getElem?_release]
  constructor
  · intro hsome
    split at hsome
    · cases hsome
    · next hstay =>
      obtain ⟨id, hid⟩ := Option.isSome_iff_exists.1 hsome
      obtain ⟨m, hm, hplace⟩ := h.place_iff.1 hid
      exact ⟨id, m, hm, hplace, mt (h.freed_iff hid).2 hstay⟩
  · rintro ⟨id, m, hm, hplace, hstay⟩
    have hid : s.places[place]? = some id := h.place_iff.2 ⟨m, hm, hplace⟩
    rw [if_neg (mt (h.freed_iff hid).1 hstay), hid]
    rfl

/-- The check lets a part of the changes pass when its places are clear. -/
theorem Indexed.conflict?_eq_none_iff_clear (h : s.Indexed) :
    conflict? (s.release changes) [] part = none ↔ s.Clear changes part := by
  rw [conflict?_eq_none_iff]
  simp only [h.mem_release_iff, List.not_mem_nil, not_false_eq_true, and_true, not_exists, not_and,
    not_not]
  exact ⟨fun ⟨hstored, hplaces⟩ => ⟨hplaces, hstored⟩, fun hc => ⟨hc.stored, hc.places⟩⟩

/-- The record that is reported is the first one that the check does not let pass. -/
theorem conflict?_eq_some {places : Std.ExtTreeMap Place Uuid} {claimed : List Place} {n : Node}
    (h : conflict? places claimed changes = some n) :
    ∃ before after, changes = before ++ n :: after ∧ conflict? places claimed before = none ∧
      conflict? places claimed (before ++ [n]) ≠ none := by
  induction changes generalizing claimed with
  | nil => cases h
  | cons m rest ih =>
    unfold conflict? at h
    split at h
    · next htaken =>
      cases h
      refine ⟨[], rest, rfl, rfl, ?_⟩
      rw [List.nil_append, conflict?, if_pos htaken]
      exact Option.some_ne_none _
    · next hfree =>
      obtain ⟨before, after, rfl, hbefore, hreported⟩ := ih h
      refine ⟨m :: before, after, rfl, ?_, ?_⟩
      · rw [conflict?, if_neg hfree, hbefore]
      · rwa [List.cons_append, conflict?, if_neg hfree]

/-- Changes with clear places are those that a space admits. -/
theorem Indexed.admits_iff_clear (h : s.Indexed) (hids : (changes.map (·.id)).Nodup) :
    s.Admits changes ↔ s.Clear changes changes := by
  rw [← conflict?_release_eq_none_iff h hids, h.conflict?_eq_none_iff_clear]

/-! ## Committing -/

/-- A commit enters its records exactly when their places are clear. The table then is the old one
overridden by them, and the index agrees with it. A commit that is refused names the first record
whose place is not clear, and the space is what it was. -/
theorem commitInPlace_exact (h : s.Indexed) (hids : (changes.map (·.id)).Nodup) (space : Uuid) :
    (s.Clear changes changes →
      ∃ t, (commitInPlace space changes).outcome s = (.ok (), t) ∧
        (∀ id, t.nodes[id]? = (changes.find? (·.id = id)).or s.nodes[id]?) ∧ t.Indexed) ∧
    (¬s.Clear changes changes →
      ∃ before n after, changes = before ++ n :: after ∧
        s.Clear changes before ∧ ¬s.Clear changes (before ++ [n]) ∧
        (commitInPlace space changes).outcome s =
          (.error (.duplicateSort ⟨space, n.parent⟩ n.sort), s)) := by
  unfold Work.outcome
  rw [commitInPlace_eq h]
  refine ⟨fun hclear => ?_, fun hnot => ?_⟩
  · have hadmits := (h.admits_iff_clear hids).2 hclear
    refine ⟨s.entered changes, ?_, getElem?_nodes_entered hids, h.entered hadmits⟩
    rw [(commit_eq h space hids).1 hadmits]
  · cases hc : conflict? (s.release changes) [] changes with
    | none => exact absurd (h.conflict?_eq_none_iff_clear.1 hc) hnot
    | some n =>
      obtain ⟨before, after, hchanges, hbefore, hreported⟩ := conflict?_eq_some hc
      refine ⟨before, n, after, hchanges, h.conflict?_eq_none_iff_clear.1 hbefore,
        mt h.conflict?_eq_none_iff_clear.2 hreported, ?_⟩
      simp only [commit, hc]

end Space

namespace Sample

def pageAt (id : UInt8) (n : Int) : Node :=
  { page id none with sort := (SortKey.ofInt? n).getD .zero }

/-- Three pages at the root. -/
def trio : Space := Space.empty.entered [pageAt 2 1, pageAt 3 2, pageAt 4 3]

/-- The pages pass their keys round, and a new page comes to stand below the first. -/
def rotated : List Node :=
  [pageAt 2 2, pageAt 3 3, page 5 (some (uuid 2)), pageAt 4 1]

/-- The first page makes way, and the second takes the key of the third, which stays. -/
def jammed : List Node :=
  [pageAt 2 9, pageAt 3 3]

theorem indexed_trio : trio.Indexed := by
  refine (Space.agrees_empty .nil).toIndexed.entered ⟨by decide, by decide, ?_⟩
  simp [Space.empty]

end Sample

/-- The pages that pass their keys round are committed. Where one of them takes the key of a page
that stays, everything is restored. -/
theorem Space.commitInPlace_exact_rotation :
    Sample.trio.Indexed ∧
    (∃ t, (commitInPlace .nil Sample.rotated).outcome Sample.trio = (.ok (), t) ∧ t.Indexed) ∧
    ((commitInPlace .nil Sample.jammed).outcome Sample.trio).2 = Sample.trio := by
  have hids : (Sample.rotated.map (·.id)).Nodup := by decide
  have hids' : (Sample.jammed.map (·.id)).Nodup := by decide
  have hrotated : Sample.trio.Clear Sample.rotated Sample.rotated :=
    Sample.indexed_trio.conflict?_eq_none_iff_clear.1 (by decide +kernel)
  have hjammed : ¬Sample.trio.Clear Sample.jammed Sample.jammed :=
    mt Sample.indexed_trio.conflict?_eq_none_iff_clear.2 (by decide +kernel)
  obtain ⟨t, ht, -, hindexed⟩ :=
    (commitInPlace_exact Sample.indexed_trio hids .nil).1 hrotated
  obtain ⟨_, _, _, -, -, -, hleft⟩ :=
    (commitInPlace_exact Sample.indexed_trio hids' .nil).2 hjammed
  exact ⟨Sample.indexed_trio, ⟨t, ht, hindexed⟩, congrArg Prod.snd hleft⟩

end Outline
