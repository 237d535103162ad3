import Outline.Proofs.Forest.Change
import Outline.Proofs.Keyed
import Outline.Store.Indexed

/-!
# The index of a space

The index of a space agrees with its table of nodes when a place is taken in the index exactly if a
node of the table stands there. Committing changes keeps this: the places of the old versions are
freed first, and the new places go in only if all of them are free. Which space the nodes are of
does not matter for it.

Main results:

* `Space.mem_siblings` — the members of a group as the index gives them;
* `Space.commit_eq` — changes are entered exactly when their places are free or freed with them;
* `Space.Indexed.entered` — and the index agrees again.
-/

namespace Outline

open Sibling (Ascending)

/-! ## Lists of changes -/

section Fold

variable {α β κ : Type} [Ord κ] [Std.TransOrd κ] [Std.LawfulEqOrd κ] [DecidableEq κ]

/-- Entering items with distinct keys one after the other. -/
theorem getElem?_foldl_insert (key : α → κ) (val : α → β) {items : List α}
    (hnodup : (items.map key).Nodup) (m : Std.ExtTreeMap κ β) (k : κ) :
    (items.foldl (fun m a => m.insert (key a) (val a)) m)[k]? =
      ((items.find? (key · = k)).map val).or m[k]? := by
  induction items generalizing m with
  | nil => simp
  | cons a rest ih =>
    obtain ⟨ha, hrest⟩ := List.nodup_cons.1 hnodup
    rw [List.foldl_cons, ih hrest, Std.ExtTreeMap.getElem?_insert]
    by_cases hk : key a = k
    -- no later item overwrites this one
    · have hnone : rest.find? (key · = k) = none := by
        rw [List.find?_eq_none]
        intro b hb
        simp only [decide_eq_true_eq]
        exact fun hkb => ha (hk ▸ hkb ▸ List.mem_map_of_mem hb)
      simp [hk, hnone]
    · have hcmp : compare (key a) k ≠ .eq := fun h => hk (Std.LawfulEqCmp.eq_of_compare h)
      simp [hk, hcmp]

/-- Freeing the keys that some items had. -/
theorem getElem?_foldl_erase (old? : α → Option κ) (items : List α) (m : Std.ExtTreeMap κ β)
    (k : κ) :
    (items.foldl (fun m a => match old? a with
      | some old => m.erase old
      | none => m) m)[k]? = if ∃ a ∈ items, old? a = some k then none else m[k]? := by
  induction items generalizing m with
  | nil => simp
  | cons a rest ih =>
    rw [List.foldl_cons, ih]
    by_cases hrest : ∃ b ∈ rest, old? b = some k
    · rw [if_pos hrest, if_pos (by simp only [List.mem_cons, exists_eq_or_imp]; exact .inr hrest)]
    · rw [if_neg hrest]
      simp only [List.mem_cons, exists_eq_or_imp, hrest, or_false]
      cases hold : old? a with
      | none => simp
      | some old =>
        by_cases hk : old = k
        · simp [hk]
        · have hcmp : compare old k ≠ .eq := fun h => hk (Std.LawfulEqCmp.eq_of_compare h)
          simp [Std.ExtTreeMap.getElem?_erase, hk, hcmp]

omit [DecidableEq κ] in
theorem getElem?_filter_eq_some_iff {f : κ → β → Bool} {m : Std.ExtTreeMap κ β} {k : κ} {v : β} :
    (m.filter f)[k]? = some v ↔ m[k]? = some v ∧ f k v = true := by
  rw [Std.ExtTreeMap.getElem?_filter', Option.filter_eq_some_iff]

end Fold

namespace Space

/-- The index agrees with the table of nodes, which files each node under its own identifier. -/
structure Indexed (s : Space) : Prop where
  place_iff : ∀ {place : Place} {id : Uuid}, s.places[place]? = some id ↔
                ∃ n, s.nodes[id]? = some n ∧ n.place = place
  own_id    : ∀ {id : Uuid} {n : Node}, s.nodes[id]? = some n → n.id = id

/-- The index and the table of nodes of the space `space` agree. -/
structure Agrees (s : Space) (space : Uuid) : Prop extends s.Indexed where
  own_space : ∀ {id : Uuid} {n : Node}, s.nodes[id]? = some n → n.space = space

theorem agrees_empty (space : Uuid) : empty.Agrees space where
  place_iff := by simp [empty]
  own_id := by simp [empty]
  own_space := by simp [empty]

/-- No two nodes of a space stand at one place. -/
theorem Agrees.place_inj {s : Space} {space : Uuid} (h : s.Agrees space) {a b : Uuid}
    {n m : Node} (hn : s.nodes[a]? = some n) (hm : s.nodes[b]? = some m) :
    n.place = m.place ↔ a = b := by
  constructor
  · intro hplace
    have hown : s.places[m.place]? = some a := h.place_iff.2 ⟨n, hn, hplace⟩
    rw [h.place_iff.2 ⟨m, hm, rfl⟩] at hown
    exact (Option.some.inj hown).symm
  · rintro rfl
    rw [hn] at hm
    rw [Option.some.inj hm]

/-! ## Groups -/

theorem mem_siblings {s : Space} {parent : Option Uuid} {m : Sibling} :
    m ∈ s.siblings parent ↔ s.places[(⟨parent, m.sort⟩ : Place)]? = some m.id := by
  unfold siblings
  rw [List.mem_filterMap]
  constructor
  · rintro ⟨⟨place, id⟩, hmem, hm⟩
    obtain ⟨rfl, rfl⟩ : place.parent = parent ∧ ⟨id, place.sort⟩ = m := by simpa using hm
    exact Std.ExtTreeMap.mem_toList_iff_getElem?_eq_some.1 hmem
  · intro h
    exact ⟨(⟨parent, m.sort⟩, m.id), Std.ExtTreeMap.mem_toList_iff_getElem?_eq_some.2 h, by simp⟩

theorem ascending_siblings (s : Space) (parent : Option Uuid) : Ascending (s.siblings parent) := by
  unfold siblings
  refine List.Pairwise.filterMap _ (fun {a b} hab m hm m' hm' => ?_) s.places.ordered_keys_toList
  obtain ⟨⟨p, k⟩, id⟩ := a
  obtain ⟨⟨p', k'⟩, id'⟩ := b
  obtain ⟨hp, rfl⟩ : p = parent ∧ ⟨id, k⟩ = m := by simpa using hm
  obtain ⟨hp', rfl⟩ : p' = parent ∧ ⟨id', k'⟩ = m' := by simpa using hm'
  subst hp hp'
  -- within a group places are ordered by key
  have hlex : (compareOn Place.parent ⟨p', k⟩ ⟨p', k'⟩).then
      (compareOn Place.sort ⟨p', k⟩ ⟨p', k'⟩) = .lt := hab
  simpa [compareOn, Std.ReflCmp.compare_self, SortKey.compare_eq, Int.compare_eq_lt] using hlex

/-- In a space that agrees with itself the nodes of a group are its members, one by one. -/
theorem map_sibling_children {s : Space} {space : Uuid} (h : s.Agrees space)
    (parent : Option Uuid) : (s.children parent).map Node.sibling = s.siblings parent := by
  -- on any part of the group, since the whole is no list to recurse on
  have hone : ∀ l, l ⊆ s.siblings parent →
      (l.filterMap fun m => s.nodes[m.id]?).map Node.sibling = l := by
    intro l hl
    induction l with
    | nil => rfl
    | cons m rest ih =>
      obtain ⟨hm, hrest⟩ := List.cons_subset.1 hl
      rw [mem_siblings, h.place_iff] at hm
      obtain ⟨n, hn, hplace⟩ := hm
      have hsibling : n.sibling = m := by
        rw [Node.sibling, h.own_id hn, show n.sort = m.sort from congrArg Place.sort hplace]
      have hcons : (m :: rest).filterMap (fun m => s.nodes[m.id]?) =
          n :: rest.filterMap fun m => s.nodes[m.id]? := List.filterMap_cons_some hn
      rw [hcons, List.map_cons, hsibling, ih hrest]
  exact hone _ (List.Subset.refl _)

theorem mem_children {s : Space} {space : Uuid} (h : s.Agrees space) {parent : Option Uuid}
    {n : Node} : n ∈ s.children parent ↔ s.nodes[n.id]? = some n ∧ n.parent = parent := by
  unfold children
  rw [List.mem_filterMap]
  constructor
  · rintro ⟨m, hm, hn⟩
    rw [mem_siblings, h.place_iff] at hm
    obtain ⟨q, hq, hplace⟩ := hm
    rw [hn] at hq
    obtain rfl := Option.some.inj hq
    exact ⟨by rw [h.own_id hn, hn], congrArg Place.parent hplace⟩
  · rintro ⟨hn, rfl⟩
    exact ⟨n.sibling, mem_siblings.2 (h.place_iff.2 ⟨n, hn, rfl⟩), hn⟩

/-! ## Committing -/

theorem getElem?_release (s : Space) (changes : List Node) (place : Place) :
    (s.release changes)[place]? =
      if ∃ n ∈ changes, ∃ old, s.nodes[n.id]? = some old ∧ old.place = place then none
      else s.places[place]? := by
  have := getElem?_foldl_erase (fun n : Node => (s.nodes[n.id]?).map Node.place) changes s.places
    place
  simp only [Option.map_eq_some_iff] at this
  rw [← this, release]
  congr 2
  funext m n
  cases s.nodes[n.id]? <;> rfl

theorem conflict?_eq_none_iff {places : Std.ExtTreeMap Place Uuid} {claimed : List Place}
    {changes : List Node} :
    conflict? places claimed changes = none ↔
      (∀ n ∈ changes, n.place ∉ places ∧ n.place ∉ claimed) ∧ (changes.map Node.place).Nodup := by
  induction changes generalizing claimed with
  | nil => simp [conflict?]
  | cons n rest ih =>
    unfold conflict?
    by_cases hn : places.contains n.place ∨ n.place ∈ claimed
    · rw [if_pos hn]
      have htaken : ¬(n.place ∉ places ∧ n.place ∉ claimed) := by
        rw [← Std.ExtTreeMap.contains_iff_mem]
        tauto
      simp [htaken]
    -- later changes find the place claimed, which is what makes the places distinct
    · rw [if_neg hn, ih]
      have hfree : n.place ∉ places ∧ n.place ∉ claimed := by
        rw [← Std.ExtTreeMap.contains_iff_mem]
        tauto
      simp only [List.mem_cons, forall_eq_or_imp, List.map_cons, List.nodup_cons, List.mem_map,
        not_or, not_exists, not_and, hfree, not_false_eq_true, true_and]
      constructor
      · rintro ⟨h, hnodup⟩
        exact ⟨fun m hm => ⟨(h m hm).1, (h m hm).2.2⟩, fun m hm => (h m hm).2.1, hnodup⟩
      · rintro ⟨h, hne, hnodup⟩
        exact ⟨fun m hm => ⟨(h m hm).1, hne m hm, (h m hm).2⟩, hnodup⟩

theorem conflict?_mem {places : Std.ExtTreeMap Place Uuid} {claimed : List Place}
    {changes : List Node} {n : Node} (h : conflict? places claimed changes = some n) :
    n ∈ changes := by
  induction changes generalizing claimed with
  | nil => cases h
  | cons m rest ih =>
    unfold conflict? at h
    split at h
    · cases h
      exact List.mem_cons_self
    · exact List.mem_cons_of_mem _ (ih h)

/-- The places of some changes are distinct, and whoever stands there changes too. -/
structure Admits (s : Space) (changes : List Node) : Prop where
  ids    : (changes.map (·.id)).Nodup
  places : (changes.map Node.place).Nodup
  free   : ∀ n ∈ changes, ∀ id, s.places[n.place]? = some id → id ∈ changes.map (·.id)

/-- What a space becomes when changes are entered. -/
def entered (s : Space) (changes : List Node) : Space where
  nodes := changes.foldl (fun nodes n => nodes.insert n.id n) s.nodes
  places := changes.foldl (fun places n => places.insert n.place n.id) (s.release changes)

variable {s : Space} {space : Uuid} {changes : List Node}

/-- A place is freed exactly when the node that stands there changes. -/
theorem Indexed.freed_iff (h : s.Indexed) {place : Place} {id : Uuid}
    (hid : s.places[place]? = some id) :
    (∃ n ∈ changes, ∃ old, s.nodes[n.id]? = some old ∧ old.place = place) ↔
      id ∈ changes.map (·.id) := by
  constructor
  · rintro ⟨n, hn, old, hold, hplace⟩
    have hown : s.places[place]? = some n.id := h.place_iff.2 ⟨old, hold, hplace⟩
    rw [hid] at hown
    exact Option.some.inj hown ▸ List.mem_map_of_mem hn
  · intro hmem
    obtain ⟨n, hn, rfl⟩ := List.mem_map.1 hmem
    exact ⟨n, hn, h.place_iff.1 hid⟩

/-- The check of a commit passes the changes that a space admits. -/
theorem conflict?_release_eq_none_iff (h : s.Indexed) (hids : (changes.map (·.id)).Nodup) :
    conflict? (s.release changes) [] changes = none ↔ s.Admits changes := by
  rw [conflict?_eq_none_iff]
  constructor
  · rintro ⟨hfree, hplaces⟩
    refine ⟨hids, hplaces, fun n hn id hid => ?_⟩
    by_contra hnot
    -- the place of a node that stays as it is would still be taken
    refine (hfree n hn).1 ?_
    rw [← Std.ExtTreeMap.isSome_getElem?_iff_mem, getElem?_release,
      if_neg (mt (h.freed_iff hid).1 hnot), hid]
    rfl
  · intro ha
    refine ⟨fun n hn => ⟨fun hmem => ?_, by simp⟩, ha.places⟩
    rw [← Std.ExtTreeMap.isSome_getElem?_iff_mem, getElem?_release] at hmem
    split at hmem
    · simp at hmem
    · next hkept =>
      -- the node that stands there changes, so its place was freed
      obtain ⟨id, hid⟩ := Option.isSome_iff_exists.1 hmem
      exact hkept ((h.freed_iff hid).2 (ha.free n hn id hid))

/-- Exactly the changes that a space admits are entered. -/
theorem commit_eq (h : s.Indexed) (space : Uuid) (hids : (changes.map (·.id)).Nodup) :
    (s.Admits changes → s.commit space changes = .ok (s.entered changes)) ∧
      (¬s.Admits changes → ∃ n ∈ changes,
        s.commit space changes = .error (.duplicateSort ⟨space, n.parent⟩ n.sort)) := by
  have hiff := conflict?_release_eq_none_iff h hids
  refine ⟨fun ha => ?_, fun hna => ?_⟩
  · simp only [commit, hiff.2 ha, entered]
  · cases hc : conflict? (s.release changes) [] changes with
    | none => exact absurd (hiff.1 hc) hna
    | some n =>
      refine ⟨n, conflict?_mem hc, ?_⟩
      simp only [commit, hc]

theorem getElem?_nodes_entered (hids : (changes.map (·.id)).Nodup) (id : Uuid) :
    (s.entered changes).nodes[id]? = (changes.find? (·.id = id)).or s.nodes[id]? := by
  have := getElem?_foldl_insert (·.id) (fun n : Node => n) hids s.nodes id
  simpa [entered] using this

theorem getElem?_places_entered (ha : s.Admits changes) (place : Place) :
    (s.entered changes).places[place]? =
      ((changes.find? (·.place = place)).map (·.id)).or
        (if ∃ n ∈ changes, ∃ old, s.nodes[n.id]? = some old ∧ old.place = place then none
          else s.places[place]?) := by
  rw [entered, getElem?_foldl_insert Node.place Node.id ha.places, getElem?_release]

/-- The nodes of the new table are the changes and the nodes that do not change. -/
theorem getElem?_entered_eq_some_iff (hids : (changes.map (·.id)).Nodup) {id : Uuid} {n : Node} :
    (s.entered changes).nodes[id]? = some n ↔
      (n ∈ changes ∧ n.id = id) ∨ (id ∉ changes.map (·.id) ∧ s.nodes[id]? = some n) := by
  rw [getElem?_nodes_entered hids, Option.or_eq_some_iff]
  have hnone : changes.find? (·.id = id) = none ↔ id ∉ changes.map (·.id) := by
    simp [List.find?_eq_none]
  rw [hnone]
  refine or_congr ⟨fun hn => ?_, ?_⟩ Iff.rfl
  · exact ⟨List.mem_of_find?_eq_some hn, by simpa using List.find?_some hn⟩
  · rintro ⟨hn, rfl⟩
    exact find?_of_nodup hids hn

theorem getElem?_entered_of_not_mem (hids : (changes.map (·.id)).Nodup) {id : Uuid}
    (hid : id ∉ changes.map (·.id)) : (s.entered changes).nodes[id]? = s.nodes[id]? := by
  have hnone : changes.find? (·.id = id) = none := by simpa [List.find?_eq_none] using hid
  rw [getElem?_nodes_entered hids, hnone, Option.none_or]

theorem Indexed.entered (h : s.Indexed) (ha : s.Admits changes) : (s.entered changes).Indexed := by
  refine ⟨fun {place id} => ?_, fun {id n} hn => ?_⟩
  -- the places
  · rw [getElem?_places_entered ha, Option.or_eq_some_iff, Option.map_eq_some_iff]
    simp only [getElem?_entered_eq_some_iff ha.ids]
    constructor
    · rintro (⟨n, hn, rfl⟩ | ⟨-, hkept⟩)
      · exact ⟨n, .inl ⟨List.mem_of_find?_eq_some hn, rfl⟩, by simpa using List.find?_some hn⟩
      · split at hkept
        · cases hkept
        · next hstay =>
          -- whoever keeps a place in the index does not change
          obtain ⟨n, hn, hplace⟩ := h.place_iff.1 hkept
          exact ⟨n, .inr ⟨mt (h.freed_iff hkept).2 hstay, hn⟩, hplace⟩
    · rintro ⟨n, ⟨hn, rfl⟩ | ⟨hnot, hn⟩, rfl⟩
      · exact .inl ⟨n, find?_of_nodup ha.places hn, rfl⟩
      -- a node that does not change keeps its place to itself
      · have hplace : s.places[n.place]? = some id := h.place_iff.2 ⟨n, hn, rfl⟩
        refine .inr ⟨?_, ?_⟩
        · simp only [Option.map_eq_none_iff, List.find?_eq_none, decide_eq_true_eq]
          exact fun m hm hmn => hnot (ha.free m hm id (hmn ▸ hplace))
        · rw [if_neg (mt (h.freed_iff hplace).1 hnot), hplace]
  -- the identifiers
  · rcases (getElem?_entered_eq_some_iff ha.ids).1 hn with ⟨-, hid⟩ | ⟨-, hn⟩
    · exact hid
    · exact h.own_id hn

theorem Agrees.commit (h : s.Agrees space) (ha : s.Admits changes)
    (hspace : ∀ n ∈ changes, n.space = space) : (s.entered changes).Agrees space := by
  refine ⟨h.toIndexed.entered ha, fun {id n} hn => ?_⟩
  rcases (getElem?_entered_eq_some_iff ha.ids).1 hn with ⟨hmem, -⟩ | ⟨-, hn⟩
  · exact hspace n hmem
  · exact h.own_space hn

end Space

end Outline
