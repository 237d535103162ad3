import Mathlib.Data.List.Nodup

/-!
# Lists of items with keys

Rows, changes and members are kept in lists and looked for by a key that no two of them share.

Main results:

* `find?_of_nodup` — an item is found under its key;
* `find?_filterMap_of_nodup` — so is what was made of it.
-/

namespace Outline

/-- An item is found by its key where keys are distinct. -/
theorem find?_of_nodup {α κ : Type} [DecidableEq κ] {key : α → κ} {items : List α}
    (hnodup : (items.map key).Nodup) {a : α} (ha : a ∈ items) :
    items.find? (key · = key a) = some a := by
  cases hb : items.find? (key · = key a) with
  | none => simpa using List.find?_eq_none.1 hb a ha
  | some b =>
    have hkey : key b = key a := by simpa using List.find?_some hb
    rw [List.inj_on_of_nodup_map hnodup (List.mem_of_find?_eq_some hb) ha hkey]

/-- Nobody else is found under its key. -/
theorem filter_of_nodup {α κ : Type} [DecidableEq κ] {key : α → κ} {items : List α}
    (hnodup : (items.map key).Nodup) {a : α} (ha : a ∈ items) :
    items.filter (key · = key a) = [a] := by
  induction items with
  | nil => simp at ha
  | cons c rest ih =>
    obtain ⟨hc, hrest⟩ := List.nodup_cons.1 hnodup
    rcases List.mem_cons.1 ha with rfl | ha'
    · have hnone : rest.filter (fun b => decide (key b = key a)) = [] := by
        refine List.filter_eq_nil_iff.2 fun b hb hkey => hc ?_
        exact List.mem_map.2 ⟨b, hb, of_decide_eq_true hkey⟩
      rw [List.filter_cons_of_pos (by simp), hnone]
    · have hne : key c ≠ key a := fun h => hc (h ▸ List.mem_map_of_mem ha')
      rw [List.filter_cons_of_neg (by simp [hne]), ih hrest ha']

/-- Looking for a key in a list of items made from items with that key. -/
theorem find?_filterMap_of_nodup {α β κ : Type} [DecidableEq κ] {key : α → κ} {key' : β → κ}
    {make : α → Option β} {items : List α} (hnodup : (items.map key).Nodup)
    (hkey : ∀ a ∈ items, ∀ b, make a = some b → key' b = key a) {a : α} (ha : a ∈ items) :
    (items.filterMap make).find? (key' · = key a) = make a := by
  induction items with
  | nil => simp at ha
  | cons c rest ih =>
    obtain ⟨hc, hrest⟩ := List.nodup_cons.1 hnodup
    rcases List.mem_cons.1 ha with rfl | ha'
    · cases hm : make a with
      | some b =>
        rw [List.filterMap_cons_some hm]
        simp [hkey a (by simp) b hm]
      | none =>
        -- nothing was made of the item, and nothing else has its key
        rw [List.filterMap_cons_none hm, List.find?_eq_none]
        intro b hb
        obtain ⟨d, hd, hmd⟩ := List.mem_filterMap.1 hb
        simp only [decide_eq_true_eq]
        rw [hkey d (by simp [hd]) b hmd]
        exact fun hda => hc (hda ▸ List.mem_map_of_mem hd)
    · have hne : key c ≠ key a := fun h => hc (h ▸ List.mem_map_of_mem ha')
      have hfind := ih hrest (fun d hd => hkey d (by simp [hd])) ha'
      cases hm : make c with
      | none => rwa [List.filterMap_cons_none hm]
      | some b =>
        have hb : key' b ≠ key a := hkey c (by simp) b hm ▸ hne
        rw [List.filterMap_cons_some hm, List.find?_cons_of_neg (by simp [hb])]
        exact hfind

/-- Items made from items of a list, with the keys of those, are no more than the list. -/
theorem map_filterMap_sublist {α β κ : Type} {key : α → κ} {key' : β → κ} {make : α → Option β}
    {items : List α} (hkey : ∀ a ∈ items, ∀ b, make a = some b → key' b = key a) :
    ((items.filterMap make).map key').Sublist (items.map key) := by
  induction items with
  | nil => simp
  | cons a rest ih =>
    have ih := ih fun b hb => hkey b (List.mem_cons_of_mem _ hb)
    cases hm : make a with
    | none =>
      rw [List.filterMap_cons_none hm]
      exact ih.cons _
    | some b =>
      rw [List.filterMap_cons_some hm, List.map_cons, List.map_cons, hkey a (by simp) b hm]
      exact ih.cons_cons _

/-- A pair is looked up under its key, from whichever end the list is read. -/
theorem lookup_reverse_of_nodup {κ β : Type} [DecidableEq κ] {items : List (κ × β)}
    (hnodup : (items.map Prod.fst).Nodup) {k : κ} {b : β} (h : (k, b) ∈ items) :
    items.reverse.lookup k = some b := by
  induction items with
  | nil => simp at h
  | cons c rest ih =>
    obtain ⟨hc, hrest⟩ := List.nodup_cons.1 hnodup
    rw [List.reverse_cons, List.lookup_append]
    rcases List.mem_cons.1 h with rfl | h'
    · have hnone : rest.reverse.lookup k = none := by
        refine List.lookup_eq_none_iff.2 fun p hp => bne_iff_ne.2 fun hk => hc ?_
        exact List.mem_map.2 ⟨p, List.mem_reverse.1 hp, hk.symm⟩
      rw [hnone]
      simp
    · rw [ih hrest h']
      simp

/-- Lists with the same keys in the same order, whose items are made alike by their keys. -/
theorem map_eq_map_of_key {α β γ κ : Type} {key : α → κ} {key' : β → κ} {make : α → γ}
    {make' : β → γ} {items : List α} {items' : List β}
    (hkeys : items.map key = items'.map key')
    (hmake : ∀ a ∈ items, ∀ b ∈ items', key a = key' b → make a = make' b) :
    items.map make = items'.map make' := by
  induction items generalizing items' with
  | nil =>
    rw [List.map_nil, eq_comm, List.map_eq_nil_iff] at hkeys
    rw [hkeys, List.map_nil, List.map_nil]
  | cons a rest ih =>
    obtain ⟨b, rest', rfl, hb, hrest⟩ := List.map_eq_cons_iff.1 hkeys.symm
    rw [List.map_cons, List.map_cons, hmake a (by simp) b (by simp) hb.symm,
      ih hrest.symm fun c hc d hd => hmake c (by simp [hc]) d (by simp [hd])]

end Outline
