import Mathlib.Data.List.Sort
import Mathlib.Data.List.TakeWhile
import Outline.Proofs.Outcome
import Outline.Store.Error

/-!
# Placements keep the order

A sibling group in key order is a list with strictly ascending keys, and such a list is known by its
members alone. A target cuts the members other than the moving node in two, and every placement for
that target puts the node between the two parts: with a lone key that lies between them, or with
new keys for all that ascend in the new order.

Main results:

* `Gap.placeIn_puts` — a placement puts the node where its target says;
* `Gap.placeAt_of_free` — a key that no other member holds is taken as it is.
-/

namespace Outline

namespace Sibling

/-- The keys ascend strictly. -/
def Ascending (group : List Sibling) : Prop :=
  group.Pairwise (·.sort.val < ·.sort.val)

theorem Ascending.filter {group : List Sibling} (h : Ascending group) (p : Sibling → Bool) :
    Ascending (group.filter p) :=
  List.Pairwise.filter p h

theorem Ascending.tail {m : Sibling} {group : List Sibling} (h : Ascending (m :: group)) :
    Ascending group :=
  (List.pairwise_cons.1 h).2

theorem Ascending.head_lt {m : Sibling} {group : List Sibling} (h : Ascending (m :: group)) :
    ∀ s ∈ group, m.sort.val < s.sort.val :=
  (List.pairwise_cons.1 h).1

/-- A group in key order is known by its members. -/
theorem Ascending.eq_of_mem_iff {group group' : List Sibling} (h : Ascending group)
    (h' : Ascending group') (hmem : ∀ m, m ∈ group ↔ m ∈ group') : group = group' := by
  have : Std.Irrefl fun a b : Sibling => a.sort.val < b.sort.val := ⟨fun a => Int.lt_irrefl _⟩
  have : Std.Antisymm fun a b : Sibling => a.sort.val < b.sort.val :=
    ⟨fun a b hab hba => absurd (Int.lt_trans hab hba) (Int.lt_irrefl _)⟩
  exact List.Pairwise.eq_of_mem_iff h h' hmem

/-- In a group in key order members with one key are one member. -/
theorem Ascending.eq_of_sort {group : List Sibling} (h : Ascending group) {a b : Sibling}
    (ha : a ∈ group) (hb : b ∈ group) (hab : a.sort = b.sort) : a = b := by
  induction group with
  | nil => simp at ha
  | cons m rest ih =>
    have hlt := h.head_lt
    rcases List.mem_cons.1 ha with rfl | ha' <;> rcases List.mem_cons.1 hb with rfl | hb'
    · rfl
    · exact absurd (hab ▸ hlt b hb') (Int.lt_irrefl _)
    · exact absurd (hab ▸ hlt a ha') (Int.lt_irrefl _)
    · exact ih h.tail ha' hb'

theorem Ascending.nodup_sorts {group : List Sibling} (h : Ascending group) :
    (group.map (·.sort)).Nodup := by
  refine List.pairwise_map.2 (h.imp fun hab heq => ?_)
  exact absurd (congrArg SortKey.val heq) (Int.ne_of_lt hab)

/-- A group in key order is not changed by sorting it. -/
theorem sorted_of_ascending {group : List Sibling} (h : Ascending group) :
    sorted group = group := by
  apply List.mergeSort_of_pairwise
  refine h.imp fun hab => ?_
  simpa using Int.le_of_lt hab

/-- So the other members of such a group are what is left when the moving one is taken out. -/
theorem others_of_ascending {group : List Sibling} (h : Ascending group) (moving : Uuid) :
    others group moving = group.filter (·.id ≠ moving) :=
  sorted_of_ascending (h.filter _)

end Sibling

open Sibling (Ascending)

/-! ## Where a target cuts a group -/

namespace Target

/-- The members of a group in key order before and after the place that a target names: at the end;
before the first member whose key is not smaller; before or after the anchor. -/
def cut (group : List Sibling) : Target → List Sibling × List Sibling
  | .last => (group, [])
  | .at sort =>
    (group.takeWhile (·.sort.val < sort.val), group.dropWhile (·.sort.val < sort.val))
  | .beside anchor .before =>
    (group.takeWhile (·.id ≠ anchor), group.dropWhile (·.id ≠ anchor))
  | .beside anchor .after =>
    (group.takeWhile (·.id ≠ anchor) ++ (group.dropWhile (·.id ≠ anchor)).take 1,
      (group.dropWhile (·.id ≠ anchor)).drop 1)

/-- A cut leaves nobody out. -/
theorem cut_append (group : List Sibling) (target : Target) :
    (target.cut group).1 ++ (target.cut group).2 = group := by
  match target with
  | .last => simp [cut]
  | .at sort => simp [cut]
  | .beside anchor .before => simp [cut]
  | .beside anchor .after => simp only [cut, List.append_assoc, List.take_append_drop,
      List.takeWhile_append_dropWhile]

end Target

/-! ## What a placement makes of a group -/

namespace Placement

/-- The group after a placement of `moving` between `left` and `right`. -/
def settled (p : Placement) (left : List Sibling) (moving : Uuid) (right : List Sibling) :
    List Sibling :=
  match p with
  | .key sort => left ++ ⟨moving, sort⟩ :: right
  | .respread members => members

/-- The placement puts `moving` between `left` and `right`, with keys in that order. -/
structure Puts (p : Placement) (left : List Sibling) (moving : Uuid) (right : List Sibling) :
    Prop where
  ids       : (p.settled left moving right).map (·.id) =
                left.map (·.id) ++ moving :: right.map (·.id)
  ascending : Ascending (p.settled left moving right)

/-- A lone key between the two sides puts the node between them. -/
theorem puts_key {left right : List Sibling} {moving : Uuid} {sort : SortKey}
    (h : Ascending (left ++ right)) (hl : ∀ s ∈ left, s.sort.val < sort.val)
    (hr : ∀ s ∈ right, sort.val < s.sort.val) : (key sort).Puts left moving right := by
  refine ⟨by simp [settled], ?_⟩
  obtain ⟨hleft, hright, hcross⟩ := List.pairwise_append.1 h
  refine List.pairwise_append.2 ⟨hleft, List.pairwise_cons.2 ⟨hr, hright⟩, fun s hs t ht => ?_⟩
  rcases List.mem_cons.1 ht with rfl | ht
  · exact hl s hs
  · exact hcross s hs t ht

end Placement

namespace Gap

variable {gap : Gap}

theorem size_pos (gap : Gap) : 0 < gap.size.val := by
  have := gap.two_le
  omega

/-! ## Respread groups -/

/-- Keys are spread over the members in the order in which they are given. -/
theorem ids_spreadFrom? {n : Nat} {ids : List Uuid} {members : List Sibling}
    (h : gap.spreadFrom? n ids = some members) : members.map (·.id) = ids := by
  induction ids generalizing n members with
  | nil =>
    cases h
    rfl
  | cons id rest ih =>
    unfold spreadFrom? at h
    split at h
    · next sort tail _ htail =>
      cases h
      simp [ih htail]
    · cases h

/-- The keys of a respread group are the multiples of the gap in turn. -/
theorem keys_spreadFrom? {n : Nat} {ids : List Uuid} {members : List Sibling}
    (h : gap.spreadFrom? n ids = some members) :
    members.map (·.sort.val) =
      (List.range' (n + 1) ids.length).map fun i : Nat => (i : Int) * gap.size.val := by
  induction ids generalizing n members with
  | nil =>
    cases h
    rfl
  | cons id rest ih =>
    unfold spreadFrom? at h
    split at h
    · next sort tail hsort htail =>
      cases h
      have hval := SortKey.ofInt?_eq_some_iff.1 hsort
      simp [ih htail, List.range'_succ, ← hval]
    · cases h

/-- And they ascend in that order, by the gap from one to the next. -/
theorem ascending_spreadFrom? {n : Nat} {ids : List Uuid} {members : List Sibling}
    (h : gap.spreadFrom? n ids = some members) : Ascending members := by
  have hkeys : (members.map (·.sort.val)).Pairwise (· < ·) := by
    rw [keys_spreadFrom? h, List.pairwise_map]
    refine List.Pairwise.imp (fun {a b} hab => ?_) (List.pairwise_lt_range' 1)
    exact Int.mul_lt_mul_of_pos_right (by exact_mod_cast hab) gap.size_pos
  exact List.pairwise_map.1 hkeys

/-- A spread that succeeds starts from the gap. -/
theorem spread_eq_ok {ids : List Uuid} {members : List Sibling}
    (h : gap.spread ids = .ok members) : gap.spreadFrom? 0 ids = some members := by
  unfold spread at h
  split at h
  · next hm =>
    cases h
    exact hm
  · cases h

/-- The moving node is spread along with both sides, so it comes to stand between them. -/
theorem respread_puts {left right : List Sibling} {moving : Uuid} {p : Placement}
    (h : gap.respread left moving right = .ok p) : p.Puts left moving right := by
  unfold respread at h
  cases hs : gap.spread (left.map (·.id) ++ moving :: right.map (·.id)) with
  | error e => simp [hs, Except.map] at h
  | ok members =>
    simp only [hs, Except.map, Except.ok.injEq] at h
    subst h
    have hm := spread_eq_ok hs
    exact ⟨ids_spreadFrom? hm, ascending_spreadFrom? hm⟩

/-- A renumbered group has its members in their present order. -/
theorem compact_eq_ok {group members : List Sibling} (ha : Ascending group)
    (h : gap.compact group = .ok members) :
    members.map (·.id) = group.map (·.id) ∧ Ascending members := by
  rw [compact, Sibling.sorted_of_ascending ha] at h
  exact ⟨ids_spreadFrom? (spread_eq_ok h), ascending_spreadFrom? (spread_eq_ok h)⟩

/-! ## Lone keys -/

/-- A midpoint lies strictly between its two bounds. -/
theorem midpoint?_between {below above : Int} {sort : SortKey}
    (h : midpoint? below above = some sort) : below < sort.val ∧ sort.val < above := by
  unfold midpoint? at h
  split at h
  · cases h
  · have := SortKey.ofInt?_eq_some_iff.1 h
    omega

/-- The next key is larger than the last one, as a gap is positive. -/
theorem lt_next? {last sort : SortKey} (h : gap.next? (some last) = some sort) :
    last.val < sort.val := by
  have := SortKey.ofInt?_eq_some_iff.1 h
  have := gap.size_pos
  omega

/-- A key between two neighbours lies strictly between those that there are. -/
theorem between?_between {below above : Option SortKey} {sort : SortKey}
    (h : gap.between? below above = some sort) :
    (∀ b, below = some b → b.val < sort.val) ∧ (∀ a, above = some a → sort.val < a.val) := by
  match below, above with
  | none, none => simp
  | some b, none => simpa using lt_next? h
  | none, some a => simpa using (midpoint?_between h).2
  | some b, some a => simpa using midpoint?_between h

/-- The last member of a group in key order has the largest key, -/
theorem le_getLast?_of_ascending {group : List Sibling} (h : Ascending group) {last : Sibling}
    (hlast : group.getLast? = some last) : ∀ s ∈ group, s.sort.val ≤ last.sort.val := by
  obtain ⟨front, rfl⟩ := List.getLast?_eq_some_iff.1 hlast
  intro s hs
  rcases List.mem_append.1 hs with hs | hs
  · exact Int.le_of_lt ((List.pairwise_append.1 h).2.2 s hs last (by simp))
  · rw [List.mem_singleton.1 hs]

/-- and the first has the smallest. -/
theorem head?_le_of_ascending {group : List Sibling} (h : Ascending group) {first : Sibling}
    (hfirst : group.head? = some first) : ∀ s ∈ group, first.sort.val ≤ s.sort.val := by
  obtain ⟨rest, rfl⟩ := List.head?_eq_some_iff.1 hfirst
  intro s hs
  rcases List.mem_cons.1 hs with rfl | hs
  · exact Int.le_refl _
  · exact Int.le_of_lt (h.head_lt s hs)

/-- Whether it finds a lone key or respreads, `placeBetween` puts the node where it is told. -/
theorem placeBetween_puts {left right : List Sibling} {moving : Uuid} {p : Placement}
    (ha : Ascending (left ++ right)) (h : gap.placeBetween left moving right = .ok p) :
    p.Puts left moving right := by
  unfold placeBetween at h
  split at h
  -- a lone key lies between the last on the left and the first on the right
  · next sort hsort =>
    cases h
    obtain ⟨hb, hab⟩ := between?_between hsort
    obtain ⟨hleft, hright, -⟩ := List.pairwise_append.1 ha
    apply Placement.puts_key ha
    · intro s hs
      cases hlast : left.getLast? with
      | none => simp_all
      | some last =>
        have hle : s.sort.val ≤ last.sort.val := le_getLast?_of_ascending hleft hlast s hs
        have hlt : last.sort.val < sort.val := hb last.sort (by simp [hlast])
        omega
    · intro s hs
      cases hfirst : right.head? with
      | none => simp_all
      | some first =>
        have hle : first.sort.val ≤ s.sort.val := head?_le_of_ascending hright hfirst s hs
        have hlt : sort.val < first.sort.val := hab first.sort (by simp [hfirst])
        omega
  · exact respread_puts h

/-! ## Placements for a target -/

/-- In a group in key order nobody behind the cut at a key has a smaller one. -/
theorem le_of_mem_dropWhile {group : List Sibling} (h : Ascending group) {sort : SortKey} :
    ∀ s ∈ group.dropWhile (·.sort.val < sort.val), sort.val ≤ s.sort.val := by
  intro s hs
  cases hd : group.dropWhile (·.sort.val < sort.val) with
  | nil => simp [hd] at hs
  | cons first rest =>
    -- the first of them is not smaller, and the others are not smaller than the first
    have hfirst : sort.val ≤ first.sort.val := by
      have hnot := List.head?_dropWhile_not (fun s => decide (s.sort.val < sort.val)) group
      simpa [hd] using hnot
    have hsorted : Ascending (first :: rest) :=
      hd ▸ List.Pairwise.sublist (List.dropWhile_sublist _) h
    rw [hd] at hs
    have hle : first.sort.val ≤ s.sort.val := head?_le_of_ascending hsorted rfl s hs
    omega

variable {group : List Sibling} {moving : Uuid} {p : Placement}

/-- A node that is placed last comes behind all others. -/
theorem placeLast_puts (ha : Ascending (Sibling.others group moving))
    (h : gap.placeLast group moving = .ok p) :
    p.Puts (Target.cut (Sibling.others group moving) .last).1 moving
      (Target.cut (Sibling.others group moving) .last).2 :=
  placeBetween_puts (by simpa [Target.cut] using ha) h

/-- Nothing is smaller than a key in a group in key order but the members before its holder. -/
theorem cut_at_holder {others : List Sibling} {target : SortKey} (ha : Ascending others)
    (hheld : others.dropWhile (·.sort ≠ target) ≠ []) :
    Target.cut others (.at target) =
      (others.takeWhile (·.sort ≠ target), others.dropWhile (·.sort ≠ target)) := by
  induction others with
  | nil => simp at hheld
  | cons s rest ih =>
    by_cases hs : s.sort = target
    · simp [Target.cut, hs]
    · have hheld : rest.dropWhile (·.sort ≠ target) ≠ [] := by simpa [hs] using hheld
      obtain ⟨t, ht, htarget⟩ : ∃ t ∈ rest, t.sort = target := by
        simpa [List.dropWhile_eq_nil_iff] using hheld
      have hlt : s.sort.val < target.val := htarget ▸ ha.head_lt t ht
      have := ih ha.tail hheld
      simp only [Target.cut, Prod.mk.injEq] at this ⊢
      simpa [hs, hlt] using this

/-- A key that nobody else has is taken as it is. -/
theorem placeAt_of_free {target : SortKey}
    (hfree : ∀ s ∈ Sibling.others group moving, s.sort ≠ target) :
    gap.placeAt group moving target = .ok (.key target) := by
  have hnil : (Sibling.others group moving).dropWhile (·.sort ≠ target) = [] := by
    simpa [List.dropWhile_eq_nil_iff] using hfree
  simp only [placeAt, hnil]

/-- A node that is placed at a key comes before the first that has that key or a larger one. -/
theorem placeAt_puts {target : SortKey} (ha : Ascending (Sibling.others group moving))
    (h : gap.placeAt group moving target = .ok p) :
    p.Puts (Target.cut (Sibling.others group moving) (.at target)).1 moving
      (Target.cut (Sibling.others group moving) (.at target)).2 := by
  set others := Sibling.others group moving with hothers
  by_cases hfree : ∀ s ∈ others, s.sort ≠ target
  -- a free key is taken, and lies between the two parts
  · rw [placeAt_of_free hfree] at h
    cases h
    have happend := Target.cut_append others (.at target)
    apply Placement.puts_key (by rwa [happend])
    · intro s hs
      simpa using List.mem_takeWhile_imp hs
    · intro s hs
      have hmem : s ∈ others := by
        rw [← happend]
        exact List.mem_append_right _ hs
      have hge : target.val ≤ s.sort.val := le_of_mem_dropWhile ha s hs
      have hne : s.sort.val ≠ target.val := fun he => hfree s hmem (SortKey.ext_val he)
      omega
  -- with a taken key the group is respread before its holder
  · have hheld : others.dropWhile (·.sort ≠ target) ≠ [] := by
      simpa [List.dropWhile_eq_nil_iff] using hfree
    rw [cut_at_holder ha hheld]
    unfold placeAt at h
    dsimp only at h
    rw [← hothers] at h
    split at h
    · next hnil => exact absurd hnil hheld
    · exact respread_puts h

/-- A node that is placed beside an anchor comes directly before or behind it. -/
theorem placeBeside_puts {anchor : Uuid} {side : Side}
    (ha : Ascending (Sibling.others group moving))
    (h : gap.placeBeside group moving anchor side = some (.ok p)) :
    p.Puts (Target.cut (Sibling.others group moving) (.beside anchor side)).1 moving
      (Target.cut (Sibling.others group moving) (.beside anchor side)).2 := by
  set others := Sibling.others group moving with hothers
  have happend := Target.cut_append others (.beside anchor side)
  unfold placeBeside at h
  dsimp only at h
  rw [← hothers] at h
  split at h
  · cases h
  -- before the anchor, which begins the second part
  · next found right hfound =>
    have hcut : Target.cut others (.beside anchor .before) =
        (others.takeWhile (·.id ≠ anchor), found :: right) := by
      simp only [Target.cut, hfound]
    rw [hcut] at happend ⊢
    exact placeBetween_puts (by rwa [happend]) (Option.some.inj h)
  -- after it, where it ends the first part
  · next found right hfound =>
    have hcut : Target.cut others (.beside anchor .after) =
        (others.takeWhile (·.id ≠ anchor) ++ [found], right) := by
      simp only [Target.cut, hfound, List.take_succ_cons, List.take_zero, List.drop_succ_cons,
        List.drop_zero]
    rw [hcut] at happend ⊢
    exact placeBetween_puts (by rwa [happend]) (Option.some.inj h)

/-- A store's placement puts the node where its target says among the other members. -/
theorem placeIn_puts {g : Group} {target : Target}
    (ha : Ascending (Sibling.others group moving))
    (h : gap.placeIn g group moving target = .ok p) :
    p.Puts (target.cut (Sibling.others group moving)).1 moving
      (target.cut (Sibling.others group moving)).2 := by
  cases target with
  | last => exact placeLast_puts ha (mapError_eq_ok_iff.1 h)
  | «at» sort => exact placeAt_puts ha (mapError_eq_ok_iff.1 h)
  | beside anchor side =>
    simp only [placeIn] at h
    split at h
    · next placement hp =>
      rw [mapError_eq_ok_iff] at h
      exact placeBeside_puts ha (h ▸ hp)
    · cases h

end Gap

end Outline
