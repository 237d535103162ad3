import Mathlib.Algebra.Group.Int.Defs
import Mathlib.Algebra.Group.Nat.Defs
import Outline.Proofs.Outcome
import Outline.Store.Database

/-!
# Runs of free keys

Rows are parked on a run of keys that are not in use. A run that is found fits in 64 bits and meets
no used key; and if there is a free run anywhere, the search finds one. There is one whenever there
are few enough used keys, because used keys without room between them, before them and behind them
reach from one end of the keys to the other.

Main results:

* `freeRun?_free` — the keys of a run that is found are free;
* `freeRun?_of_free` — a run is found if there is one;
* `freeRun?_isSome` — a run is found when the used keys are too few to leave no room.
-/

namespace Outline

/-! ## Room between neighbours -/

section Room

variable {count : Int}

theorem le_of_firstRoom? {d a : Int} {rest : List Int} (hs : (d :: rest).Pairwise (· ≤ ·))
    (h : firstRoom? count (d :: rest) = some a) : d ≤ a := by
  induction rest generalizing d with
  | nil => simp [firstRoom?] at h
  | cons e rest ih =>
    obtain ⟨hd, hrest⟩ := List.pairwise_cons.1 hs
    unfold firstRoom? at h
    split at h
    · exact Int.le_of_eq (Option.some.inj h)
    · exact Int.le_trans (hd e (by simp)) (ih hrest h)

/-- Room that is found lies between two neighbouring keys. -/
theorem firstRoom?_between {keys : List Int} (hs : keys.Pairwise (· ≤ ·)) {a : Int}
    (h : firstRoom? count keys = some a) :
    ∃ b ∈ keys, count < b - a ∧ a ∈ keys ∧ ∀ x ∈ keys, x ≤ a ∨ b ≤ x := by
  induction keys with
  | nil => simp [firstRoom?] at h
  | cons c rest ih =>
    cases rest with
    | nil => simp [firstRoom?] at h
    | cons d rest =>
      obtain ⟨hc, hrest⟩ := List.pairwise_cons.1 hs
      unfold firstRoom? at h
      split at h
      -- room right behind the first key, which is the smallest
      · next hroom =>
        obtain rfl := Option.some.inj h
        refine ⟨d, by simp, hroom, by simp, fun x hx => ?_⟩
        rcases List.mem_cons.1 hx with rfl | hx
        · exact .inl (Int.le_refl _)
        · rcases List.mem_cons.1 hx with rfl | hx
          · exact .inr (Int.le_refl _)
          · exact .inr ((List.pairwise_cons.1 hrest).1 x hx)
      -- or further on, and the first key is not behind it
      · obtain ⟨b, hb, hroom, ha, hsides⟩ := ih hrest h
        refine ⟨b, List.mem_cons_of_mem _ hb, hroom, List.mem_cons_of_mem _ ha, fun x hx => ?_⟩
        rcases List.mem_cons.1 hx with rfl | hx
        · exact .inl (Int.le_trans (hc d (by simp)) (le_of_firstRoom? hrest h))
        · exact hsides x hx

/-- Keys without room between them do not reach far. -/
theorem getLast?_le_of_firstRoom? {first last : Int} {rest : List Int}
    (h : firstRoom? count (first :: rest) = none) (hlast : (first :: rest).getLast? = some last) :
    last ≤ first + rest.length * count := by
  -- each neighbour is at most `count` further
  induction rest generalizing first with
  | nil =>
    obtain rfl : first = last := by simpa using hlast
    simp
  | cons d rest ih =>
    unfold firstRoom? at h
    split at h
    · cases h
    · next hroom =>
      rw [List.getLast?_cons_cons] at hlast
      have hrest := ih h hlast
      have hmul : ((d :: rest).length : Int) * count = rest.length * count + count := by
        rw [List.length_cons, Int.natCast_add, Int.add_mul]
        omega
      omega

/-- Between a key below a stretch of `count` keys and one behind it there is room. -/
theorem firstRoom?_of_free {start first : Int} {rest : List Int} (hfirst : first < start)
    (hbehind : ∃ x ∈ first :: rest, start + count ≤ x) (hpos : 0 < count)
    (hfree : ∀ x ∈ rest, x < start ∨ start + count ≤ x) :
    ∃ a, firstRoom? count (first :: rest) = some a := by
  induction rest generalizing first with
  | nil =>
    obtain ⟨x, hx, hge⟩ := hbehind
    obtain rfl := List.mem_singleton.1 hx
    omega
  | cons d rest ih =>
    unfold firstRoom?
    split
    · exact ⟨first, rfl⟩
    -- the stretch does not lie right behind the first key, so the next key is below it too
    · next hnone =>
      have hd : d < start := (hfree d (by simp)).resolve_right (by omega)
      refine ih hd ?_ fun x hx => hfree x (by simp [hx])
      obtain ⟨x, hx, hge⟩ := hbehind
      refine ⟨x, (List.mem_cons.1 hx).resolve_left ?_, hge⟩
      omega

end Room

/-! ## The keys in order -/

section Keys

variable (used : List SortKey)

theorem mem_sortedKeys {x : Int} :
    x ∈ (used.map (·.val)).mergeSort ↔ ∃ k ∈ used, k.val = x := by
  simp

theorem sortedKeys_pairwise : ((used.map (·.val)).mergeSort).Pairwise (· ≤ ·) := by
  have hsorted : ((used.map (·.val)).mergeSort).Pairwise fun a b => decide (a ≤ b) = true :=
    List.pairwise_mergeSort (by simp only [decide_eq_true_eq]; omega)
      (by simp only [Bool.or_eq_true, decide_eq_true_eq]; omega) _
  simpa using hsorted

variable {keys : List Int}

theorem head_le_of_sorted (hs : keys.Pairwise (· ≤ ·)) {first : Int}
    (hfirst : keys.head? = some first) : ∀ x ∈ keys, first ≤ x := by
  obtain ⟨rest, rfl⟩ := List.head?_eq_some_iff.1 hfirst
  intro x hx
  rcases List.mem_cons.1 hx with rfl | hx
  · exact Int.le_refl _
  · exact (List.pairwise_cons.1 hs).1 x hx

theorem le_last_of_sorted (hs : keys.Pairwise (· ≤ ·)) {last : Int}
    (hlast : keys.getLast? = some last) : ∀ x ∈ keys, x ≤ last := by
  obtain ⟨front, rfl⟩ := List.getLast?_eq_some_iff.1 hlast
  intro x hx
  rcases List.mem_append.1 hx with hx | hx
  · exact (List.pairwise_append.1 hs).2.2 x hx last (by simp)
  · exact Int.le_of_eq (List.mem_singleton.1 hx)

end Keys

/-! ## Runs -/

/-- The `count` keys from `start` on all fit, and none is used. -/
def FreeRun (used : List SortKey) (count : Nat) (start : SortKey) : Prop :=
  ∀ i < count, ∃ k, SortKey.ofInt? (start.val + i) = some k ∧ k ∉ used

variable {used : List SortKey} {count : Nat} {start : SortKey}

/-- Keys that lie within bounds that fit, and that no used key lies within, are a free run. -/
theorem FreeRun.of_bounds (hmax : start.val + count ≤ 2 ^ 63)
    (hfree : ∀ k ∈ used, k.val < start.val ∨ start.val + count ≤ k.val) :
    FreeRun used count start := by
  intro i hi
  have hmin := start.ge_min
  refine ⟨⟨start.val + i, by omega, by omega⟩, SortKey.ofInt?_eq_some_iff.2 rfl, fun hk => ?_⟩
  rcases hfree _ hk with hlow | hhigh
  · simp only at hlow
    omega
  · simp only at hhigh
    omega

/-- Whichever of the three places a run is found at, its keys are free. -/
theorem freeRun?_free (h : freeRun? used count = some start) : FreeRun used count start := by
  have hmem := @mem_sortedKeys used
  have hsorted := sortedKeys_pairwise used
  unfold freeRun? at h
  dsimp only at h
  generalize (used.map (·.val)).mergeSort = keys at h hmem hsorted
  split at h
  · next first last hfirst hlast =>
    have hge : ∀ k ∈ used, first ≤ k.val :=
      fun k hk => head_le_of_sorted hsorted hfirst k.val (hmem.2 ⟨k, hk, rfl⟩)
    have hle : ∀ k ∈ used, k.val ≤ last :=
      fun k hk => le_last_of_sorted hsorted hlast k.val (hmem.2 ⟨k, hk, rfl⟩)
    simp only [Option.orElse_eq_orElse, Option.orElse_eq_or, Option.or_eq_some_iff,
      Option.bind_eq_some_iff, SortKey.ofInt?_eq_some_iff] at h
    rcases h with hbelow | ⟨-, ⟨a, ha, hstart⟩ | ⟨-, top, htop, hstart⟩⟩
    -- just below the first used key
    · obtain ⟨k, -, hk⟩ := hmem.1 (List.mem_of_mem_head? hfirst)
      have hkmax := k.lt_max
      refine .of_bounds (by omega) fun k' hk' => .inr ?_
      have hk'ge := hge k' hk'
      omega
    -- between two neighbours
    · obtain ⟨b, hb, hroom, -, hsides⟩ := firstRoom?_between hsorted ha
      obtain ⟨k, -, hk⟩ := hmem.1 hb
      have hkmax := k.lt_max
      refine .of_bounds (by omega) fun k' hk' => ?_
      have hside := hsides k'.val (hmem.2 ⟨k', hk', rfl⟩)
      omega
    -- behind the last used key
    · have htopmax := top.lt_max
      refine .of_bounds (by omega) fun k' hk' => .inl ?_
      have hk'le := hle k' hk'
      omega
  -- anywhere
  · next hnone =>
    have hunused : used = [] := by
      refine List.eq_nil_iff_forall_not_mem.2 fun k hk => ?_
      have hk' : k.val ∈ keys := hmem.2 ⟨k, hk, rfl⟩
      cases keys with
      | nil => simp at hk'
      | cons first rest => exact hnone _ _ rfl (List.getLast?_eq_some_getLast (by simp))
    have hstart := SortKey.ofInt?_eq_some_iff.1 h
    refine .of_bounds (by omega) fun k hk => ?_
    rw [hunused] at hk
    cases hk

/-- A free run has its ends within bounds that fit, and no used key lies between them. -/
theorem FreeRun.bounds (hpos : 0 < count) (h : FreeRun used count start) :
    start.val + count ≤ 2 ^ 63 ∧ ∀ k ∈ used, k.val < start.val ∨ start.val + count ≤ k.val := by
  constructor
  · obtain ⟨last, hlast, -⟩ := h (count - 1) (by omega)
    have hfits := SortKey.ofInt?_eq_some_iff.1 hlast
    have hmax := last.lt_max
    omega
  · intro k hk
    refine Decidable.or_iff_not_not_and_not.2 fun hin => ?_
    -- a key between the ends is one of the run
    obtain ⟨k', hk', hfree⟩ := h (k.val - start.val).toNat (by omega)
    have hval := SortKey.ofInt?_eq_some_iff.1 hk'
    obtain rfl : k' = k := SortKey.ext_val (by omega)
    exact hfree hk

theorem SortKey.exists_ofInt? {x : Int} (hmin : -2 ^ 63 ≤ x) (hmax : x < 2 ^ 63) :
    ∃ k, SortKey.ofInt? x = some k :=
  ⟨⟨x, hmin, hmax⟩, SortKey.ofInt?_eq_some_iff.2 rfl⟩

/-- Room between neighbours leaves a key for the run to begin with. -/
theorem exists_behind_of_firstRoom? {count a : Int} (hpos : 0 < count)
    (h : firstRoom? count (used.map (·.val)).mergeSort = some a) :
    ∃ k, SortKey.ofInt? (a + 1) = some k := by
  obtain ⟨b, hb, hroom, ha, -⟩ := firstRoom?_between (sortedKeys_pairwise used) h
  obtain ⟨ka, -, hka⟩ := (mem_sortedKeys used).1 ha
  obtain ⟨kb, -, hkb⟩ := (mem_sortedKeys used).1 hb
  have hmin := ka.ge_min
  have hmax := kb.lt_max
  exact SortKey.exists_ofInt? (by omega) (by omega)

/-- Below, between or above the used keys: wherever there is a free run, the search finds one. -/
theorem freeRun?_of_free (hpos : 0 < count) (hcount : count < 2 ^ 63)
    (h : FreeRun used count start) : ∃ start', freeRun? used count = some start' := by
  obtain ⟨hmax, hfree⟩ := h.bounds hpos
  have hmem := @mem_sortedKeys used
  have hbehind := @exists_behind_of_firstRoom? used count
  have hmin := start.ge_min
  unfold freeRun?
  dsimp only
  generalize (used.map (·.val)).mergeSort = keys at hmem hbehind
  split
  · next first last hfirst hlast =>
    obtain ⟨kfirst, hkfirst, rfl⟩ := hmem.1 (List.mem_of_mem_head? hfirst)
    obtain ⟨klast, hklast, rfl⟩ := hmem.1 (List.mem_of_getLast? hlast)
    obtain ⟨rest, rfl⟩ := List.head?_eq_some_iff.1 hfirst
    have hfirstmax := kfirst.lt_max
    have hlastmin := klast.ge_min
    by_cases hbelow : -2 ^ 63 ≤ kfirst.val - count
    · obtain ⟨start', hstart'⟩ := SortKey.exists_ofInt? hbelow (by omega)
      exact ⟨start', by rw [hstart']; rfl⟩
    · have hnone : SortKey.ofInt? (kfirst.val - count) = none :=
        SortKey.ofInt?_eq_none_iff.2 fun h => hbelow h.1
      have hstart : kfirst.val < start.val := by
        rcases hfree kfirst hkfirst with hlt | hge
        · exact hlt
        · omega
      rcases hfree klast hklast with habove | hbetween
      -- the run lies behind the last used key
      · obtain ⟨top, htop⟩ := SortKey.exists_ofInt? (x := klast.val + count) (by omega) (by omega)
        obtain ⟨next, hnext⟩ := SortKey.exists_ofInt? (x := klast.val + 1) (by omega) (by omega)
        cases hroom : (firstRoom? count (kfirst.val :: rest)).bind fun a =>
            SortKey.ofInt? (a + 1) with
        | some start' => exact ⟨start', by simp [hnone]⟩
        | none => exact ⟨next, by simp [hnone, htop, hnext]⟩
      -- the run lies between two used keys
      · have hothers : ∀ x ∈ rest, x < start.val ∨ start.val + count ≤ x := by
          intro x hx
          obtain ⟨k, hk, rfl⟩ := hmem.1 (List.mem_cons_of_mem _ hx)
          exact hfree k hk
        obtain ⟨a, ha⟩ : ∃ a, firstRoom? count (kfirst.val :: rest) = some a :=
          firstRoom?_of_free hstart ⟨_, List.mem_of_getLast? hlast, hbetween⟩ (by omega) hothers
        obtain ⟨start', hstart'⟩ := hbehind (by omega) ha
        exact ⟨start', by simp [hnone, ha, hstart']⟩
  · exact SortKey.exists_ofInt? (by omega) (by omega)

/-- Used keys between which, and around which, no run fits reach over all keys. -/
theorem freeRun?_isSome (hpos : 0 < count) (hcount : count < 2 ^ 63)
    (hroom : (used.length + 1) * count ≤ 2 ^ 64) : ∃ start, freeRun? used count = some start := by
  have hmem := @mem_sortedKeys used
  have hbehind := @exists_behind_of_firstRoom? used count
  have hlength : (used.map (·.val)).mergeSort.length = used.length := by simp
  unfold freeRun?
  dsimp only
  generalize (used.map (·.val)).mergeSort = keys at hmem hbehind hlength
  split
  · next first last hfirst hlast =>
    obtain ⟨k, -, hk⟩ := hmem.1 (List.mem_of_mem_head? hfirst)
    obtain ⟨k', -, hk'⟩ := hmem.1 (List.mem_of_getLast? hlast)
    have hkmax := k.lt_max
    have hkmin' := k'.ge_min
    obtain ⟨rest, rfl⟩ := List.head?_eq_some_iff.1 hfirst
    -- one of the three places has room: if the first two have none, the last has
    by_cases hbelow : -2 ^ 63 ≤ first - count
    · obtain ⟨start, hstart⟩ := SortKey.exists_ofInt? hbelow (by omega)
      exact ⟨start, by rw [hstart]; rfl⟩
    · have hnone : SortKey.ofInt? (first - count) = none :=
        SortKey.ofInt?_eq_none_iff.2 fun h => hbelow h.1
      cases hbetween : firstRoom? count (first :: rest) with
      | some a =>
        obtain ⟨start, hstart⟩ := hbehind (by omega) hbetween
        exact ⟨start, by simp [hnone, hstart]⟩
      | none =>
        -- without room between them the keys do not reach the top
        have hreach := getLast?_le_of_firstRoom? hbetween hlast
        have hspan : (rest.length : Int) * count + count + count ≤ 2 ^ 64 := by
          rw [List.length_cons] at hlength
          have hroom' : ((rest.length + 1 + 1) * count : Nat) ≤ 2 ^ 64 := by rwa [hlength]
          have hexpand : (rest.length + 1 + 1) * count = rest.length * count + count + count := by
            rw [Nat.add_mul, Nat.add_mul, Nat.one_mul]
          rw [hexpand] at hroom'
          exact_mod_cast hroom'
        obtain ⟨top, htop⟩ := SortKey.exists_ofInt? (x := last + count) (by omega) (by omega)
        obtain ⟨start, hstart⟩ := SortKey.exists_ofInt? (x := last + 1) (by omega) (by omega)
        exact ⟨start, by simp [hnone, htop, hstart]⟩
  -- without used keys a run fits below zero
  · exact SortKey.exists_ofInt? (by omega) (by omega)

/-- Below zero there is room for a run when no negative key is used. -/
theorem freeRun?_isSome_of_nonneg {used : List SortKey} {count : Nat} (hcount : count ≤ 2 ^ 63)
    (hused : ∀ k ∈ used, 0 ≤ k.val) : ∃ start, freeRun? used count = some start := by
  have hmem := @mem_sortedKeys used
  unfold freeRun?
  dsimp only
  generalize (used.map (·.val)).mergeSort = keys at hmem
  split
  · next first last hfirst hlast =>
    obtain ⟨k, hk, rfl⟩ := hmem.1 (List.mem_of_mem_head? hfirst)
    have hmin := hused k hk
    have hmax := k.lt_max
    have hstart : SortKey.ofInt? (k.val - count) = some ⟨k.val - count, by omega, by omega⟩ :=
      SortKey.ofInt?_eq_some_iff.2 rfl
    exact ⟨_, by rw [hstart]; rfl⟩
  · exact ⟨⟨-count, by omega, by omega⟩, SortKey.ofInt?_eq_some_iff.2 rfl⟩

end Outline
