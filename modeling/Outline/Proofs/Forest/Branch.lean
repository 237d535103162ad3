import Outline.Proofs.Forest.Basic

/-!
# Climbing and descending a forest

Two searches run over a forest with a bound on their length. The climb goes up from the destination
of a move and looks for the moved node; the descent goes down level by level from a node that is to
be removed. In a rooted forest neither is cut short by its bound: a way up visits no node twice, so
it is no longer than the number of nodes.

Main results:

* `climb_clear_iff` — what a climb finds over any parents, those of damaged data included;
* `checkAcyclic_eq_ok_iff` — a climb succeeds unless the destination is below the node;
* `mem_levels_iff`, `levels_nodup` — a descent meets each node below its start exactly once.
-/

namespace Outline

variable {π τ : Type} {f : Forest π τ}

/-! ## Climbing -/

/-- An identifier and those above it, each the parent of the one before, up to one without a parent.
Nothing is asked of the parents, so an identifier on a circle has no chain. -/
inductive Chain (parentOf : Uuid → Option Uuid) : Uuid → List Uuid → Prop
  | root {id : Uuid} : parentOf id = none → Chain parentOf id [id]
  | step {id parent : Uuid} {path : List Uuid} : parentOf id = some parent →
      Chain parentOf parent path → Chain parentOf id (id :: path)

namespace Chain

variable {parentOf : Uuid → Option Uuid} {id : Uuid} {path path' : List Uuid}

theorem self_mem (h : Chain parentOf id path) : id ∈ path := by
  cases h <;> simp

theorem unique (h : Chain parentOf id path) (h' : Chain parentOf id path') : path = path' := by
  induction h generalizing path' with
  | root hp =>
    cases h' with
    | root => rfl
    | step hp' => simp [hp] at hp'
  | step hp _ ih =>
    cases h' with
    | root hp' => simp [hp] at hp'
    | step hp' htail =>
      rw [hp] at hp'
      obtain rfl := Option.some.inj hp'
      rw [ih htail]

end Chain

/-- A climb ends well when the chain is no longer than the bound and the node is not on it. -/
theorem climb_clear_iff {parentOf : Uuid → Option Uuid} {node id : Uuid} {steps : Nat} :
    (climb parentOf node steps (some id)).clear = true ↔
      ∃ path, Chain parentOf id path ∧ path.length ≤ steps ∧ node ∉ path := by
  -- the induction is on the bound, of which every identifier of the chain takes one
  induction steps generalizing id with
  | zero =>
    have hblocked : (climb parentOf node 0 (some id)).clear = false := by
      unfold climb
      split <;> rfl
    rw [hblocked]
    refine iff_of_false Bool.false_ne_true ?_
    rintro ⟨path, hpath, hlen, -⟩
    exact List.ne_nil_of_mem hpath.self_mem (List.length_eq_zero_iff.1 (Nat.le_zero.1 hlen))
  | succ steps ih =>
    by_cases hid : id = node
    · subst hid
      rw [climb, if_pos rfl]
      refine iff_of_false Bool.false_ne_true ?_
      rintro ⟨path, hpath, -, hmem⟩
      exact hmem hpath.self_mem
    · rw [climb, if_neg hid]
      dsimp only
      cases hp : parentOf id with
      | none =>
        rw [climb]
        refine iff_of_true rfl ⟨[id], .root hp, Nat.succ_le_succ (Nat.zero_le _), ?_⟩
        simpa using Ne.symm hid
      | some p =>
        rw [ih]
        constructor
        · rintro ⟨path, hpath, hlen, hmem⟩
          refine ⟨id :: path, .step hp hpath, Nat.succ_le_succ hlen, ?_⟩
          simp [hmem, Ne.symm hid]
        · rintro ⟨path, hpath, hlen, hmem⟩
          cases hpath with
          | root hp' => simp [hp] at hp'
          | step hp' htail =>
            rw [hp] at hp'
            obtain rfl := Option.some.inj hp'
            exact ⟨_, htail, Nat.le_of_succ_le_succ hlen,
              fun hnode => hmem (List.mem_cons_of_mem _ hnode)⟩

/-- A way up is a chain of any function that gives its nodes their parents. -/
theorem Ascent.chain {parentOf : Uuid → Option Uuid} {id : Uuid} {path : List Uuid}
    (h : Ascent f id path) (hparent : ∀ a ∈ path, ∀ r, f a = some r → parentOf a = r.parent) :
    Chain parentOf id path := by
  induction h with
  | root hr hp => exact .root ((hparent _ (by simp) _ hr).trans hp)
  | step hr hp _ ih =>
    refine .step ((hparent _ (by simp) _ hr).trans hp) (ih fun a ha => ?_)
    exact hparent a (List.mem_cons_of_mem _ ha)

/-- A climb along a way up ends well when it does not meet the node. -/
theorem climb_of_ascent {parentOf : Uuid → Option Uuid} {node id : Uuid} {path : List Uuid}
    {steps : Nat} (hpath : Ascent f id path)
    (hparent : ∀ a ∈ path, ∀ r, f a = some r → parentOf a = r.parent)
    (hsteps : path.length ≤ steps) :
    (climb parentOf node steps (some id)).clear = true ↔ node ∉ path := by
  have hchain := hpath.chain hparent
  rw [climb_clear_iff]
  constructor
  · rintro ⟨path', hpath', -, hmem⟩
    exact hchain.unique hpath' ▸ hmem
  · exact fun hmem => ⟨path, hchain, hsteps, hmem⟩

/-- A check that fails names the node and the destination. -/
theorem checkAcyclic_eq_error {parentOf : Uuid → Option Uuid} {node parent : Uuid} {steps : Nat}
    (h : checkAcyclic parentOf node parent steps ≠ .ok ()) :
    checkAcyclic parentOf node parent steps = .error (.cycle node parent) := by
  unfold checkAcyclic at h ⊢
  split
  · next hclear => exact absurd (if_pos hclear) h
  · rfl

theorem checkAcyclic_eq_ok_iff {parentOf : Uuid → Option Uuid} {node parent : Uuid}
    {path : List Uuid} {steps : Nat} (hpath : Ascent f parent path)
    (hparent : ∀ a ∈ path, ∀ r, f a = some r → parentOf a = r.parent)
    (hsteps : path.length ≤ steps) :
    checkAcyclic parentOf node parent steps = .ok () ↔ ¬Within f node parent := by
  have hclear : (climb parentOf node steps (some parent)).clear = true ↔ node ∉ path :=
    climb_of_ascent hpath hparent hsteps
  have hwithin : Within f node parent ↔ node ∈ path :=
    ⟨fun ⟨path', hpath', hmem⟩ => hpath.unique hpath' ▸ hmem, fun hmem => ⟨path, hpath, hmem⟩⟩
  rw [hwithin, ← hclear, checkAcyclic]
  split <;> simp_all

/-! ## Descending -/

/-- The nodes met from `level` down, `fuel` levels deep. -/
def levels (children : Uuid → List Uuid) : Nat → List Uuid → List Uuid
  | 0, _ => []
  | fuel + 1, level =>
    if level = [] then [] else level ++ levels children fuel (level.flatMap children)

/-- On the way up from a node to another one comes a child of the other. -/
theorem Ascent.exists_child {id top : Uuid} {path : List Uuid} (h : Ascent f id path)
    (htop : top ∈ path) (hne : id ≠ top) :
    ∃ b ∈ path, ∃ r, f b = some r ∧ r.parent = some top := by
  induction h with
  | root => exact absurd (List.mem_singleton.1 htop).symm hne
  | @step id p r path hr hp htail ih =>
    by_cases hp' : p = top
    · exact ⟨id, by simp, r, hr, hp' ▸ hp⟩
    · have htop : top ∈ path := (List.mem_cons.1 htop).resolve_left (Ne.symm hne)
      obtain ⟨b, hb, hrest⟩ := ih htop hp'
      exact ⟨b, List.mem_cons_of_mem _ hb, hrest⟩

/-- Below `top`, the function gives the identifiers of each node's children, each once. -/
structure IsChildren (f : Forest π τ) (top : Uuid) (children : Uuid → List Uuid) : Prop where
  mem_iff : ∀ {id parent}, Within f top parent →
              (id ∈ children parent ↔ ∃ r, f id = some r ∧ r.parent = some parent)
  nodup   : ∀ parent, (children parent).Nodup

/-- Nodes at or below `top` whose ways up have the same length. -/
def IsLevel (f : Forest π τ) (top : Uuid) (n : Nat) (level : List Uuid) : Prop :=
  level.Nodup ∧ ∀ a ∈ level, ∃ path, Ascent f a path ∧ top ∈ path ∧ path.length = n

/-- A stored node is a level by itself. -/
theorem Ascent.isLevel {top : Uuid} {path : List Uuid} (hpath : Ascent f top path) :
    IsLevel f top path.length [top] :=
  ⟨by simp, fun a ha => ⟨path, List.mem_singleton.1 ha ▸ hpath, hpath.self_mem, rfl⟩⟩

theorem IsLevel.within {top : Uuid} {n : Nat} {level : List Uuid} (h : IsLevel f top n level)
    {a : Uuid} (ha : a ∈ level) : Within f top a := by
  obtain ⟨path, hpath, htop, -⟩ := h.2 a ha
  exact ⟨path, hpath, htop⟩

/-- A way up that passes a level is as long as those of the level, or longer. -/
theorem IsLevel.le_length {top id : Uuid} {n : Nat} {level path : List Uuid}
    (h : IsLevel f top n level) (hpath : Ascent f id path) {a : Uuid} (ha : a ∈ level)
    (hmem : a ∈ path) : n ≤ path.length := by
  obtain ⟨rest, hrest, -, hlen⟩ := h.2 a ha
  obtain ⟨rest', hrest', hsuf⟩ := hpath.suffix hmem
  rw [← hlen, hrest.unique hrest']
  exact hsuf.length_le

namespace IsChildren

variable {top : Uuid} {children : Uuid → List Uuid} (h : IsChildren f top children)
include h

theorem nextLevel {n : Nat} {level : List Uuid} (hlevel : IsLevel f top n level) :
    IsLevel f top (n + 1) (level.flatMap children) := by
  refine ⟨?_, fun b hb => ?_⟩
  -- no node comes twice, since a node has one parent only
  · refine List.nodup_flatMap.2 ⟨fun a _ => h.nodup a, ?_⟩
    refine List.Pairwise.imp_of_mem (fun {a a'} ha ha' hne => ?_) hlevel.1
    intro b hb hb'
    obtain ⟨r, hr, hp⟩ := (h.mem_iff (hlevel.within ha)).1 hb
    obtain ⟨r', hr', hp'⟩ := (h.mem_iff (hlevel.within ha')).1 hb'
    rw [hr] at hr'
    obtain rfl := Option.some.inj hr'
    rw [hp] at hp'
    exact hne (Option.some.inj hp')
  -- the way up of a child is one longer
  · obtain ⟨a, ha, hb⟩ := List.mem_flatMap.1 hb
    obtain ⟨r, hr, hp⟩ := (h.mem_iff (hlevel.within ha)).1 hb
    obtain ⟨path, hpath, htop, hlen⟩ := hlevel.2 a ha
    exact ⟨_, .step hr hp hpath, List.mem_cons_of_mem _ htop, by simp [hlen]⟩

/-- A descent meets the nodes below its first level whose ways up are short enough. -/
theorem mem_levels {fuel n : Nat} {level : List Uuid} (hlevel : IsLevel f top n level)
    {id : Uuid} :
    id ∈ levels children fuel level ↔
      ∃ a ∈ level, ∃ path, Ascent f id path ∧ a ∈ path ∧ path.length < n + fuel := by
  -- on the fuel, which the depth of the level makes up for
  induction fuel generalizing n level with
  | zero =>
    simp only [levels, List.not_mem_nil, false_iff]
    rintro ⟨a, ha, path, hpath, hmem, hlt⟩
    have hle : n ≤ path.length := hlevel.le_length hpath ha hmem
    omega
  | succ fuel ih =>
    by_cases hnil : level = []
    · simp [levels, hnil]
    rw [levels, if_neg hnil, List.mem_append, ih (h.nextLevel hlevel)]
    constructor
    · rintro (hid | ⟨b, hb, path, hpath, hmem, hlt⟩)
      · obtain ⟨path, hpath, -, hlen⟩ := hlevel.2 id hid
        exact ⟨id, hid, path, hpath, hpath.self_mem, by omega⟩
      · -- the parent of a node on the way up is on the way too
        obtain ⟨a, ha, hb⟩ := List.mem_flatMap.1 hb
        obtain ⟨r, hr, hp⟩ := (h.mem_iff (hlevel.within ha)).1 hb
        obtain ⟨rest, hrest, hsuf⟩ := hpath.suffix hmem
        obtain ⟨above, habove, -⟩ := hlevel.2 a ha
        rw [hrest.unique (.step hr hp habove)] at hsuf
        have hin : a ∈ path := hsuf.subset (List.mem_cons_of_mem _ habove.self_mem)
        exact ⟨a, ha, path, hpath, hin, by omega⟩
    · rintro ⟨a, ha, path, hpath, hmem, hlt⟩
      by_cases hid : id = a
      · exact .inl (hid ▸ ha)
      -- a node further down has a node of the next level on its way
      · obtain ⟨b, hb, r, hr, hp⟩ := hpath.exists_child hmem hid
        have hbnext : b ∈ level.flatMap children :=
          List.mem_flatMap.2 ⟨a, ha, (h.mem_iff (hlevel.within ha)).2 ⟨r, hr, hp⟩⟩
        exact .inr ⟨b, hbnext, path, hpath, hb, by omega⟩

theorem nodup_levels {fuel n : Nat} {level : List Uuid} (hlevel : IsLevel f top n level) :
    (levels children fuel level).Nodup := by
  induction fuel generalizing n level with
  | zero => simp [levels]
  | succ fuel ih =>
    by_cases hnil : level = []
    · simp [levels, hnil]
    rw [levels, if_neg hnil]
    refine List.nodup_append.2 ⟨hlevel.1, ih (h.nextLevel hlevel), fun a ha b hb hab => ?_⟩
    -- further down the ways up are longer
    subst hab
    obtain ⟨path, hpath, -, hlen⟩ := hlevel.2 a ha
    obtain ⟨c, hc, path', hpath', hmem, -⟩ := (h.mem_levels (h.nextLevel hlevel)).1 hb
    have hle : n + 1 ≤ path'.length := (h.nextLevel hlevel).le_length hpath' hc hmem
    rw [← hpath.unique hpath'] at hle
    omega

end IsChildren

variable {children : Uuid → List Uuid} {top : Uuid} {fuel : Nat}

theorem levels_nodup (h : IsChildren f top children) {path : List Uuid}
    (hpath : Ascent f top path) : (levels children fuel [top]).Nodup :=
  h.nodup_levels hpath.isLevel

/-- With as much fuel as a way up can be long, a descent meets everything below its start. -/
theorem mem_levels_iff (h : IsChildren f top children) {path : List Uuid}
    (hpath : Ascent f top path)
    (hfuel : ∀ {id path}, Ascent f id path → top ∈ path → path.length ≤ fuel) {id : Uuid} :
    id ∈ levels children fuel [top] ↔ Within f top id := by
  rw [h.mem_levels hpath.isLevel]
  have hpos : 0 < path.length := List.length_pos_of_mem hpath.self_mem
  constructor
  · rintro ⟨a, ha, path', hpath', hmem, -⟩
    obtain rfl := List.mem_singleton.1 ha
    exact ⟨path', hpath', hmem⟩
  · rintro ⟨path', hpath', hmem⟩
    have hle : path'.length ≤ fuel := hfuel hpath' hmem
    exact ⟨top, by simp, path', hpath', hmem, by omega⟩

/-! ## Depths -/

/-- A node stands at or below another, with a way up of the length `n`. -/
def WithinAt (f : Forest π τ) (top : Uuid) (n : Nat) (id : Uuid) : Prop :=
  ∃ path, Ascent f id path ∧ top ∈ path ∧ path.length = n

theorem within_iff_exists_withinAt {id : Uuid} : Within f top id ↔ ∃ n, WithinAt f top n id :=
  ⟨fun ⟨path, hpath, hmem⟩ => ⟨_, path, hpath, hmem, rfl⟩,
    fun ⟨_, path, hpath, hmem, _⟩ => ⟨path, hpath, hmem⟩⟩

namespace WithinAt

variable {n m : Nat} {id : Uuid} {path : List Uuid}

theorem unique (h : WithinAt f top n id) (h' : WithinAt f top m id) : n = m := by
  obtain ⟨path, hpath, -, rfl⟩ := h
  obtain ⟨path', hpath', -, rfl⟩ := h'
  rw [hpath.unique hpath']

/-- The way up of a node below another passes that of the other. -/
theorem length_le (hpath : Ascent f top path) (h : WithinAt f top n id) : path.length ≤ n := by
  obtain ⟨path', hpath', hmem, rfl⟩ := h
  obtain ⟨rest, hrest, hsuf⟩ := hpath'.suffix hmem
  rw [hpath.unique hrest]
  exact hsuf.length_le

/-- At the depth of the topmost node there is no other. -/
theorem top_iff (hpath : Ascent f top path) : WithinAt f top path.length id ↔ id = top := by
  constructor
  · rintro ⟨path', hpath', hmem, hlen⟩
    obtain ⟨rest, hrest, hsuf⟩ := hpath'.suffix hmem
    rw [hpath.unique hrest] at hlen
    rw [hsuf.eq_of_length hlen.symm] at hrest
    -- ways up begin with their nodes
    cases hpath' <;> cases hrest <;> rfl
  · rintro rfl
    exact ⟨path, hpath, hpath.self_mem, rfl⟩

theorem succ_iff (hpath : Ascent f top path) (hn : path.length ≤ n) :
    WithinAt f top (n + 1) id ↔
      ∃ r p, f id = some r ∧ r.parent = some p ∧ WithinAt f top n p := by
  constructor
  · rintro ⟨path', hpath', hmem, hlen⟩
    -- the topmost node itself is not that far down
    have hne : id ≠ top := by
      rintro rfl
      rw [hpath.unique hpath'] at hn
      omega
    cases hpath' with
    | root => exact absurd (List.mem_singleton.1 hmem).symm hne
    | step hr hp htail =>
      have hmem := (List.mem_cons.1 hmem).resolve_left (Ne.symm hne)
      exact ⟨_, _, hr, hp, _, htail, hmem, by simpa using hlen⟩
  · rintro ⟨r, p, hr, hp, path', hpath', hmem, rfl⟩
    exact ⟨_, .step hr hp hpath', List.mem_cons_of_mem _ hmem, rfl⟩

/-- When nobody stands at one depth, nobody stands further down. -/
theorem none_below (hpath : Ascent f top path) (hn : path.length ≤ n)
    (hnone : ∀ a, ¬WithinAt f top n a) (hm : n ≤ m) : ∀ a, ¬WithinAt f top m a := by
  induction m, hm using Nat.le_induction with
  | base => exact hnone
  | succ m hm ih =>
    intro a ha
    obtain ⟨r, p, -, -, hp⟩ := (succ_iff hpath (Nat.le_trans hn hm)).1 ha
    exact ih p hp

/-- Above a depth at which nobody stands there is everybody. -/
theorem forall_lt_iff (hpath : Ascent f top path) (hn : path.length ≤ n)
    (hnone : ∀ a, ¬WithinAt f top n a) :
    (∀ m < n, ¬WithinAt f top m id) ↔ ¬Within f top id := by
  rw [within_iff_exists_withinAt]
  constructor
  · rintro hlow ⟨m, hm⟩
    by_cases hlt : m < n
    · exact hlow m hlt hm
    · exact none_below hpath hn hnone (by omega) id hm
  · exact fun hw m _ hm => hw ⟨m, hm⟩

end WithinAt

end Outline
