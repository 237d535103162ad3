import Outline.Proofs.Indexed.Runs
import Outline.Store.Indexed.InPlace

/-!
# The indexed store works as it says

Working in place, the store in memory does what its calls are said to do. A commit that finds a
place taken puts back the places it has freed, and no step after a commit is refused. So a refusal
leaves every space as it was; at most a space that was not there is there now, with nothing in it.

Main results:

* `Space.commitInPlace_eq` — a refused commit leaves the space as it was;
* `Shelf.performLive_does` — each call does what it says, or nothing.
-/

namespace Outline

/-! ## Committing in place -/

section Restore

variable {κ β : Type} [Ord κ] [Std.TransOrd κ] [Std.LawfulEqOrd κ]

/-- Putting back items of a map, into a map that differs from it at most at their keys. -/
theorem foldl_insert_eq_of_items {m m' : Std.ExtTreeMap κ β} {items : List (κ × β)}
    (hitems : ∀ p ∈ items, m[p.1]? = some p.2)
    (hrest : ∀ k, m'[k]? = m[k]? ∨ k ∈ items.map Prod.fst) :
    items.foldl (fun m p => m.insert p.1 p.2) m' = m := by
  induction items generalizing m' with
  | nil => exact Std.ExtTreeMap.ext_getElem? fun k => (hrest k).resolve_right (by simp)
  | cons p rest ih =>
    refine ih (fun q hq => hitems q (by simp [hq])) fun k => ?_
    rw [Std.ExtTreeMap.getElem?_insert]
    by_cases hk : p.1 = k
    · left
      rw [← hk, if_pos Std.ReflCmp.compare_self, hitems p (by simp)]
    · have hcmp : compare p.1 k ≠ .eq := fun h => hk (Std.LawfulEqCmp.eq_of_compare h)
      rw [if_neg hcmp]
      exact (hrest k).imp_right fun hmem =>
        (List.mem_cons.1 hmem).resolve_left fun h => hk h.symm

end Restore

namespace Space

variable {s : Space} {sp : Uuid} {changes : List Node}

/-- The places that a commit frees are put back to whom they belong. -/
theorem attach_detached (h : s.Indexed) (changes : List Node) :
    attach { s with places := s.release changes } (s.detached changes) = s := by
  refine congrArg (Space.mk s.nodes) (foldl_insert_eq_of_items ?_ ?_)
  · intro p hp
    obtain ⟨n, -, hn⟩ := List.mem_filterMap.1 hp
    obtain ⟨old, hold, rfl⟩ := Option.map_eq_some_iff.1 hn
    rw [h.place_iff, h.own_id hold]
    exact ⟨old, hold, rfl⟩
  · intro place
    show (s.release changes)[place]? = _ ∨ _
    rw [getElem?_release]
    split
    · next hfreed =>
      obtain ⟨n, hn, old, hold, rfl⟩ := hfreed
      right
      refine List.mem_map.2 ⟨(old.place, old.id), List.mem_filterMap.2 ⟨n, hn, ?_⟩, rfl⟩
      rw [hold]
      rfl
    · exact .inl rfl

/-- Entering one change after the other fills the table of nodes and the index in the same order. -/
theorem foldl_enter (s : Space) (changes : List Node) :
    changes.foldl enter s =
      { nodes := changes.foldl (fun nodes n => nodes.insert n.id n) s.nodes
        places := changes.foldl (fun places n => places.insert n.place n.id) s.places } := by
  induction changes generalizing s with
  | nil => rfl
  | cons n rest ih => exact ih (s.enter n)

/-- A commit in place enters what it may and otherwise leaves the space as it was. -/
theorem commitInPlace_eq (h : s.Indexed) (space : Uuid) (changes : List Node) :
    commitInPlace space changes s = match s.commit space changes with
      | .ok t => .ok () t
      | .error e => .error e s := by
  unfold commitInPlace commit
  rw [Work.query_bind]
  dsimp only
  rw [Work.alter_bind, Work.query_bind]
  dsimp only
  cases hc : conflict? (s.release changes) [] changes with
  | some n =>
    show EStateM.Result.error _ (attach { s with places := s.release changes }
      (s.detached changes)) = _
    rw [attach_detached h]
  | none =>
    show EStateM.Result.ok () (changes.foldl enter { s with places := s.release changes }) = _
    rw [foldl_enter]

/-- Whoever is among the changes of a commit can be read back. -/
theorem get_of_commit {space : Uuid} {t : Space} (hcommit : s.commit space changes = .ok t)
    {n : Node} (hn : n ∈ changes) : ∃ m, t.get n.id = .ok m := by
  have hins : ∀ (l : List Node) (nodes : Std.ExtTreeMap Uuid Node),
      (n ∈ l ∨ n.id ∈ nodes) → n.id ∈ l.foldl (fun nodes n => nodes.insert n.id n) nodes := by
    intro l
    induction l with
    | nil => exact fun nodes h => h.resolve_left (by simp)
    | cons m rest ih =>
      intro nodes h
      refine ih _ ?_
      rw [Std.ExtTreeMap.mem_insert]
      rcases h with h | h
      · rcases List.mem_cons.1 h with rfl | h
        · exact .inr (.inl Std.ReflCmp.compare_self)
        · exact .inl h
      · exact .inr (.inr h)
  unfold commit at hcommit
  dsimp only at hcommit
  split at hcommit
  · cases hcommit
  · cases hcommit
    have hmem := hins changes s.nodes (.inl hn)
    obtain ⟨m, hm⟩ := Option.isSome_iff_exists.1 (Std.ExtTreeMap.isSome_getElem?_iff_mem.2 hmem)
    exact ⟨m, by rw [get, hm]⟩

/-- The node that is placed is among the changes. -/
theorem mem_changesFor_of_placeIn {gap : Gap} {group : Group} {n : Node} {parent : Option Uuid}
    {target : Target} {p : Placement} (now : Timestamp)
    (hplace : gap.placeIn group (s.siblings parent) n.id target = .ok p) :
    ∃ m ∈ s.changesFor n parent now p, m.id = n.id := by
  have hasc := s.ascending_siblings parent
  have hputs := Gap.placeIn_puts (by
    rw [Sibling.others_of_ascending hasc]
    exact hasc.filter _) hplace
  cases p with
  | key sort => exact ⟨_, List.mem_singleton_self _, rfl⟩
  | respread members =>
    have hmem : n.id ∈ members.map (·.id) := by
      have hids : members.map (·.id) = _ := hputs.ids
      rw [hids]
      simp
    obtain ⟨m, hm, hid⟩ := List.mem_map.1 hmem
    refine ⟨n.moveTo parent m.sort now, List.mem_filterMap.2 ⟨m, hm, ?_⟩, rfl⟩
    exact if_pos hid

end Space

/-! ## Work in one space -/

namespace Work

variable {α β σ : Type} {s : σ}

/-- Work does exactly what `x` says, and nothing when it is refused. -/
def Exactly (w : Work σ α) (s : σ) (x : Except StoreError (α × σ)) : Prop :=
  w s = match x with
    | .ok (a, t) => .ok a t
    | .error e => .error e s

/-- A question leaves the state as it was, whatever is answered. -/
theorem exactly_query (f : σ → Except StoreError α) :
    Exactly (query f) s ((f s).map (·, s)) := by
  unfold Exactly query
  cases f s <;> rfl

/-- A question may go before, since it changes nothing. -/
theorem Exactly.query_bind {f : σ → Except StoreError β} {g : β → Work σ α}
    {h : β → Except StoreError (α × σ)} (hg : ∀ b, f s = .ok b → Exactly (g b) s (h b)) :
    Exactly (query f >>= g) s (f s >>= h) := by
  unfold Exactly
  rw [Work.query_bind]
  cases hf : f s with
  | error e => rfl
  | ok b => exact hg b hf

end Work

open Work (Exactly)

/-- A commit, after which something can be looked up. -/
theorem Space.exactly_commit {s : Space} {sp : Uuid} (h : s.Agrees sp) {α : Type} (space : Uuid)
    (changes : List Node) (f : Space → Except StoreError α)
    (hf : ∀ t, s.commit space changes = .ok t → ∃ a, f t = .ok a) :
    Exactly (commitInPlace space changes >>= fun _ => .query f) s
      (s.commit space changes >>= fun t => f t >>= fun a => pure (a, t)) := by
  unfold Exactly
  rw [Work.bind_apply, commitInPlace_eq h.toIndexed]
  cases hc : s.commit space changes with
  | error e => rfl
  | ok t =>
    obtain ⟨a, ha⟩ := hf t hc
    simp only [Work.query, ha, bind_ok]
    rfl

namespace Space

variable {s : Space} {sp id : Uuid} {gap : Gap} {now : Timestamp}

theorem own_id_of_get (h : s.Agrees sp) {n : Node} (hn : s.get id = .ok n) : n.id = id := by
  unfold get at hn
  split at hn
  · next m hm =>
    cases hn
    exact h.own_id hm
  · cases hn

/-- The node that moves is among the changes that are planned. -/
theorem mem_of_planMove (h : s.Agrees sp) {parent : Option Uuid} {target : Target}
    {changes : List Node} (hplan : s.planMove gap id parent target now = .ok changes) :
    ∃ m ∈ changes, m.id = id := by
  obtain ⟨n, hn, hplan⟩ := bind_eq_ok_iff.1 hplan
  obtain ⟨parentNode, -, hplan⟩ := bind_eq_ok_iff.1 hplan
  obtain ⟨_, -, hplan⟩ := bind_eq_ok_iff.1 hplan
  obtain rfl := own_id_of_get h hn
  have hplaced : ∀ {x : Except StoreError (List Node)}, x = .ok changes →
      x = (gap.placeIn ⟨n.space, parent⟩ (s.siblings parent) n.id target >>= fun p =>
        pure (s.changesFor n parent now p)) → ∃ m ∈ changes, m.id = n.id := by
    rintro _ hok rfl
    obtain ⟨p, hplace, hp⟩ := bind_eq_ok_iff.1 hok
    cases hp
    exact mem_changesFor_of_placeIn now hplace
  -- a node that goes to the root is not looked for above its parent
  cases parent with
  | none => exact hplaced hplan rfl
  | some p =>
    obtain ⟨_, -, hplan⟩ := bind_eq_ok_iff.1 hplan
    exact hplaced hplan rfl

/-- A move in place: where to, what changes, the commit, and the node that is answered. -/
theorem exactly_move (h : s.Agrees sp) (gap : Gap) (id : Uuid)
    (find : Space → Except StoreError (Option Uuid)) (target : Target) (now : Timestamp) :
    Exactly (moveInPlace sp gap id find target now) s
      (find s >>= fun parent => s.planMove gap id parent target now >>= fun changes =>
        s.commit sp changes >>= fun t => t.get id >>= fun m => pure (m, t)) := by
  refine .query_bind fun parent _ => .query_bind fun changes hplan =>
    exactly_commit h sp changes (·.get id) fun t ht => ?_
  obtain ⟨m, hm, rfl⟩ := mem_of_planMove h hplan
  exact get_of_commit ht hm

/-- New keys in place: the members that change are committed, and the group is listed. -/
theorem exactly_renumber (h : s.Agrees sp) (gap : Gap) (group : Group) (now : Timestamp) :
    Exactly (renumberInPlace gap group now) s
      (s.getParent group.parent >>= fun _ =>
        (gap.compact (s.siblings group.parent)).mapError (.exhausted group) >>= fun members =>
          s.commit group.space (members.filterMap (s.rekeyed? now)) >>= fun t =>
            pure (t.children group.parent, t)) := by
  refine .query_bind fun _ _ => .query_bind fun members _ => ?_
  have hchanges : ∀ changes, Exactly (commitInPlace group.space changes >>= fun _ =>
      .query fun s => .ok (s.children group.parent)) s
      (s.commit group.space changes >>= fun t => .ok (t.children group.parent, t)) :=
    fun changes => exactly_commit h group.space changes (fun s => .ok (s.children group.parent))
      fun t _ => ⟨_, rfl⟩
  exact hchanges (members.filterMap (s.rekeyed? now))

/-- An update in place puts the patched node where the old one was, if it passes its check. -/
theorem exactly_update (id : Uuid) (patch : Patch) (now : Timestamp) :
    Exactly (updateInPlace id patch now) s
      (s.get id >>= fun n =>
        (n.patch patch now).check.mapError (.invalidRecord ∘ .defect) >>= fun _ =>
          pure (n.patch patch now, { s with nodes := s.nodes.insert id (n.patch patch now) })) :=
  .query_bind fun _ _ => .query_bind fun _ _ => rfl

/-- A removal in place takes the branch out of the table and of the index. -/
theorem exactly_remove (id : Uuid) :
    Exactly (removeInPlace id) s
      (s.get id >>= fun n => pure (s.branch id, s.remove n (s.branch id))) :=
  .query_bind fun _ _ => rfl

/-- A new node in place, with the changes that it asks of its group. -/
theorem exactly_insert (h : s.Agrees sp) (gap : Gap) (n : Node) (entry : Shelf.Entry)
    (now : Timestamp) :
    Exactly (insertInPlace gap n entry now) s
      (s.planInsert gap n entry now >>= fun changes =>
        s.commit n.space changes >>= fun t => pure ((), t)) := by
  refine .query_bind fun changes _ => ?_
  unfold Exactly
  rw [commitInPlace_eq h.toIndexed]
  cases s.commit n.space changes <;> rfl

/-- A new node is among the changes that are planned. -/
theorem mem_of_planInsert {n : Node} {entry : Shelf.Entry} {changes : List Node}
    (hplan : s.planInsert gap n entry now = .ok changes) : ∃ m ∈ changes, m.id = n.id := by
  obtain ⟨parent, -, hplan⟩ := bind_eq_ok_iff.1 hplan
  obtain ⟨_, -, hplan⟩ := bind_eq_ok_iff.1 hplan
  cases entry with
  | own =>
    cases hplan
    exact ⟨n, List.mem_singleton_self n, rfl⟩
  | last =>
    obtain ⟨p, hplace, hp⟩ := bind_eq_ok_iff.1 hplan
    cases hp
    rw [changesForNew_eq]
    exact mem_changesFor_of_placeIn _ hplace

end Space

/-! ## Work on a shelf -/

namespace Shelf

/-- Shelves with the same spaces, where a space that holds nothing need not exist. -/
structure Same (s t : Shelf) : Prop where
  gap     : s.gap = t.gap
  locator : s.locator = t.locator
  space   : ∀ sp, s.space sp = t.space sp

namespace Same

variable {s t u : Shelf}

theorem refl (s : Shelf) : s.Same s :=
  ⟨rfl, rfl, fun _ => rfl⟩

theorem trans (h : s.Same t) (h' : t.Same u) : s.Same u :=
  ⟨h.gap.trans h'.gap, h.locator.trans h'.locator, fun sp => (h.space sp).trans (h'.space sp)⟩

theorem symm (h : s.Same t) : t.Same s :=
  ⟨h.gap.symm, h.locator.symm, fun sp => (h.space sp).symm⟩

/-- The same space may be replaced on both sides. -/
theorem putSpace (h : s.Same t) (sp : Uuid) (space : Space) :
    (s.putSpace sp space).Same (t.putSpace sp space) :=
  ⟨h.gap, h.locator, fun sp' => by rw [space_putSpace, space_putSpace, h.space]⟩

/-- Nothing changes when a space is put where it is. -/
theorem putSpace_self (h : s.Same t) (sp : Uuid) : (s.putSpace sp (s.space sp)).Same t := by
  refine ⟨h.gap, h.locator, fun sp' => ?_⟩
  rw [space_putSpace]
  split
  · next heq => rw [heq, h.space]
  · exact h.space sp'

/-- Shelves that are the same find a node in the same space, -/
theorem spaceOf (h : s.Same t) (id : Uuid) : s.spaceOf id = t.spaceOf id := by
  rw [Shelf.spaceOf, Shelf.spaceOf, h.locator]

/-- and find the same node there. -/
theorem get (h : s.Same t) (id : Uuid) : s.get id = t.get id := by
  unfold Shelf.get
  rw [h.spaceOf]
  simp only [h.space]

end Same

variable {α β : Type} {s s₁ : Shelf}

/-- Work on a shelf that is the same as `s` does what `x` says of `s`, and nothing when it is
refused. -/
def Does (w : Work Shelf α) (s₁ s : Shelf) (x : Except StoreError (α × Shelf)) : Prop :=
  match x with
  | .ok (a, t) => ∃ t₁, w s₁ = .ok a t₁ ∧ t₁.Same t
  | .error e => ∃ t₁, w s₁ = .error e t₁ ∧ t₁.Same s

/-- A question to a shelf in place is answered as by the shelf that it is the same as. -/
theorem does_query (hs : s₁.Same s) {f : Shelf → Except StoreError α} {y : Except StoreError α}
    (hf : f s₁ = y) : Does (.query f) s₁ s (s.reading y) := by
  cases y with
  | ok a => exact ⟨s₁, by rw [Work.query, hf], hs⟩
  | error e => exact ⟨s₁, by rw [Work.query, hf], hs⟩

namespace Does

/-- And what goes on with the answer goes on in a shelf that is still the same. -/
theorem query_bind (hs : s₁.Same s) {f : Shelf → Except StoreError β} {g : β → Work Shelf α}
    {y : Except StoreError β} (hf : f s₁ = y) {h : β → Except StoreError (α × Shelf)}
    (hg : ∀ b, y = .ok b → Does (g b) s₁ s (h b)) : Does (.query f >>= g) s₁ s (y >>= h) := by
  cases y with
  | error e => exact ⟨s₁, by rw [Work.query_bind, hf], hs⟩
  | ok b =>
    have hdoes := hg b rfl
    unfold Does at hdoes ⊢
    rw [Work.query_bind, hf]
    exact hdoes

/-- A space that is there from now on makes no difference. -/
theorem openSpace_bind (hs : s₁.Same s) (sp : Uuid) {g : Unit → Work Shelf α}
    {x : Except StoreError (α × Shelf)} (hg : ∀ s₂, s₂.Same s → Does (g ()) s₂ s x) :
    Does (openSpace sp >>= g) s₁ s x := by
  have hsame : (if s₁.spaces.contains sp then s₁ else s₁.putSpace sp .empty).Same s := by
    split
    · exact hs
    · next hnot =>
      have hempty : s₁.space sp = .empty := by
        rw [Shelf.space, Std.ExtTreeMap.getElem?_eq_none (by simpa using hnot)]
        rfl
      exact hempty ▸ hs.putSpace_self sp
  have hdoes := hg _ hsame
  unfold Does at hdoes ⊢
  rw [openSpace, Work.alter_bind]
  exact hdoes

/-- To open the space of a node may put an empty space in, which makes no difference. -/
theorem openSpaceOf_bind (hs : s₁.Same s) (id : Uuid) {g : Uuid → Work Shelf α}
    {h : Uuid → Except StoreError (α × Shelf)}
    (hg : ∀ sp s₂, s.spaceOf id = .ok sp → s₂.Same s → Does (g sp) s₂ s (h sp)) :
    Does (openSpaceOf id >>= g) s₁ s (s.spaceOf id >>= h) := by
  unfold openSpaceOf
  simp only [bind_assoc, pure_bind]
  exact query_bind hs (hs.spaceOf id) fun sp hsp =>
    openSpace_bind hs sp fun s₂ hs₂ => hg sp s₂ hsp hs₂

/-- What is done in a space is done on the shelf. -/
theorem inSpace (hs : s₁.Same s) {sp : Uuid} {w : Work Space α}
    {y : Except StoreError (α × Space)} (hw : Exactly w (s.space sp) y) :
    Does (inSpace sp w) s₁ s (y.map fun p => (p.1, s.putSpace sp p.2)) := by
  unfold Exactly at hw
  rw [← hs.space sp] at hw
  cases y with
  | ok p =>
    have hrun : Shelf.inSpace sp w s₁ = .ok p.1 (s₁.putSpace sp p.2) := by
      unfold Shelf.inSpace
      simp only [hw]
    exact ⟨_, hrun, hs.putSpace sp p.2⟩
  | error e =>
    have hrun : Shelf.inSpace sp w s₁ = .error e (s₁.putSpace sp (s₁.space sp)) := by
      unfold Shelf.inSpace
      simp only [hw]
    exact ⟨_, hrun, hs.putSpace_self sp⟩

/-- A question of which the answer is known may be left out. -/
theorem query_ok_bind {f : Shelf → Except StoreError β} {g : β → Work Shelf α} {b : β}
    {x : Except StoreError (α × Shelf)} (hf : f s₁ = .ok b) (hg : Does (g b) s₁ s x) :
    Does (.query f >>= g) s₁ s x := by
  unfold Does at hg ⊢
  rw [Work.query_bind, hf]
  exact hg

/-- Looking something up in a space changes nothing. -/
theorem inSpace_reading (hs : s₁.Same s) {sp : Uuid} {w : Work Space α}
    {y : Except StoreError α} (hw : Exactly w (s.space sp) (y.map (·, s.space sp))) :
    Does (Shelf.inSpace sp w) s₁ s (s.reading y) := by
  have hdoes := inSpace hs hw
  cases y with
  | error e => exact hdoes
  | ok a =>
    obtain ⟨t, ht, hsame⟩ := hdoes
    exact ⟨t, ht, hsame.trans ((Same.refl s).putSpace_self sp)⟩

/-- Work in one space of a shelf replaces that space and leaves the others alone. -/
theorem inSpace_bind (hs : s₁.Same s) {sp : Uuid} {w : Work Space β} {g : β → Work Shelf α}
    {y : Except StoreError (β × Space)} {h : β × Space → Except StoreError (α × Shelf)}
    (hw : Exactly w (s.space sp) y)
    (hg : ∀ b t, y = .ok (b, t) → Does (g b) (s₁.putSpace sp t) s (h (b, t))) :
    Does (Shelf.inSpace sp w >>= g) s₁ s (y >>= h) := by
  have hin := inSpace hs hw
  cases y with
  | error e =>
    obtain ⟨t, ht, hsame⟩ := hin
    exact ⟨t, by rw [Work.bind_apply, ht], hsame⟩
  | ok p =>
    have hrun : Shelf.inSpace sp w s₁ = .ok p.1 (s₁.putSpace sp p.2) := by
      unfold Shelf.inSpace
      rw [hs.space, hw]
    have hdoes := hg p.1 p.2 rfl
    unfold Does at hdoes ⊢
    rw [Work.bind_apply, hrun]
    exact hdoes

/-- A space that does not exist is like one that holds nothing. -/
theorem ifExists (hs : s₁.Same s) {sp : Uuid} {otherwise : Except StoreError α}
    {w : Work Shelf α} {x : Except StoreError (α × Shelf)} (hw : Does w s₁ s x)
    (habsent : s.space sp = .empty → Does (.query fun _ => otherwise) s₁ s x) :
    Does (ifExists sp otherwise w) s₁ s x := by
  unfold Shelf.ifExists
  unfold Does at hw habsent ⊢
  rw [Work.query_bind]
  dsimp only
  by_cases hsp : s₁.spaces.contains sp = true
  · rw [if_pos hsp]
    exact hw
  · rw [if_neg hsp]
    refine habsent ?_
    rw [← hs.space, Shelf.space, Std.ExtTreeMap.getElem?_eq_none (by simpa using hsp)]
    rfl

end Does

/-! ## Calls -/

variable {now : Timestamp}

/-- A look-up does to the shelf in place what it does to the pure one: nothing. -/
theorem getLive_does (hs : s₁.Same s) (id : Uuid) :
    Does (getLive id) s₁ s (s.reading (s.get id)) := by
  have hget : s.reading (s.get id) =
      s.spaceOf id >>= fun sp => s.reading ((s.space sp).get id) := map_bind _ _ _
  rw [hget]
  exact .openSpaceOf_bind hs id fun sp s₂ _ hs₂ => .inSpace_reading hs₂ (Work.exactly_query _)

/-- So does a listing, -/
theorem listLive_does (hs : s₁.Same s) (group : Group) :
    Does (listLive group) s₁ s (s.reading (s.list group)) := by
  refine .ifExists hs (.inSpace_reading hs ?_) fun hempty => ?_
  · rw [list, map_bind]
    exact .query_bind fun _ _ => Work.exactly_query _
  -- nothing is below a node of a space without nodes, nor at its root
  · refine does_query hs ?_
    rw [list, hempty]
    unfold absent Space.getParent
    cases group.parent with
    | none => rfl
    | some id => rfl

/-- and so does the question for the next key. -/
theorem nextSortLive_does (hs : s₁.Same s) (group : Group) :
    Does (nextSortLive group) s₁ s (s.reading (s.nextSort group)) := by
  refine .openSpace_bind hs group.space fun s₂ hs₂ => does_query hs₂ ?_
  rw [nextSort, nextSort, hs₂.space, hs₂.gap]

/-- A move in place does what the pure one does, wherever it is refused. -/
theorem relocateLive_does (hs : s₁.Same s) (h : s.Agrees) (id : Uuid)
    (find : Space → Except StoreError (Option Uuid)) (target : Target) :
    Does (relocateLive id find target now) s₁ s (s.relocate id find target now) := by
  unfold relocateLive relocate
  refine .openSpaceOf_bind hs id fun sp s₂ _ hs₂ => .query_ok_bind (congrArg _ hs₂.gap) ?_
  have hin := Does.inSpace hs₂ (Space.exactly_move (h.space sp) s.gap id find target now)
  simp only [map_bind] at hin
  exact hin

/-- In a space without nodes no root is renumbered. -/
theorem renumber_roots_of_empty {sp : Uuid} (hempty : s.space sp = .empty) (now : Timestamp) :
    s.renumber ⟨sp, none⟩ now = .ok ([], s.putSpace sp .empty) := by
  have hsiblings : Space.empty.siblings none = [] := by simp [Space.siblings, Space.empty]
  have hcompact : s.gap.compact [] = .ok [] := by
    simp [Gap.compact, Sibling.sorted, Gap.spread, Gap.spreadFrom?]
  have hchildren : Space.empty.children none = [] := by rw [Space.children, hsiblings]; rfl
  simp only [renumber, hempty, hsiblings, hcompact, Space.getParent, bind_ok, mapError_ok]
  show Except.ok (Space.empty.children none, _) = _
  rw [hchildren]
  rfl

/-- So does a renumbering, -/
theorem renumberLive_does (hs : s₁.Same s) (h : s.Agrees) (group : Group) :
    Does (renumberLive group now) s₁ s (s.renumber group now) := by
  refine .ifExists hs (.query_ok_bind (congrArg _ hs.gap) ?_) fun hempty => ?_
  · have hin := Does.inSpace hs
      (Space.exactly_renumber (h.space group.space) s.gap group now)
    simp only [map_bind] at hin
    exact hin
  -- a space without nodes has no parents to renumber below, and no roots
  · have hput : s.Same (s.putSpace group.space .empty) :=
      hempty ▸ ((Same.refl s).putSpace_self group.space).symm
    obtain ⟨sp, parent⟩ := group
    cases parent with
    | some id =>
      unfold renumber
      rw [hempty]
      exact ⟨s₁, rfl, hs⟩
    | none =>
      rw [renumber_roots_of_empty hempty]
      exact ⟨s₁, rfl, hs.trans hput⟩

/-- and so does an update, -/
theorem updateLive_does (hs : s₁.Same s) (id : Uuid) (patch : Patch) :
    Does (updateLive id patch now) s₁ s (s.update id patch now) := by
  refine .openSpaceOf_bind hs id fun sp s₂ _ hs₂ => ?_
  have hin := Does.inSpace hs₂ (Space.exactly_update (s := s.space sp) id patch now)
  simp only [map_bind] at hin
  exact hin

/-- and so does a removal, with the locator cleared of the branch. -/
theorem deleteLive_does (hs : s₁.Same s) (sp id : Uuid) :
    Does (deleteLive sp id) s₁ s (s.delete sp id) := by
  have hdelete : s.delete sp id =
      ((s.space sp).get id >>= fun n =>
        pure ((s.space sp).branch id, (s.space sp).remove n ((s.space sp).branch id))) >>=
      fun (p : List Uuid × Space) => pure (p.1.length, { s.putSpace sp p.2 with
        locator := s.locator.filter fun id _ => id ∉ p.1 }) := by
    unfold delete
    dsimp only
    cases (s.space sp).get id <;> rfl
  rw [hdelete]
  refine .ifExists hs (.inSpace_bind hs (Space.exactly_remove id) fun ids t _ => ?_)
    fun hempty => ?_
  · refine ⟨_, rfl, hs.gap, ?_, fun sp' => (hs.putSpace sp t).space sp'⟩
    exact congrArg (Std.ExtTreeMap.filter _) hs.locator
  · rw [hempty]
    exact ⟨s₁, rfl, hs⟩

/-- A pure insertion as checks, a plan for the group, a commit and the node that is read back. -/
theorem insert_eq_plan (s : Shelf) (n : Node) (entry : Entry) (now : Timestamp) :
    s.insert n entry now =
      n.check.mapError (.invalidRecord ∘ .defect) >>= fun _ =>
      if s.locator.contains n.id then .error (.invalidRecord (.alreadyExists n.id)) else
        ((s.space n.space).planInsert s.gap n entry now >>= fun changes =>
          (s.space n.space).commit n.space changes >>= fun t => pure ((), t)) >>=
        fun (p : Unit × Space) => p.2.get n.id >>= fun m =>
          pure (m, { s.putSpace n.space p.2 with
            locator := s.locator.insert n.id n.space }) := by
  unfold insert Space.planInsert
  cases n.check with
  | error d => rfl
  | ok u =>
    simp only [mapError_ok, bind_ok]
    by_cases hid : s.locator.contains n.id = true
    · rw [if_pos hid, if_pos hid]
      rfl
    · rw [if_neg hid, if_neg hid]
      cases entry <;> simp only [bind_assoc, pure_bind]

/-- An insertion in place does what the pure one does, and so files the locator only in the end. -/
theorem insertLive_does (hs : s₁.Same s) (h : s.Agrees) (n : Node) (entry : Entry) :
    Does (insertLive n entry now) s₁ s (s.insert n entry now) := by
  rw [insert_eq_plan]
  refine .query_bind hs rfl fun _ _ => .openSpace_bind hs n.space fun s₂ hs₂ =>
    .query_ok_bind (b := s.locator.contains n.id) (by rw [hs₂.locator]) ?_
  by_cases hid : s.locator.contains n.id = true
  · rw [if_pos hid, if_pos hid]
    exact ⟨s₂, rfl, hs₂⟩
  · rw [if_neg hid, if_neg hid]
    refine .query_ok_bind (b := s.gap) (by rw [hs₂.gap]) ?_
    refine .inSpace_bind hs₂ (Space.exactly_insert (h.space n.space) s.gap n entry now)
      fun _ t ht => ?_
    -- the node that has been entered is there to be read
    obtain ⟨changes, hplan, ht⟩ := bind_eq_ok_iff.1 ht
    obtain ⟨t', hcommit, ht⟩ := bind_eq_ok_iff.1 ht
    cases ht
    obtain ⟨c, hc, hcid⟩ := Space.mem_of_planInsert hplan
    obtain ⟨m, hm⟩ := Space.get_of_commit hcommit hc
    rw [hcid] at hm
    have hput := hs₂.putSpace n.space t
    have hsame : ({ s₂.putSpace n.space t with
        locator := s₂.locator.insert n.id n.space } : Shelf).Same
        { s.putSpace n.space t with locator := s.locator.insert n.id n.space } :=
      ⟨hput.gap, by rw [hs₂.locator], hput.space⟩
    have hspace : ({ s.putSpace n.space t with
        locator := s.locator.insert n.id n.space } : Shelf).space n.space = t :=
      (space_putSpace s n.space n.space t).trans (if_pos rfl)
    rw [hm, bind_ok]
    exact .inSpace_reading hsame (y := .ok m)
      (hspace.symm ▸ hm ▸ Work.exactly_query (s := t) (·.get n.id))

/-- Each call does what it is said to do, and nothing when it is refused. -/
theorem performLive_does (hs : s₁.Same s) (h : s.Agrees) (c : StoreCall) :
    Does (performLive c now) s₁ s (serve c now s) := by
  cases c with
  | get id => exact getLive_does hs id
  | create n => exact insertLive_does hs h n .own
  | createLast n => exact insertLive_does hs h n .last
  | update id patch => exact updateLive_does hs id patch
  | delete sp id => exact deleteLive_does hs sp id
  | list group => exact listLive_does hs group
  | nextSort group => exact nextSortLive_does hs group
  | moveLast id parent => exact relocateLive_does hs h id _ _
  | moveAt id parent sort => exact relocateLive_does hs h id _ _
  | reorder id sort => exact relocateLive_does hs h id _ _
  | moveBeside id anchor side =>
    show Does (moveBesideLive id anchor side now) s₁ s (s.moveBeside id anchor side now)
    unfold moveBesideLive moveBeside
    by_cases hid : anchor = id
    · rw [if_pos hid, if_pos hid]
      exact ⟨s₁, rfl, hs⟩
    · rw [if_neg hid, if_neg hid]
      exact relocateLive_does hs h id _ _
  | renumber group => exact renumberLive_does hs h group

end Shelf

end Outline
