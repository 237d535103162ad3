import Outline.Proofs.Table.Edits

/-!
# Removals from a table

The cascade removes rows round by round: the rows of one depth below the removed node, and then
those whose parents went with them. What it leaves after a round are the rows that are not below the
node, or further below. Since each round removes a row, there are rounds enough.

Main results:

* `Table.Holds.cascade_spec` — the cascade leaves what is not below the removed node;
* `Table.Holds.of_deleteNode` — what a successful removal has done.
-/

namespace Outline

namespace Table

namespace Holds

variable {t t' : Table} {f : Forest Row.Payload String} (h : t.Holds f)
include h

variable {top : Uuid} {path : List Uuid}

omit h in
/-- One round of the cascade takes one depth away. -/
theorem mem_round_iff {n : Nat} {ids : List String} {cur : Table}
    (hcur : ∀ {l : Line}, f l.id = some l → (l.row ∈ cur ↔ ∀ m < n, ¬WithinAt f top m l.id))
    (hids : ∀ {a : Uuid}, a.toText ∈ ids ↔ WithinAt f top n a) {l : Line} (hl : f l.id = some l) :
    l.row ∈ cur.filter (fun r => r.id ∉ ids) ↔ ∀ m < n + 1, ¬WithinAt f top m l.id := by
  rw [List.mem_filter, decide_eq_true_eq, hcur hl, Record.row_id, hids]
  constructor
  · rintro ⟨hlow, hat⟩ m hm
    rcases Nat.lt_succ_iff_lt_or_eq.1 hm with hlt | rfl
    · exact hlow m hlt
    · exact hat
  · intro hlow
    exact ⟨fun m hm => hlow m (by omega), hlow n (by omega)⟩

/-- The rows that have lost their parents are those of the next depth. -/
theorem mem_orphans_iff (hpath : Ascent f top path) {n : Nat} (hn : path.length ≤ n)
    {ids : List String} {rest : Table} (hsub : rest.Sublist t)
    (hrest : ∀ {l : Line}, f l.id = some l → (l.row ∈ rest ↔ ∀ m < n + 1, ¬WithinAt f top m l.id))
    (hids : ∀ {a : Uuid}, a.toText ∈ ids ↔ WithinAt f top n a) {a : Uuid} :
    a.toText ∈ (rest.filter fun r => r.parent.any (· ∈ ids)).map (·.id) ↔
      WithinAt f top (n + 1) a := by
  rw [WithinAt.succ_iff hpath hn, List.mem_map]
  constructor
  · rintro ⟨r, hr, hid⟩
    obtain ⟨hr, hparent⟩ := List.mem_filter.1 hr
    obtain ⟨l, hl, rfl⟩ := h.row (hsub.subset hr)
    rw [Record.row_id, Uuid.toText_inj] at hid
    subst hid
    obtain ⟨text, htext, hmem⟩ := (Option.any_eq_true _ _).1 hparent
    obtain ⟨p, hp, rfl⟩ := Option.map_eq_some_iff.1 htext
    exact ⟨l, p, hl, hp, hids.1 (of_decide_eq_true hmem)⟩
  · rintro ⟨l, p, hl, hp, hat⟩
    obtain ⟨rfl, -⟩ := h.line hl
    refine ⟨l.row, List.mem_filter.2 ⟨(hrest hl).2 fun m hm hm' => ?_, ?_⟩, rfl⟩
    -- it stands one step below its parent, and nowhere else
    · have hnext : WithinAt f top (n + 1) l.id :=
        (WithinAt.succ_iff hpath hn).2 ⟨l, p, hl, hp, hat⟩
      have heq : m = n + 1 := hm'.unique hnext
      omega
    · rw [Record.row_parent, hp, Option.map_some, Option.any_some]
      exact decide_eq_true (hids.2 hat)

/-- A round takes a row away as long as somebody stands at its depth. -/
theorem length_round_lt {n : Nat} {ids : List String} {cur : Table}
    (hcur : ∀ {l : Line}, f l.id = some l → (l.row ∈ cur ↔ ∀ m < n, ¬WithinAt f top m l.id))
    (hids : ∀ {a : Uuid}, a.toText ∈ ids ↔ WithinAt f top n a)
    (hsome : ∃ a, WithinAt f top n a) :
    (cur.filter fun r => decide (r.id ∉ ids)).length < cur.length := by
  obtain ⟨a, ha⟩ := hsome
  obtain ⟨path', hpath', -, -⟩ := id ha
  obtain ⟨l, hl⟩ := hpath'.stored hpath'.self_mem
  obtain ⟨rfl, -⟩ := h.line hl
  -- it stands at one depth, so its row was still there
  have hmem : l.row ∈ cur := (hcur hl).2 fun m hm hm' => by
    have heq : m = n := hm'.unique ha
    omega
  rw [List.length_filter_lt_length_iff_exists]
  exact ⟨l.row, hmem, fun hkept => of_decide_eq_true hkept (hids.2 ha)⟩

/-- The cascade leaves what is not below the removed node. -/
theorem cascade_spec (hpath : Ascent f top path) {rounds n : Nat} {ids : List String} {cur : Table}
    (hn : path.length ≤ n) (hsub : cur.Sublist t)
    (hcur : ∀ {l : Line}, f l.id = some l → (l.row ∈ cur ↔ ∀ m < n, ¬WithinAt f top m l.id))
    (hids : ∀ {a : Uuid}, a.toText ∈ ids ↔ WithinAt f top n a)
    (hsome : ∃ a, WithinAt f top n a) (hrounds : cur.length < rounds) :
    (cascade rounds ids cur).Sublist t ∧
      ∀ {l : Line}, f l.id = some l → (l.row ∈ cascade rounds ids cur ↔ ¬Within f top l.id) := by
  -- on the rounds: before each, the rows above its depth are gone and the others are there
  induction rounds generalizing n ids cur with
  | zero => omega
  | succ rounds ih =>
    have hrest := fun {l : Line} (hl : f l.id = some l) => mem_round_iff hcur hids hl
    have hrestsub := (List.filter_sublist (p := fun r : Row => decide (r.id ∉ ids))).trans hsub
    have horphans := fun {a : Uuid} => h.mem_orphans_iff (a := a) hpath hn hrestsub hrest hids
    unfold cascade
    dsimp only
    split
    · next hnil =>
      rw [hnil] at horphans
      have hnone : ∀ a, ¬WithinAt f top (n + 1) a := fun a ha => by simpa using horphans.2 ha
      refine ⟨hrestsub, fun {l} hl => ?_⟩
      rw [hrest hl, WithinAt.forall_lt_iff hpath (by omega) hnone]
    · next horphansne =>
      refine ih (n := n + 1) (by omega) hrestsub hrest horphans ?_ ?_
      -- each orphan is the row of a node
      · obtain ⟨text, htext⟩ := List.exists_mem_of_ne_nil _ horphansne
        obtain ⟨r, hr, rfl⟩ := List.mem_map.1 htext
        obtain ⟨l, hl, rfl⟩ := h.row (hrestsub.subset (List.mem_filter.1 hr).1)
        exact ⟨l.id, horphans.1 htext⟩
      · have hlt := h.length_round_lt hcur hids hsome
        omega

/-- Removing the row of a node removes the rows of everything below it. -/
theorem removed_delete (ho : Rooted f) {id : Uuid} {l : Line} (hl : f id = some l) :
    ∃ g, (t.delete id.toText l.space.toText).Holds g ∧ Removed f g id := by
  obtain ⟨path, hpath⟩ := ho.ascent hl
  have hspec : (cascade (t.length + 1) [id.toText] t).Sublist t ∧ ∀ {q : Line},
      f q.id = some q → (q.row ∈ cascade (t.length + 1) [id.toText] t ↔ ¬Within f id q.id) := by
    refine h.cascade_spec hpath (Nat.le_refl _) (List.Sublist.refl t) (fun {q} hq => ?_)
      (fun {a} => ?_) ⟨id, (WithinAt.top_iff hpath).2 rfl⟩ (Nat.lt_succ_self _)
    -- nobody stands above the removed node itself
    · refine ⟨fun _ m hm hm' => ?_, fun _ => h.mem_iff.2 hq⟩
      have hle := hm'.length_le hpath
      omega
    · rw [List.mem_singleton, Uuid.toText_inj, WithinAt.top_iff hpath]
  obtain ⟨rfl, hmem⟩ := h.line hl
  have hdelete : t.delete l.id.toText l.space.toText =
      cascade (t.length + 1) [l.id.toText] t := by
    rw [delete, if_pos]
    exact List.any_eq_true.2 ⟨l.row, hmem, decide_eq_true ⟨rfl, rfl⟩⟩
  rw [hdelete]
  obtain ⟨hsub, hleft⟩ := hspec
  -- which nodes are below another is not decided by a computation here
  classical
  refine ⟨fun a => if Within f l.id a then none else f a,
    ⟨fun {r} hr => ?_, fun {a q} hq => ?_, h.nodup.sublist (hsub.map _)⟩, fun a => ⟨?_, ?_⟩⟩
  · obtain ⟨q, hq, rfl⟩ := h.row (hsub.subset hr)
    exact ⟨q, by rw [if_neg ((hleft hq).1 hr), hq], rfl⟩
  · split at hq
    · cases hq
    · next hw =>
      obtain ⟨rfl, -⟩ := h.line hq
      exact ⟨rfl, (hleft hq).2 hw⟩
  · exact fun hw => if_pos hw
  · exact fun hw => if_neg hw

/-- What a successful removal has done. -/
theorem of_deleteNode (ho : Rooted f) {space id : Uuid} {count : Nat}
    (hs : t.deleteNode space id = .ok (count, t')) :
    ∃ l g, f id = some l ∧ l.space = space ∧ count = t.countBelow (t.countSpace space) [id.toText] ∧
      t'.Holds g ∧ Removed f g id := by
  obtain ⟨n, hfetch, hs⟩ := bind_eq_ok_iff.1 hs
  obtain ⟨hspace, hs⟩ := guard_eq_ok_iff.1 hs
  cases hs
  obtain ⟨l, hl, hnode⟩ := h.of_fetch hfetch
  obtain ⟨-, hns, -⟩ := Row.toNode_row_eq_ok_iff.1 hnode
  obtain rfl : l.space = space := hns.symm.trans (not_not.1 hspace)
  obtain ⟨g, hholds, hremoved⟩ := h.removed_delete ho hl
  exact ⟨l, g, hl, rfl, rfl, hholds, hremoved⟩

end Holds

end Table

end Outline
