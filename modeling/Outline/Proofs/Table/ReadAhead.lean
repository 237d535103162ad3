import Mathlib.Logic.Function.Iterate
import Outline.Proofs.Climbing
import Outline.Proofs.Table.RecursiveQuery

/-!
# Parents read ahead

The table store climbs over links that one query has read ahead, and not over the rows themselves.
Two bounds meet there: the query ends a number of rows up, and the climb after a number of lookups.
Nothing is assumed of the parents. They may be missing, or lead in a circle, and then the query
reads some rows many times and the climb goes on to its bound. The links still answer each lookup of
the climb as the rows would.

What is assumed is that identifiers and parents are written forms, and that no two rows have one
identifier. The bound of the query may be smaller than that of the climb, unless there are more rows
than it lets through, since a row that is reached at all is reached in fewer steps than there are
rows.

Main results:

* `exists_ascend_lt` — how far up a row can be;
* `Spelled.climb_links` — a climb over the links is one over the rows;
* `Spelled.checkClimb_eq` — so is the check of a move;
* `Database.climbs_as_stored` — all of it, with the calls that are refused.
-/

namespace Outline

/-! ## Ways up -/

/-- Where `k` lookups of a parent lead. -/
def ascend (parentOf : Uuid → Option Uuid) (k : Nat) (current : Option Uuid) : Option Uuid :=
  (·.bind parentOf)^[k] current

section ascend

variable {p q : Uuid → Option Uuid}

theorem ascend_succ (p : Uuid → Option Uuid) (k : Nat) (current : Option Uuid) :
    ascend p (k + 1) current = ascend p k (current.bind p) :=
  rfl

theorem ascend_add (p : Uuid → Option Uuid) (j k : Nat) (current : Option Uuid) :
    ascend p (j + k) current = ascend p j (ascend p k current) :=
  Function.iterate_add_apply _ _ _ _

@[simp] theorem ascend_none (p : Uuid → Option Uuid) (k : Nat) : ascend p k none = none :=
  Function.iterate_fixed rfl k

/-- A climb depends on the parents that it asks for, and it asks for `steps` of them. -/
theorem climb_congr {node : Uuid} {steps : Nat} {current : Option Uuid}
    (h : ∀ k < steps, ∀ a, ascend q k current = some a → p a = q a) :
    climb p node steps current = climb q node steps current := by
  induction steps generalizing current with
  | zero => unfold climb; rfl
  | succ steps ih =>
    cases current with
    | none => rw [climb, climb]
    | some id =>
      have hsame : p id = q id := h 0 (Nat.succ_pos _) id rfl
      have hrest : climb p node steps (q id) = climb q node steps (q id) :=
        ih fun k hk a ha => h (k + 1) (Nat.succ_lt_succ hk) a ha
      rw [climb, climb, hsame, hrest]

/-- On a shortest way nobody comes twice, or what is between could be left out. -/
theorem ascend_ne_of_shortest {current : Option Uuid} {a : Uuid} {j : Nat}
    (hj : ascend p j current = some a) (hshortest : ∀ m < j, ascend p m current ≠ some a)
    {i i' : Nat} (hlt : i < i') (hle : i' ≤ j) : ascend p i current ≠ ascend p i' current := by
  intro heq
  refine hshortest (j - i' + i) (by omega) ?_
  rw [ascend_add, heq, ← ascend_add, Nat.sub_add_cancel hle, hj]

end ascend

/-- Links that agree with `p` give a node what `p` gives it. -/
theorem Table.parentIn_eq_of_agree {links : List (Uuid × Option Uuid)} {p : Uuid → Option Uuid}
    {id : Uuid} (hlinks : ∀ l ∈ links, l.2 = p l.1)
    (hid : p id ≠ none → ∃ l ∈ links, l.1 = id) : parentIn links id = p id := by
  rw [parentIn]
  cases h : links.reverse.lookup id with
  | some parent =>
    obtain ⟨before, after, hsplit, -⟩ := List.lookup_eq_some_iff.1 h
    have hmem : (id, parent) ∈ links := List.mem_reverse.1 (by simp [hsplit])
    exact hlinks _ hmem
  | none =>
    by_contra hne
    obtain ⟨l, hl, rfl⟩ := hid fun hnone => hne hnone.symm
    exact absurd (List.lookup_eq_none_iff.1 h l (List.mem_reverse.2 hl)) (by simp)

namespace Table

variable {t : Table}

/-! ## Parents in the rows -/

/-- The parent in the row with an identifier, if there is such a row. -/
def parentOf (t : Table) (id : Uuid) : Option Uuid :=
  (t.find id.toText).bind fun r => r.readParent.toOption.join

/-- The columns for identifiers and parents hold written forms, and no two rows have one identifier.
The other columns hold anything, and parents may be missing or lead in a circle. -/
structure Spelled (t : Table) : Prop where
  written : ∀ r ∈ t, ∃ id : Uuid, r.id = id.toText
  parents : ∀ r ∈ t, ∃ parent : Option Uuid, r.parent = parent.map Uuid.toText
  nodup   : (t.map (·.id)).Nodup

theorem exists_find_of_parentOf {id : Uuid} (h : t.parentOf id ≠ none) :
    ∃ r, t.find id.toText = some r := by
  rw [parentOf] at h
  cases hfind : t.find id.toText with
  | none => simp [hfind] at h
  | some r => exact ⟨r, rfl⟩

theorem readParent_of_text {r : Row} {parent : Option Uuid}
    (h : r.parent = parent.map Uuid.toText) : r.readParent = .ok parent := by
  rw [Row.readParent, h]
  cases parent <;> simp [Row.column, Except.map]

theorem parentOf_eq {id : Uuid} {r : Row} {parent : Option Uuid} (hfind : t.find id.toText = some r)
    (h : r.parent = parent.map Uuid.toText) : t.parentOf id = parent := by
  rw [parentOf, hfind, Option.bind_some, readParent_of_text h]
  rfl

/-- Who leads on to a node with a row has a row as well. -/
theorem exists_find_of_ascend {a : Uuid} {r : Row} (hrow : t.find a.toText = some r) {k : Nat}
    {current : Option Uuid} (hk : ascend t.parentOf k current = some a) :
    ∃ b q, current = some b ∧ t.find b.toText = some q := by
  cases current with
  | none => simp at hk
  | some b =>
    refine ⟨b, ?_⟩
    cases k with
    | zero =>
      obtain rfl : b = a := Option.some.inj hk
      exact ⟨r, rfl, hrow⟩
    | succ k =>
      obtain ⟨q, hq⟩ : ∃ q, t.find b.toText = some q := by
        refine exists_find_of_parentOf fun hnone => ?_
        rw [ascend_succ, Option.bind_some, hnone, ascend_none] at hk
        cases hk
      exact ⟨q, rfl, hq⟩

/-- A node with a row is reached, if at all, in fewer steps than there are rows. -/
theorem exists_ascend_lt {current : Option Uuid} {a : Uuid} {r : Row}
    (hrow : t.find a.toText = some r) {k : Nat} (hk : ascend t.parentOf k current = some a) :
    ∃ j < t.length, ascend t.parentOf j current = some a := by
  classical
  have hex : ∃ j, ascend t.parentOf j current = some a := ⟨k, hk⟩
  obtain ⟨j, hj, hshortest⟩ : ∃ j, ascend t.parentOf j current = some a ∧
      ∀ m < j, ascend t.parentOf m current ≠ some a :=
    ⟨Nat.find hex, Nat.find_spec hex, fun _ hm => Nat.find_min hex hm⟩
  refine ⟨j, ?_, hj⟩
  -- everyone on the shortest way has a row, and these rows are distinct
  let way := (List.range (j + 1)).map fun i => ascend t.parentOf i current
  have hsub : way ⊆ t.map fun q => Uuid.ofText? q.id := by
    intro c hc
    obtain ⟨i, hi, rfl⟩ := List.mem_map.1 hc
    have hrest : ascend t.parentOf (j - i) (ascend t.parentOf i current) = some a := by
      rw [← ascend_add, Nat.sub_add_cancel (Nat.le_of_lt_succ (List.mem_range.1 hi)), hj]
    obtain ⟨b, q, hb, hq⟩ := exists_find_of_ascend hrow hrest
    obtain ⟨hmem, hid⟩ := of_find hq
    exact List.mem_map.2 ⟨q, hmem, by rw [hid, Uuid.ofText?_toText, hb]⟩
  have hnodup : way.Nodup :=
    List.pairwise_map.2 (List.pairwise_lt_range.imp_of_mem fun _ hi' hlt =>
      ascend_ne_of_shortest hj hshortest hlt (Nat.le_of_lt_succ (List.mem_range.1 hi')))
  have hlength := (List.Nodup.subperm hnodup hsub).length_le
  rwa [List.length_map, List.length_map, List.length_range] at hlength

/-- What is read of the rows that a query lists. -/
def readLinks (rows : List Row) : Except StoreError (List (Uuid × Option Uuid)) :=
  rows.mapM fun r => StoreError.ofFault (readLink r)

theorem ancestors_eq_readLinks (t : Table) (id : Uuid) (depth : Nat) :
    t.ancestors id depth = readLinks (t.chain id.toText depth) :=
  rfl

namespace Spelled

variable (h : t.Spelled)
include h

/-! ## The links -/

/-- The query reads every row that is at most `depth` rows up. -/
theorem mem_chain_of_ascend {id a : Uuid} {r : Row} (hrow : t.find a.toText = some r)
    {k depth : Nat} (hk : ascend t.parentOf k (some id) = some a) (hdepth : k ≤ depth) :
    r ∈ t.chain id.toText depth := by
  induction k generalizing id depth with
  | zero =>
    obtain rfl : id = a := Option.some.inj hk
    cases depth with
    | zero => simp [chain, hrow]
    | succ depth => simp [chain_succ hrow]
  | succ k ih =>
    rw [ascend_succ, Option.bind_some] at hk
    obtain ⟨depth, rfl⟩ : ∃ d, depth = d + 1 := ⟨depth - 1, by omega⟩
    obtain ⟨parent, -, hparent, -⟩ := exists_find_of_ascend hrow hk
    obtain ⟨q, hq⟩ : ∃ q, t.find id.toText = some q :=
      exists_find_of_parentOf (hparent ▸ Option.some_ne_none parent)
    -- the row of `id` holds the text of this parent, and the query goes on with that text
    obtain ⟨p, hp⟩ := h.parents q (of_find hq).1
    rw [parentOf_eq hq hp] at hparent hk
    rw [chain_succ hq, hp, hparent]
    rw [hparent] at hk
    exact List.mem_cons_of_mem _ (ih hk (Nat.le_of_succ_le_succ hdepth))

theorem exists_readLink_eq {r : Row} (hr : r ∈ t) :
    ∃ id parent, r.id = id.toText ∧ t.parentOf id = parent ∧ readLink r = .ok (id, parent) := by
  obtain ⟨id, hid⟩ := h.written r hr
  obtain ⟨parent, hparent⟩ := h.parents r hr
  have hfind : t.find id.toText = some r := hid ▸ find?_of_nodup h.nodup hr
  refine ⟨id, parent, hid, parentOf_eq hfind hparent, ?_⟩
  rw [readLink, Row.readId, hid, Row.column, Uuid.ofText?_toText, readParent_of_text hparent]
  rfl

/-- Rows that a query has read are read as links, each with the parent of its row. -/
theorem exists_links {rows : List Row} (hrows : ∀ r ∈ rows, r ∈ t) :
    ∃ links, readLinks rows = .ok links ∧
      (∀ l ∈ links, l.2 = t.parentOf l.1) ∧ ∀ r ∈ rows, ∃ l ∈ links, r.id = l.1.toText := by
  have hlink : ∀ r ∈ rows, ∃ l : Uuid × Option Uuid, StoreError.ofFault (readLink r) = .ok l ∧
      l.2 = t.parentOf l.1 ∧ r.id = l.1.toText := by
    intro r hr
    obtain ⟨id, parent, hid, hparent, hread⟩ := h.exists_readLink_eq (hrows r hr)
    exact ⟨(id, parent), by rw [hread]; rfl, hparent.symm, hid⟩
  choose! link hread hparent hid using hlink
  refine ⟨rows.map link, mapM_eq_ok_of_forall hread, fun l hl => ?_, fun r hr => ?_⟩
  · obtain ⟨r, hr, rfl⟩ := List.mem_map.1 hl
    exact hparent r hr
  · exact ⟨link r, List.mem_map_of_mem hr, hid r hr⟩

/-- Whatever the order of the rows that the query has read, a climb over their links asks for
nothing that the rows of the table would answer in another way. -/
theorem climb_links {dest : Uuid} {steps depth : Nat} (hreach : min steps t.length ≤ depth + 1)
    {rows : List Row} (hrows : rows.Perm (t.chain dest.toText depth)) :
    ∃ links, readLinks rows = .ok links ∧ ∀ node,
      climb (parentIn links) node steps (some dest) =
        climb t.parentOf node steps (some dest) := by
  have hmem : ∀ r ∈ rows, r ∈ t := fun r hr =>
    (of_find (find_of_mem_chain (hrows.mem_iff.1 hr))).1
  obtain ⟨links, hread, hagree, hcover⟩ := h.exists_links hmem
  refine ⟨links, hread, fun node => climb_congr fun k hk a ha => ?_⟩
  refine parentIn_eq_of_agree hagree fun hparent => ?_
  -- a node that the climb asks for was read if it has a row, on its first occasion at the latest
  obtain ⟨r, hr⟩ := exists_find_of_parentOf hparent
  obtain ⟨j, hj, hja⟩ := exists_ascend_lt hr ha
  have hread : r ∈ t.chain dest.toText depth := by
    by_cases hdepth : k ≤ depth
    · exact h.mem_chain_of_ascend hr ha hdepth
    · exact h.mem_chain_of_ascend hr hja (by omega)
  obtain ⟨l, hl, hid⟩ := hcover r (hrows.mem_iff.2 hread)
  rw [(of_find hr).2, Uuid.toText_inj] at hid
  exact ⟨l, hl, hid.symm⟩

theorem checkAcyclic_links {dest : Uuid} {steps depth : Nat}
    (hreach : min steps t.length ≤ depth + 1) {rows : List Row}
    (hrows : rows.Perm (t.chain dest.toText depth)) :
    ∃ links, readLinks rows = .ok links ∧ ∀ node,
      checkAcyclic (parentIn links) node dest steps = checkAcyclic t.parentOf node dest steps := by
  obtain ⟨links, hread, hclimb⟩ := h.climb_links hreach hrows
  refine ⟨links, hread, fun node => ?_⟩
  rw [checkAcyclic, checkAcyclic, hclimb]

/-! ## Refused moves -/

/-- The check of a move climbs over the rows. -/
theorem checkClimb_eq (n : Node) (id dest : Uuid) :
    t.checkClimb n id (some dest) =
      (checkAcyclic t.parentOf id dest (t.countSpace n.space)).mapError .violation := by
  have hreach : min (t.countSpace n.space) t.length ≤ t.countSpace n.space + 1 :=
    Nat.le_succ_of_le (Nat.min_le_left _ _)
  obtain ⟨links, hlinks, hcheck⟩ := h.checkAcyclic_links hreach (.refl (t.chain dest.toText _))
  unfold checkClimb
  dsimp only
  rw [ancestors_eq_readLinks, hlinks, bind_ok, hcheck]

theorem checkClimb_eq_error_iff {n : Node} {node dest : Uuid} :
    t.checkClimb n node (some dest) = .error (.violation (.cycle node dest)) ↔
      checkAcyclic t.parentOf node dest (t.countSpace n.space) = .error (.cycle node dest) := by
  rw [h.checkClimb_eq, mapError_eq_error_iff]
  constructor
  · rintro ⟨v, hv, hcycle⟩
    cases hcycle
    exact hv
  · exact fun hv => ⟨_, hv, rfl⟩

end Spelled

end Table

/-! ## The store -/

/-- The parents that one query reads ahead decide the check of a move as the rows would. Every
evaluation of the query ends, after at most one row more than its bound, and answers with the rows
of the chain. Their links give every climb with the same bound the verdict of a climb over the rows,
within as many lookups as the bound. They do so in any order, and for a query with a smaller bound,
as long as that lets through the steps of the climb or the rows of the table. So a call that moves a
node is refused for a circle exactly when the checks of the two nodes pass and a climb over the rows
refuses it. -/
theorem Database.climbs_as_stored (gap : Gap) {t : Table} (h : t.Spelled) :
    (∀ (dest : Uuid) (depth : Nat),
      Acc (fun q' q => Table.Recursion.Step t depth q q') (.start t dest.toText) ∧
      (∀ rows, t.Answers depth dest.toText rows ↔ rows.Perm (t.chain dest.toText depth)) ∧
      (t.chain dest.toText depth).length ≤ depth + 1) ∧
    (∀ (dest : Uuid) (steps : Nat),
      ∃ links, t.ancestors dest steps = .ok links ∧ ∀ node,
        checkAcyclic (Table.parentIn links) node dest steps =
          checkAcyclic t.parentOf node dest steps ∧
        (climb (Table.parentIn links) node steps (some dest)).lookups ≤ steps) ∧
    (∀ (dest : Uuid) (steps depth : Nat) (rows : List Row), min steps t.length ≤ depth + 1 →
      t.Answers depth dest.toText rows →
      ∃ links, Table.readLinks rows = .ok links ∧ ∀ node,
        checkAcyclic (Table.parentIn links) node dest steps =
          checkAcyclic t.parentOf node dest steps) ∧
    ∀ {c : StoreCall} {id : Uuid}, c.moved? = some id → ∀ now node dest,
      ((store.step c now ⟨gap, t⟩).1 = .error (.violation (.cycle node dest)) ↔
        t.PutsBelow c node dest ∧ ∃ n q, t.fetch node = .ok n ∧ t.fetch dest = .ok q ∧
          checkParent n.kind n.space (some q) = .ok () ∧
          checkAcyclic t.parentOf node dest (t.countSpace n.space) =
            .error (.cycle node dest)) := by
  refine ⟨fun dest depth => ⟨?_, fun rows => ?_, ?_⟩, fun dest steps => ?_,
    fun dest steps depth rows hreach hrows => ?_, fun hc now node dest => ?_⟩
  · exact Table.Recursion.acc_start h.nodup depth dest.toText
  · exact Table.answers_iff h.nodup
  · exact Table.length_chain_le t dest.toText depth
  · obtain ⟨links, hlinks, hcheck⟩ := h.checkAcyclic_links
      (Nat.le_succ_of_le (Nat.min_le_left steps t.length)) (.refl (t.chain dest.toText steps))
    exact ⟨links, hlinks, fun node => ⟨hcheck node, climb_lookups_le _ node steps _⟩⟩
  · exact h.checkAcyclic_links hreach ((Table.answers_iff h.nodup).1 hrows)
  -- the store asks its query for the links, so its verdict is that over the rows
  · rw [store.step_error_iff, Table.serve_eq_cycle_iff hc]
    simp only [h.checkClimb_eq_error_iff]

namespace Sample

/-- Three pages in a circle, a page whose parent is missing, and a page below that one. -/
def damaged : Table :=
  [(2, 4), (3, 2), (4, 3), (5, 9), (6, 5)].map fun (id, parent) =>
    .ofNode (page id (some (uuid parent)))

theorem spelled_damaged : damaged.Spelled where
  written r hr := by
    obtain ⟨_, -, rfl⟩ := List.mem_map.1 hr
    exact ⟨_, rfl⟩
  parents r hr := by
    obtain ⟨⟨_, parent⟩, -, rfl⟩ := List.mem_map.1 hr
    exact ⟨some (uuid parent), rfl⟩
  nodup := by decide +kernel

theorem exists_page (id : Uuid)
    (h : (damaged.fetch id).map (fun n => (n.kind, n.space)) = .ok (.page, uuid 1)) :
    ∃ n, damaged.fetch id = .ok n ∧ n.kind = .page ∧ n.space = uuid 1 := by
  obtain ⟨n, hn, hplace⟩ := map_eq_ok_iff.1 h
  exact ⟨n, hn, (Prod.mk.inj hplace).1, (Prod.mk.inj hplace).2⟩

/-- A page goes below the circle. -/
def moveToCircle : StoreCall := .moveLast (uuid 6) (some (uuid 3))

end Sample

open Sample in
/-- A climb in the circle ends at its bound, and one to a missing parent ends there, whatever the
order of the rows that are read ahead. -/
theorem Database.climbs_as_stored_damaged :
    damaged.Spelled ∧
    (∃ links, damaged.ancestors (uuid 3) 9 = .ok links ∧
      checkAcyclic (Table.parentIn links) (uuid 6) (uuid 3) 9 =
        .error (.cycle (uuid 6) (uuid 3))) ∧
    (damaged.Answers 4 (uuid 6).toText (damaged.chain (uuid 6).toText 4).reverse ∧
      ∃ links, Table.readLinks (damaged.chain (uuid 6).toText 4).reverse = .ok links ∧
        checkAcyclic (Table.parentIn links) (uuid 2) (uuid 6) 9 = .ok ()) ∧
    (store.step moveToCircle time ⟨.standard, damaged⟩).1 =
      .error (.violation (.cycle (uuid 6) (uuid 3))) := by
  obtain ⟨hquery, hlinks, hcut, hcalls⟩ := climbs_as_stored .standard spelled_damaged
  refine ⟨spelled_damaged, ?_, ?_, ?_⟩
  · obtain ⟨links, hread, hcheck⟩ := hlinks (uuid 3) 9
    exact ⟨links, hread, (hcheck (uuid 6)).1.trans (by decide +kernel)⟩
  -- the query lets through as many rows as there are, and lists the highest first
  · have hanswer := ((hquery (uuid 6) 4).2.1 _).2 (List.reverse_perm _)
    obtain ⟨links, hread, hcheck⟩ := hcut (uuid 6) 9 4 _ (by decide) hanswer
    exact ⟨hanswer, links, hread, (hcheck (uuid 2)).trans (by decide +kernel)⟩
  · obtain ⟨n, hn, hkind, hspace⟩ := exists_page (uuid 6) (by decide +kernel)
    obtain ⟨q, hq, hkind', hspace'⟩ := exists_page (uuid 3) (by decide +kernel)
    have hcheck : checkParent n.kind n.space (some q) = .ok () :=
      checkParent_eq_ok_iff.2 ⟨hspace'.trans hspace.symm, fun _ => hkind'⟩
    exact (hcalls rfl time (uuid 6) (uuid 3)).2
      ⟨.moveLast, n, q, hn, hq, hcheck, by rw [hspace]; decide +kernel⟩

end Outline
