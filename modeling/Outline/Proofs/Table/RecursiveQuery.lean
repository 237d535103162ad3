import Mathlib.Logic.Relation
import Outline.Proofs.Keyed
import Outline.Store.Table

/-!
# The query for the rows above a row

The rows above a row are asked for with one recursive query. Its first part finds the row with an
identifier. A row that was found waits until it is taken; then it joins the answer, and the second
part of the query finds the rows that it names as its parent, if it was found fewer than `limit`
rows up. The query ends when no row waits. Nothing is assumed of the order in which waiting rows are
taken, or of the order of the answer, and a row that is found again is taken again.

Where no two rows have one identifier there is never more than one row waiting, so all of this comes
to one answer, `Table.chain`, also when the parents run in a circle.

Main results:

* `Recursion.Reached.step` — what every evaluation keeps;
* `Recursion.acc_start` — every evaluation ends;
* `answers_iff` — and gives the rows of the chain.
-/

namespace Outline

namespace Table

/-- A row that was found, and how many rows up. -/
structure Found where
  row : Row
  depth : Nat

/-- How far the evaluation of the query has come. -/
structure Recursion where
  waiting : List Found
  answer : List Row

namespace Recursion

/-- The first part of the query. -/
def start (t : Table) (id : String) : Recursion :=
  ⟨(t.filter (·.id = id)).map (⟨·, 0⟩), []⟩

/-- The second part of the query, for a row that is taken. -/
def above (t : Table) (limit : Nat) (c : Found) : List Found :=
  if c.depth < limit then (t.filter (c.row.parent = some ·.id)).map (⟨·, c.depth + 1⟩) else []

/-- Any waiting row is taken. -/
inductive Step (t : Table) (limit : Nat) : Recursion → Recursion → Prop
  | take (before after : List Found) (c : Found) (answer : List Row) :
    Step t limit ⟨before ++ c :: after, answer⟩
      ⟨before ++ after ++ above t limit c, answer ++ [c.row]⟩

end Recursion

/-- The query can end with these rows, in whatever order it lists them. -/
def Answers (t : Table) (limit : Nat) (id : String) (rows : List Row) : Prop :=
  ∃ found, Relation.ReflTransGen (Recursion.Step t limit) (.start t id) ⟨[], found⟩ ∧
    rows.Perm found

variable {t : Table} {id : String} {limit : Nat}

/-! ## The chain -/

theorem of_find {r : Row} (h : t.find id = some r) : r ∈ t ∧ r.id = id :=
  ⟨List.mem_of_find?_eq_some h, by simpa using List.find?_some h⟩

theorem chain_of_find_none (h : t.find id = none) (depth : Nat) : t.chain id depth = [] := by
  cases depth <;> simp [chain, h]

theorem chain_succ {r : Row} (h : t.find id = some r) (depth : Nat) :
    t.chain id (depth + 1) = r :: r.parent.elim [] (t.chain · depth) := by
  rw [chain, h]
  dsimp only
  cases r.parent <;> rfl

theorem length_chain_le (t : Table) (id : String) (depth : Nat) :
    (t.chain id depth).length ≤ depth + 1 := by
  induction depth generalizing id with
  | zero =>
    rw [chain]
    cases t.find id <;> simp
  | succ depth ih =>
    cases h : t.find id with
    | none => simp [chain_of_find_none h]
    | some r =>
      rw [chain_succ h, List.length_cons]
      cases r.parent with
      | none => simp
      | some parent => exact Nat.succ_le_succ (ih parent)

/-- Every row of a chain is found under its identifier. -/
theorem find_of_mem_chain {r : Row} {depth : Nat} (h : r ∈ t.chain id depth) :
    t.find r.id = some r := by
  induction depth generalizing id with
  | zero =>
    rw [chain, Option.mem_toList] at h
    rwa [(of_find h).2]
  | succ depth ih =>
    cases hfind : t.find id with
    | none => simp [chain_of_find_none hfind] at h
    | some q =>
      rw [chain_succ hfind, List.mem_cons] at h
      rcases h with rfl | h
      · rwa [(of_find hfind).2]
      · cases hp : q.parent with
        | none => simp [hp] at h
        | some parent =>
          rw [hp] at h
          exact ih h

/-! ## Evaluation -/

/-- At most one row has an identifier. -/
theorem filter_id (hids : (t.map (·.id)).Nodup) (id : String) :
    t.filter (·.id = id) = (t.find id).toList := by
  cases h : t.find id with
  | none =>
    refine List.filter_eq_nil_iff.2 fun r hr => ?_
    exact List.find?_eq_none.1 h r hr
  | some r =>
    obtain ⟨hr, rfl⟩ := of_find h
    exact filter_of_nodup hids hr

namespace Recursion

/-- At most one row is found above another. -/
theorem above_eq (hids : (t.map (·.id)).Nodup) {c : Found} (h : c.depth < limit) :
    above t limit c = (c.row.parent.bind t.find).toList.map (⟨·, c.depth + 1⟩) := by
  rw [above, if_pos h]
  cases c.row.parent with
  | none => simp
  | some parent =>
    rw [Option.bind_some, ← filter_id hids]
    simp only [Option.some.injEq, eq_comm]

theorem above_of_not_lt {c : Found} (h : ¬c.depth < limit) : above t limit c = [] :=
  if_neg h

/-- What an evaluation comes to. The rows in the answer and those still to come make the chain. -/
inductive Reached (t : Table) (limit : Nat) (id : String) : Recursion → Prop
  | waiting {c : Found} {answer : List Row} (find : t.find c.row.id = some c.row)
      (depth : c.depth ≤ limit)
      (chain : answer ++ t.chain c.row.id (limit - c.depth) = t.chain id limit) :
      Reached t limit id ⟨[c], answer⟩
  | ended : Reached t limit id ⟨[], t.chain id limit⟩

namespace Reached

theorem of_found {top : String} {depth : Nat} {answer : List Row} (hdepth : depth ≤ limit)
    (hchain : answer ++ t.chain top (limit - depth) = t.chain id limit) :
    Reached t limit id ⟨(t.find top).toList.map (⟨·, depth⟩), answer⟩ := by
  cases h : t.find top with
  | none =>
    rw [chain_of_find_none h, List.append_nil] at hchain
    rw [hchain]
    exact .ended
  | some r =>
    obtain ⟨-, rfl⟩ := of_find h
    exact .waiting h hdepth hchain

theorem start (hids : (t.map (·.id)).Nodup) (limit : Nat) (id : String) :
    Reached t limit id (.start t id) := by
  rw [Recursion.start, filter_id hids]
  exact of_found (Nat.zero_le _) rfl

/-- Taking a row comes to the rest of the chain. -/
theorem step (hids : (t.map (·.id)).Nodup) {q q' : Recursion} (h : Reached t limit id q)
    (hstep : Step t limit q q') : Reached t limit id q' := by
  obtain ⟨before, after, c, answer⟩ := hstep
  generalize hw : before ++ c :: after = waiting at h
  cases h with
  | ended => simp at hw
  | @waiting c' _ hfind hdepth hchain =>
    -- the row that is taken is the only one that waits
    obtain ⟨rfl, rfl, rfl⟩ : before = [] ∧ c = c' ∧ after = [] := by
      cases before <;> simp_all
    rw [List.append_nil, List.nil_append]
    by_cases hlt : c.depth < limit
    · rw [show limit - c.depth = limit - (c.depth + 1) + 1 by omega, chain_succ hfind,
        List.append_cons] at hchain
      rw [above_eq hids hlt]
      cases hp : c.row.parent with
      | none =>
        rw [hp, Option.elim_none, List.append_nil] at hchain
        rw [hchain]
        exact .ended
      | some parent =>
        rw [hp, Option.elim_some] at hchain
        exact of_found hlt hchain
    · rw [Nat.sub_eq_zero_of_le (Nat.le_of_not_lt hlt), chain, hfind, Option.toList_some] at hchain
      rw [above_of_not_lt hlt, hchain]
      exact .ended

theorem length_answer_le {q : Recursion} (h : Reached t limit id q) :
    q.answer.length ≤ (t.chain id limit).length := by
  cases h with
  | waiting _ _ hchain =>
    rw [← hchain, List.length_append]
    exact Nat.le_add_right _ _
  | ended => exact Nat.le_refl _

/-- A row joins the answer at each step, and the answer is never longer than the chain. -/
theorem acc (hids : (t.map (·.id)).Nodup) {q : Recursion} (h : Reached t limit id q) :
    Acc (fun q' q => Step t limit q q') q := by
  induction hn : (t.chain id limit).length - q.answer.length using Nat.strongRecOn
    generalizing q with
  | ind n ih =>
    refine .intro _ fun q' hstep => ih _ ?_ (h.step hids hstep) rfl
    have hle := (h.step hids hstep).length_answer_le
    cases hstep
    simp only [List.length_append, List.length_singleton] at hle hn ⊢
    omega

/-- While a row waits it can be taken, until the answer is the chain. -/
theorem ends (hids : (t.map (·.id)).Nodup) {q : Recursion} (h : Reached t limit id q) :
    Relation.ReflTransGen (Step t limit) q ⟨[], t.chain id limit⟩ := by
  induction h.acc hids with
  | intro q _ ih =>
    cases h with
    | ended => exact .refl
    | @waiting c answer hfind hdepth hchain =>
      have hstep : Step t limit ⟨[c], answer⟩ ⟨above t limit c, answer ++ [c.row]⟩ :=
        .take [] [] c answer
      exact .head hstep (ih _ hstep ((Reached.waiting hfind hdepth hchain).step hids hstep))

/-- What every evaluation from here comes to. -/
theorem run (hids : (t.map (·.id)).Nodup) {q q' : Recursion} (h : Reached t limit id q)
    (hrun : Relation.ReflTransGen (Step t limit) q q') : Reached t limit id q' := by
  induction hrun with
  | refl => exact h
  | tail _ hstep ih => exact ih.step hids hstep

end Reached

/-- Every evaluation of the query ends. -/
theorem acc_start (hids : (t.map (·.id)).Nodup) (limit : Nat) (id : String) :
    Acc (fun q' q => Step t limit q q') (start t id) :=
  (Reached.start hids limit id).acc hids

end Recursion

/-- The answer to the query is the chain. -/
theorem answers_iff (hids : (t.map (·.id)).Nodup) {rows : List Row} :
    t.Answers limit id rows ↔ rows.Perm (t.chain id limit) := by
  have hstart := Recursion.Reached.start hids limit id
  constructor
  · rintro ⟨found, hrun, hperm⟩
    cases hstart.run hids hrun
    exact hperm
  · exact fun hperm => ⟨_, hstart.ends hids, hperm⟩

end Table

end Outline
