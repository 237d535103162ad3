import Outline.Proofs.Runs
import Outline.Proofs.Table.Remove

/-!
# Runs of the table store

Every successful call leaves rows of a forest, and makes one of the changes of a forest. So the rows
are those of an outline after every run that starts with an empty table, although some of them may
be unreadable as nodes.

Main results:

* `Database.serve_evolves` — what one successful call keeps;
* `Database.sound_run` — what every run keeps.
-/

namespace Outline

namespace Database

variable {db db' : Database} {now : Timestamp}

/-- The rows are those of an outline. -/
structure Sound (db : Database) : Prop where
  holds   : db.rows.Holds db.rows.forest
  outline : IsOutline db.rows.forest

/-- Rows that are those of some outline are those of the outline that they show. -/
theorem Sound.of_holds {f : Forest Row.Payload String} (h : db.rows.Holds f) (ho : IsOutline f) :
    db.Sound := by
  have hf := h.forest_eq
  exact ⟨by rwa [hf], by rwa [hf]⟩

theorem sound_empty (gap : Gap) : (empty gap).Sound :=
  .of_holds Table.holds_nil (isOutline_of_empty fun _ => rfl)

/-- A reading call gives the rows back. -/
theorem of_reading {α : Type} {outcome : Except StoreError α} {a : α}
    (hs : db.reading outcome = .ok (a, db')) : db' = db := by
  obtain ⟨b, -, heq⟩ := map_eq_ok_iff.1 hs
  exact (congrArg Prod.snd heq).symm

/-- A writing call gives new rows. -/
theorem of_writing {α : Type} {outcome : Except StoreError (α × Table)} {a : α}
    (hs : db.writing outcome = .ok (a, db')) :
    outcome = .ok (a, db'.rows) ∧ db'.gap = db.gap := by
  obtain ⟨⟨b, rows⟩, hb, heq⟩ := map_eq_ok_iff.1 hs
  cases heq
  exact ⟨hb, rfl⟩

/-- A successful call leaves the rows of a forest and makes one change of it. -/
theorem serve_evolves (h : db.Sound) {c : StoreCall} {answer : c.Answer}
    (hs : store.serve c now db = .ok (answer, db')) :
    ∃ g, db'.rows.Holds g ∧ Evolves db.rows.forest g := by
  have ht := h.holds
  have hk : KeysDistinct db.rows.forest := h.outline.keys
  have hread : db' = db → ∃ g, db'.rows.Holds g ∧ Evolves db.rows.forest g := by
    rintro rfl
    exact ⟨_, ht, .same rfl⟩
  cases c with
  | get | list | nextSort => exact hread (of_reading hs)
  | create n => exact ht.create_evolves hk (of_writing hs).1
  | createLast n => exact ht.createLast_evolves hk (of_writing hs).1
  | update id patch => exact ht.updateNode_evolves (of_writing hs).1
  | delete space id =>
    obtain ⟨-, g, -, -, -, hholds, hremoved⟩ :=
      ht.of_deleteNode h.outline.rooted (of_writing hs).1
    exact ⟨g, hholds, .removed hremoved⟩
  | moveLast id parent => exact ht.relocate_evolves h.outline (of_writing hs).1
  | moveAt id parent sort => exact ht.relocate_evolves h.outline (of_writing hs).1
  | reorder id sort =>
    obtain ⟨n, -, hrelocate⟩ := bind_eq_ok_iff.1 (of_writing hs).1
    exact ht.relocate_evolves h.outline hrelocate
  | moveBeside id anchor side =>
    obtain ⟨-, n, a, -, -, -, hrelocate⟩ := Table.of_moveBeside (of_writing hs).1
    exact ht.relocate_evolves h.outline hrelocate
  | renumber group => exact ht.renumber_evolves hk (of_writing hs).1

theorem Sound.serve (h : db.Sound) {c : StoreCall} {answer : c.Answer}
    (hs : store.serve c now db = .ok (answer, db')) : db'.Sound := by
  obtain ⟨g, hholds, hevolves⟩ := serve_evolves h hs
  exact .of_holds hholds (hevolves.isOutline h.outline)

theorem sound_run (gap : Gap) (calls : List (StoreCall × Timestamp)) :
    (store.run calls (empty gap)).Sound :=
  Store.run_induction (fun _ _ _ _ _ h hs => h.serve hs) calls (sound_empty gap)

theorem gap_serve {c : StoreCall} {answer : c.Answer}
    (hs : store.serve c now db = .ok (answer, db')) : db'.gap = db.gap := by
  have hread : db' = db → db'.gap = db.gap := fun h => congrArg gap h
  cases c with
  | get | list | nextSort => exact hread (of_reading hs)
  | create | createLast | update | delete | moveLast | moveAt | reorder | moveBeside | renumber =>
    exact (of_writing hs).2

/-- A store keeps its gap. -/
theorem gap_run (gap : Gap) (calls : List (StoreCall × Timestamp)) :
    (store.run calls (empty gap)).gap = gap :=
  Store.run_induction (P := fun db => db.gap = gap)
    (fun _ _ _ _ _ h hs => (gap_serve hs).trans h) calls rfl

end Database

end Outline
