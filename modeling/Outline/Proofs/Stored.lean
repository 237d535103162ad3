import Outline.Proofs.Invariants
import Outline.Proofs.Json.Text
import Outline.Proofs.Table.Answers
import Outline.Proofs.Timestamp.Text

/-!
# What holds of every stored node

A property of single records lasts when it does not depend on parents, keys and times, holds of each
node that is created, and is kept by each update: no other call brings anything new into a store.
The first such property is that a stored node passes the check of its record, so a call that
checks it again only checks what it brings along.

Main results:

* `Shelf.serve_all`, `Database.serve_all` — what one call keeps of every record;
* `Shelf.proper_serve`, `Database.proper_serve` — stored nodes pass their checks.
-/

namespace Outline

namespace StoreCall

/-- The node that a call creates. -/
def created? : StoreCall → Option Node
  | .create n | .createLast n => some n
  | _ => none

/-- The node that a call updates, and the change of its payload. -/
def updates? : StoreCall → Option (Uuid × Patch)
  | .update id patch => some (id, patch)
  | _ => none

end StoreCall

namespace Shelf

variable {s s' : Shelf} {now : Timestamp} {P : Record Node.Payload Timestamp → Prop}

/-- A move brings nothing new. -/
theorem relocate_all (h : s.Sound) {id : Uuid} {find : Space → Except StoreError (Option Uuid)}
    {target : Target} {n : Node} (hs : s.relocate id find target now = .ok (n, s'))
    (hP : ∀ stamp, Record.Keeps P stamp) (hf : s.forest.All P) : s'.forest.All P := by
  obtain ⟨r, parent, hr, -, hpos⟩ := relocate_positioned h hs
  exact hpos.all hP hf (hf hr)

theorem insert_all (h : s.Sound) {n m : Node} {entry : Entry}
    (hs : s.insert n entry now = .ok (m, s')) (hP : ∀ stamp, Record.Keeps P stamp)
    (hnew : n.check = .ok () → P n.record) (hf : s.forest.All P) : s'.forest.All P := by
  obtain ⟨hcheck, hn, hl⟩ := of_insert h.agrees hs
  cases entry with
  | own =>
    by_cases hfree : s.KeyFree n
    · obtain ⟨m', t, stamp, ht, -, -, -, hplaced⟩ :=
        insert_own_eq now h.agrees hcheck hn hl hfree
      rw [hs] at ht
      cases ht
      exact hplaced.all (hP stamp) hf (hnew hcheck)
    · rw [insert_own_taken h.agrees hcheck hn hl hfree] at hs
      cases hs
  | last => exact (insert_last_positioned h hs).all hP hf (hnew hcheck)

/-- A call keeps a lasting property of every record. -/
theorem serve_all (h : s.Sound) {c : StoreCall} {answer : c.Answer}
    (hs : store.serve c now s = .ok (answer, s')) (hP : ∀ stamp, Record.Keeps P stamp)
    (hnew : ∀ n : Node, c.created? = some n → n.check = .ok () → P n.record)
    (hpatch : ∀ (id : Uuid) (patch : Patch) (n : Node), c.updates? = some (id, patch) →
      s.forest id = some n.record → (n.patch patch now).check = .ok () →
        P (n.patch patch now).record)
    (hf : s.forest.All P) : s'.forest.All P := by
  have hread : s' = s → s'.forest.All P := by
    rintro rfl
    exact hf
  -- a creation and an update bring a payload along, the other calls only places, keys and times
  -- a record is as before, new, patched, or it has another place, key or time
  cases c with
  | get | list | nextSort => exact hread (of_reading hs)
  | create n =>
    change s.insert n .own now = .ok (answer, s') at hs
    exact insert_all h hs hP (hnew n rfl) hf
  | createLast n =>
    change s.insert n .last now = .ok (answer, s') at hs
    exact insert_all h hs hP (hnew n rfl) hf
  | update id patch =>
    change s.update id patch now = .ok (answer, s') at hs
    obtain ⟨n, hn, hcheck⟩ := of_update h.agrees hs
    obtain ⟨t, ht, -, -, hput⟩ := update_eq now h.agrees hn hcheck
    rw [hs] at ht
    cases ht
    rw [hput]
    exact hf.put (hpatch id patch n rfl (forest_of_node h.agrees hn) hcheck)
  | delete sp id =>
    change s.delete sp id = .ok (answer, s') at hs
    obtain ⟨n, hn, rfl, rfl⟩ := of_delete h.agrees hs
    obtain ⟨heq, -, hremoved⟩ := delete_eq h.agrees h.outline.rooted hn
    rw [hs] at heq
    cases heq
    exact hremoved.all hf
  | moveLast id parent =>
    change s.relocate id (fun _ => .ok parent) .last now = .ok (answer, s') at hs
    exact relocate_all h hs hP hf
  | moveAt id parent sort =>
    change s.relocate id (fun _ => .ok parent) (.at sort) now = .ok (answer, s') at hs
    exact relocate_all h hs hP hf
  | reorder id sort =>
    change s.relocate id (fun space => (space.get id).map (·.parent)) (.at sort) now =
      .ok (answer, s') at hs
    exact relocate_all h hs hP hf
  | moveBeside id anchor side =>
    change s.moveBeside id anchor side now = .ok (answer, s') at hs
    unfold moveBeside at hs
    split at hs
    · cases hs
    · exact relocate_all h hs hP hf
  | renumber group =>
    change s.renumber group now = .ok (answer, s') at hs
    obtain ⟨parent, members, hparent, hm⟩ := of_renumber hs
    obtain ⟨t, ht, -, -, hrekeyed⟩ := renumber_eq now h.agrees hparent hm
    rw [hs] at ht
    cases ht
    exact hrekeyed.all (hP now) hf

end Shelf

namespace Table.Holds

variable {t t' : Table} {f : Forest Row.Payload String} (h : t.Holds f) (ho : IsOutline f)
  {now : Timestamp} {P : Line → Prop} (hP : Record.Keeps P now.toOffsetText) (hf : f.All P)
include h ho hP hf

theorem relocate_all {gap : Gap} {id : Uuid} {parent : Option Uuid} {target : Target} {n : Node}
    (hs : t.relocate gap id parent target now = .ok (n, t')) : t'.forest.All P := by
  obtain ⟨l, p, hl, -, -, hplace, hholds, -⟩ := h.of_relocate ho hs
  obtain ⟨rfl, -⟩ := h.line hl
  have hlist := h.isListing_members ho.keys ⟨l.space, parent⟩
  have hplaced := placed_settle hl rfl (Placing.of_placeIn hlist hplace) now.toOffsetText
  rw [hholds.forest_eq]
  exact hplaced.all hP hf (hf hl)

theorem createLast_all {gap : Gap} {n n' : Node} (hs : t.createLast gap n now = .ok (n', t'))
    (hn : P n.line) : t'.forest.All P := by
  obtain ⟨p, sort, g, -, -, -, -, hholds, -, hplaced⟩ := h.of_createLast ho.keys hs
  rw [hholds.forest_eq]
  exact hplaced.all hP hf hn

end Table.Holds

namespace Database

variable {db db' : Database} {now : Timestamp} {P : Line → Prop}

/-- A call keeps a lasting property of every record. -/
theorem serve_all (h : db.Sound) {c : StoreCall} {answer : c.Answer}
    (hs : store.serve c now db = .ok (answer, db')) (hP : Record.Keeps P now.toOffsetText)
    (hnew : ∀ n : Node, c.created? = some n → n.check = .ok () → P n.line)
    (hpatch : ∀ (id : Uuid) (patch : Patch) (n : Node) (l : Line),
      c.updates? = some (id, patch) → db.rows.forest id = some l → l.row.toNode = .ok n →
        (n.patch patch now).check = .ok () → P (patchedLine (n.patch patch now) l))
    (hf : db.rows.forest.All P) : db'.rows.forest.All P := by
  have ht := h.holds
  have ho := h.outline
  have hread : db' = db → db'.rows.forest.All P := by
    rintro rfl
    exact hf
  cases c with
  | get | list | nextSort => exact hread (of_reading hs)
  | create n =>
    obtain ⟨hs, -⟩ := of_writing hs
    obtain ⟨u, hcheck, -⟩ := bind_eq_ok_iff.1 hs
    obtain ⟨-, -, -, hholds, -⟩ := ht.of_create ho.keys hs
    rw [hholds.forest_eq]
    exact hf.put (hnew n rfl (ht.of_checkNew hcheck).1)
  | createLast n =>
    obtain ⟨hs, -⟩ := of_writing hs
    obtain ⟨u, hcheck, -⟩ := bind_eq_ok_iff.1 hs
    exact ht.createLast_all ho hP hf hs (hnew n rfl (ht.of_checkNew hcheck).1)
  | update id patch =>
    obtain ⟨l, n, hl, hnode, rfl, hcheck, hholds⟩ := ht.of_updateNode (of_writing hs).1
    rw [hholds.forest_eq]
    exact hf.put (hpatch id patch n l rfl hl hnode hcheck)
  | delete space id =>
    obtain ⟨l, g, -, -, -, hholds, hremoved⟩ := ht.of_deleteNode ho.rooted (of_writing hs).1
    rw [hholds.forest_eq]
    exact hremoved.all hf
  | moveLast id parent | moveAt id parent sort => exact ht.relocate_all ho hP hf (of_writing hs).1
  | reorder id sort =>
    obtain ⟨n, -, hrelocate⟩ := bind_eq_ok_iff.1 (of_writing hs).1
    exact ht.relocate_all ho hP hf hrelocate
  | moveBeside id anchor side =>
    obtain ⟨-, n, a, -, -, -, hrelocate⟩ := Table.of_moveBeside (of_writing hs).1
    exact ht.relocate_all ho hP hf hrelocate
  | renumber group =>
    obtain ⟨parent, members, -, -, hholds, -, hrekeyed⟩ :=
      ht.of_renumber ho.keys (of_writing hs).1
    rw [hholds.forest_eq]
    exact hrekeyed.all hP hf

end Database

/-! ## Rows that can be read -/

/-- The record can be read as a node. -/
def Record.Legible (l : Line) : Prop :=
  ∃ n, l.row.toNode = .ok n

instance (t : Table) : Decidable t.Readable :=
  decidable_of_iff (∀ r ∈ t, r.toNode.isOk = true)
    ⟨fun h r hr => exists_eq_ok_of_isOk (h r hr), fun h r hr => by
      obtain ⟨n, hn⟩ := h r hr
      rw [hn]
      rfl⟩

instance (t : Table) : Decidable t.Roomy :=
  inferInstanceAs (Decidable (t.length < 2 ^ 31))

/-- A legible record stays one when it is given the text of a time that can be read. -/
theorem Record.keeps_legible {now : Timestamp} (hyear : now.HasPlainYear) :
    Record.Keeps Record.Legible now.toOffsetText := by
  intro l parent sort updated hl hup
  obtain ⟨hproperties, hcreated, hupdated⟩ := Row.exists_toNode_iff.1 hl
  refine Row.exists_toNode_iff.2 ⟨hproperties, hcreated, ?_⟩
  rcases hup with rfl | rfl
  · exact hupdated
  · exact ⟨now, Timestamp.ofText?_toOffsetText hyear⟩

theorem Table.Holds.readable_iff {t : Table} {f : Forest Row.Payload String} (h : t.Holds f) :
    t.Readable ↔ f.All Record.Legible := by
  constructor
  · intro hr id l hl
    exact hr _ (h.line hl).2
  · intro hf r hr
    obtain ⟨l, hl, rfl⟩ := h.row hr
    exact hf hl

/-! ## Stored nodes pass their checks -/

/-- The record has identifiers, and its payload holds an object. -/
structure Record.Proper {π τ : Type} (object : π → Prop) (r : Record π τ) : Prop where
  id      : r.id ≠ .nil
  space   : r.space ≠ .nil
  payload : object r.payload

theorem Record.keeps_proper {π τ : Type} (object : π → Prop) (stamp : τ) :
    Record.Keeps (Record.Proper object) stamp :=
  fun _ _ _ _ hr _ => ⟨hr.id, hr.space, hr.payload⟩

/-- The properties of the node are an object. -/
def Node.Payload.IsObject (p : Node.Payload) : Prop :=
  p.properties.isObject = true

/-- What the properties read as is an object. -/
def Row.Payload.IsObject (p : Row.Payload) : Prop :=
  ∀ v, Json.ofText? p.properties = some v → v.isObject = true

theorem Node.proper_record {n : Node} (h : n.check = .ok ()) :
    n.record.Proper Node.Payload.IsObject := by
  obtain ⟨hid, hspace, hobject, -⟩ := check_eq_ok_iff.1 h
  exact ⟨hid, hspace, hobject⟩

namespace Json

/-- What begins with a brace is an object. -/
theorem exists_obj_of_readValue? {fuel : Nat} {cs rest : List Char} {form : Form}
    (h : readValue? fuel ('\x7b' :: cs) = some (form, rest)) : ∃ members, form = .obj members := by
  cases fuel with
  | zero => cases h
  | succ fuel =>
    rw [readValue?, skipSpace_cons (by decide)] at h
    split at h
    case h_6 =>
      split at h
      · cases h
        exact ⟨_, rfl⟩
      · obtain ⟨⟨members, rest'⟩, -, heq⟩ := Option.map_eq_some_iff.1 h
        cases heq
        exact ⟨members, rfl⟩
    -- a brace is neither another opening character nor the first one of a numeral
    case h_7 hnot => exact absurd rfl (hnot cs)
    all_goals
      next heq => cases heq

theorem isObject_of_ofText?_text {v w : Json} (hv : v.isObject = true)
    (h : ofText? v.text = some w) : w.isObject = true := by
  obtain ⟨members, rfl⟩ : ∃ members, v = .obj members := by
    cases v with
    | obj members => exact ⟨members, rfl⟩
    | null | bool | int | float | str | arr => cases hv
  have htext : (Json.obj members).text.toList = '\x7b' :: writeMembers members := by
    rw [text, String.toList_ofList, write]
  obtain ⟨form, hform, hvalue⟩ := Option.bind_eq_some_iff.1 h
  rw [readText?, htext] at hform
  obtain ⟨⟨form', rest⟩, hread, hend⟩ := Option.bind_eq_some_iff.1 hform
  obtain rfl : form' = form := by
    dsimp only at hend
    split at hend
    · exact Option.some.inj hend
    · cases hend
  obtain ⟨forms, rfl⟩ := exists_obj_of_readValue? hread
  unfold maxDepth at hvalue
  rw [Form.value?] at hvalue
  obtain ⟨members', -, rfl⟩ := Option.map_eq_some_iff.1 hvalue
  rfl

end Json

theorem Node.proper_line {n : Node} (h : n.check = .ok ()) :
    n.line.Proper Row.Payload.IsObject := by
  obtain ⟨hid, hspace, hobject, -⟩ := check_eq_ok_iff.1 h
  exact ⟨hid, hspace, fun _ hv => Json.isObject_of_ofText?_text hobject hv⟩

namespace Shelf

variable {s s' : Shelf} {now : Timestamp}

/-- Every stored node passes the check of its record. -/
def Proper (s : Shelf) : Prop :=
  s.forest.All (Record.Proper Node.Payload.IsObject)

theorem proper_empty (gap : Gap) : (empty gap).Proper := by
  intro id r hr
  rw [forest_empty] at hr
  cases hr

theorem proper_serve (h : s.Sound) (hp : s.Proper) {c : StoreCall} {answer : c.Answer}
    (hs : store.serve c now s = .ok (answer, s')) : s'.Proper :=
  serve_all h hs (Record.keeps_proper _) (fun _ _ hcheck => Node.proper_record hcheck)
    (fun _ _ _ _ _ hcheck => Node.proper_record hcheck) hp

end Shelf

namespace Database

variable {db db' : Database} {now : Timestamp}

/-- Every row that can be read passes the check of its record. -/
def Proper (db : Database) : Prop :=
  db.rows.forest.All (Record.Proper Row.Payload.IsObject)

theorem proper_empty (gap : Gap) : (empty gap).Proper := by
  intro id l hl
  cases hl

theorem proper_serve (h : db.Sound) (hp : db.Proper) {c : StoreCall} {answer : c.Answer}
    (hs : store.serve c now db = .ok (answer, db')) : db'.Proper := by
  refine serve_all h hs (Record.keeps_proper _ _) (fun _ _ hcheck => Node.proper_line hcheck)
    (fun id patch n l _ hl hnode hcheck => ?_) hp
  -- the identifiers of the row are those that were there
  obtain ⟨hid, hspace, hobject, -⟩ := Node.check_eq_ok_iff.1 hcheck
  exact ⟨(hp hl).id, (hp hl).space, fun _ hv => Json.isObject_of_ofText?_text hobject hv⟩

end Database

end Outline
