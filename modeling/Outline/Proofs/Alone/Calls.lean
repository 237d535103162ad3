import Outline.Proofs.Agreement.Programs
import Outline.Proofs.Exhaustion
import Outline.Proofs.Service.AllOrNothing

/-!
# Calls that were checked before

The service looks at the nodes concerned before it makes a call that writes. If nobody else writes
in between, then the store finds what the service has found, so its own checks have only two things
left to refuse: a move of a node to a place below itself, which the service does not look for, and a
group whose keys have run out.

Main results:

* `Shelf.honours`, `Database.honours` — what a store makes of calls that were checked.
-/

namespace Outline

variable {π τ : Type}

/-! ## What is expected -/

namespace StoreError

/-- No writer has taken a key. -/
def NoConflict : StoreError → Prop
  | .duplicateSort _ _ => False
  | _ => True

/-- A refusal that is no conflict of the store is none of the service. -/
theorem NoConflict.isConflict_ofStore {e : StoreError} (he : e.NoConflict) (operation : String) :
    (ServiceError.ofStore operation e).isConflict = false := by
  rw [← Bool.not_eq_true, ServiceError.isConflict_ofStore]
  rintro ⟨group, sort, rfl⟩
  exact he

/-- The refusals that are left when a call was checked before: a circle, and keys that do not fit in
64 bits. -/
inductive Expected : StoreError → Prop
  | cycle (node parent : Uuid) : Expected (.violation (.cycle node parent))
  | overflow (group : Group) {cause : Exhausted} : cause.Overflows →
      Expected (.exhausted group cause)

/-- Keys that do not fit are one of the two refusals that a lone writer has to expect. -/
theorem Overflows.expected {e : StoreError} (h : e.Overflows) : e.Expected := by
  cases e with
  | exhausted group cause => exact .overflow group h
  | _ => cases h

/-- And neither of the two is a conflict. -/
theorem Expected.noConflict {e : StoreError} (h : e.Expected) : e.NoConflict := by
  cases h with
  | cycle => trivial
  | overflow => trivial

end StoreError

/-- The node has the place that is recorded for `id`. -/
def Forest.Shows (f : Forest π τ) (id : Uuid) (n : Node) : Prop :=
  ∃ r, f id = some r ∧ r.shape = n.record.shape

/-- A node that is shown has the place and the kind of its record. -/
theorem Forest.Shows.place {f : Forest π τ} {id : Uuid} {n : Node} (h : f.Shows id n) :
    ∃ r, f id = some r ∧ r.space = n.space ∧ r.kind = n.kind ∧ r.parent = n.parent := by
  obtain ⟨r, hr, hshape⟩ := h
  simp only [Record.shape, Prod.mk.injEq] at hshape
  exact ⟨r, hr, hshape.2⟩

/-- A node of some kind may stand under `parent` in a space. -/
def Forest.Seats (f : Forest π τ) (kind : Kind) (space : Uuid) : Option Uuid → Prop
  | none => kind = .page
  | some parent => ∃ q, f parent = some q ∧ q.space = space ∧ (kind = .page → q.kind = .page)

/-- That a node may be seated is that its parent fits, as the rules have it. -/
theorem Forest.seats_iff {f : Forest π τ} {r : Record π τ} :
    f.Seats r.kind r.space r.parent ↔ Lodged f r := by
  unfold Lodged
  cases r.parent <;> exact Iff.rfl

namespace StoreCall

/-- What the service has made sure of before it makes a call that writes. -/
def Passed (f : Forest π τ) : StoreCall → Prop
  | .createLast n => n.check = .ok () ∧ f n.id = none ∧ f.Seats n.kind n.space n.parent
  | .update id patch => (∃ r, f id = some r) ∧ patch.properties.all Json.isObject = true
  | .delete space id => ∃ r, f id = some r ∧ r.space = space
  | .moveLast id parent | .moveAt id parent _ => ∃ r, f id = some r ∧ f.Seats r.kind r.space parent
  | .reorder id _ => ∃ r, f id = some r
  | .moveBeside id anchor _ => anchor ≠ id ∧ ∃ r q, f id = some r ∧ f anchor = some q ∧
      q.space = r.space ∧ f.Seats r.kind r.space q.parent
  | .renumber group =>
    ∀ p, group.parent = some p → ∃ r, f p = some r ∧ r.space = group.space
  | .get _ | .create _ | .list _ | .nextSort _ => False

/-- A node that is answered has the place of its record. -/
def Finds (f : Forest π τ) : (c : StoreCall) → c.Answer → Prop
  | .get id, n => f.Shows id n
  | _, _ => True

/-- What a reading call tells is true, and no conflict. -/
def Tells (f : Forest π τ) (c : StoreCall) : c.Outcome → Prop
  | .ok answer => c.Finds f answer
  | .error e => e.NoConflict

end StoreCall

/-- The store shows the forest `f`: reading calls tell of it and leave it as it is, and a call that
was checked against it is refused for an expected reason only. -/
structure Honours {σ : Type} (store : Store σ) (now : Timestamp) (s : σ) (f : Forest π τ) :
    Prop where
  kept  : ∀ c : StoreCall, c.isRead = true → (store.step c now s).2 = s
  tells : ∀ c : StoreCall, c.isRead = true → c.Tells f (store.step c now s).1
  takes : ∀ c : StoreCall, c.Passed f → ∀ e, (store.step c now s).1 = .error e → e.Expected

/-- Refusals, if any, that are no conflicts. -/
def Peaceful {α : Type} (outcome : Except StoreError α) : Prop :=
  ∀ e, outcome = .error e → e.NoConflict

namespace Peaceful

variable {α β : Type} {x : Except StoreError α}

/-- An answer is peaceful. -/
theorem ok (a : α) : Peaceful (.ok a : Except StoreError α) := by
  intro e he
  cases he

theorem error {e : StoreError} (he : e.NoConflict) : Peaceful (.error e : Except StoreError α) := by
  intro e' he'
  cases he'
  exact he

/-- A sequence of peaceful steps is peaceful, -/
theorem bind {f : α → Except StoreError β} (hx : Peaceful x) (hf : ∀ a, Peaceful (f a)) :
    Peaceful (x >>= f) := by
  cases x with
  | ok a => exact hf a
  | error e => exact error (hx e rfl)

/-- and so is what is made of an answer, -/
theorem map (hx : Peaceful x) (f : α → β) : Peaceful (x.map f) := by
  cases x with
  | ok a => exact ok (f a)
  | error e => exact error (hx e rfl)

/-- and a list of peaceful steps. -/
theorem mapM {f : α → Except StoreError β} (hf : ∀ a, Peaceful (f a)) (l : List α) :
    Peaceful (l.mapM f) := by
  induction l with
  | nil => exact ok []
  | cons a rest ih =>
    rw [List.mapM_cons]
    exact (hf a).bind fun b => ih.bind fun bs => ok (b :: bs)

end Peaceful

/-- A store honours its callers if its reading calls change nothing, make no conflict and tell what
is stored, and its writes are refused as expected only. -/
theorem Honours.of_serve {σ : Type} {store : Store σ} {now : Timestamp} {s : σ} {f : Forest π τ}
    (hkept : ∀ c : StoreCall, c.isRead = true → (store.step c now s).2 = s)
    (hpeace : ∀ {c : StoreCall}, c.isRead = true → Peaceful (store.serve c now s))
    (hfinds : ∀ {c : StoreCall} {answer : c.Answer} {s' : σ}, c.isRead = true →
      store.serve c now s = .ok (answer, s') → c.Finds f answer)
    (htakes : ∀ {c : StoreCall} {e : StoreError}, c.Passed f →
      store.serve c now s = .error e → e.Expected) : Honours store now s f where
  kept := hkept
  tells c hc := by
    unfold Store.step
    split
    · next answer s' hs => exact hfinds hc hs
    · next e hs => exact hpeace hc e hs
  takes c hc e he := by
    unfold Store.step at he
    split at he
    · cases he
    · next e' hs =>
      cases he
      exact htakes hc hs

/-! ## The store in memory -/

namespace Shelf

variable {s : Shelf} {now : Timestamp}

/-- A node that is missing from a space is not a conflict. -/
theorem peaceful_space_get (space : Space) (id : Uuid) : Peaceful (space.get id) := by
  unfold Space.get
  split
  · exact .ok _
  · exact .error trivial

/-- Reading makes no conflict, whatever is stored. -/
theorem peaceful_read (s : Shelf) {c : StoreCall} (hc : c.isRead = true) :
    Peaceful (store.serve c now s) := by
  cases c with
  | get id =>
    refine Peaceful.map (Peaceful.bind ?_ fun sp => peaceful_space_get (s.space sp) id) _
    unfold spaceOf
    split
    · exact .ok _
    · exact .error trivial
  | list group =>
    refine Peaceful.map (Peaceful.bind ?_ fun parent => .ok _) _
    unfold Space.getParent
    split
    · exact .ok none
    · exact (peaceful_space_get _ _).map _
  | nextSort group =>
    refine Peaceful.map ?_ _
    unfold nextSort
    dsimp only
    split
    · exact .ok _
    · exact .error trivial
  | _ => cases hc

/-- A move to a suitable parent is refused for a circle or for want of keys. -/
theorem relocate_expected (h : s.Sound) {id : Uuid} {r : Record Node.Payload Timestamp}
    (hr : s.forest id = some r) {find : Space → Except StoreError (Option Uuid)}
    {parent : Option Uuid} (hfind : find (s.space r.space) = .ok parent)
    (hseats : s.forest.Seats r.kind r.space parent) {target : Target}
    (hanchor : ∀ anchor side, target = .beside anchor side →
      anchor ≠ id ∧ ∃ q, s.forest anchor = some q ∧ q.group = ⟨r.space, parent⟩) {e : StoreError}
    (hs : s.relocate id find target now = .error e) : e.Expected := by
  have hlodged : Lodged s.forest { r with parent := parent } := Forest.seats_iff.1 hseats
  -- nothing has been found out about what is below the node
  by_cases hclear : ∀ p, parent = some p → ¬Within s.forest id p
  · exact (relocate_overflows h hr hfind hlodged hclear hanchor hs).expected
  · simp only [not_forall, not_not] at hclear
    obtain ⟨p, hp, hw⟩ := hclear
    rw [relocate_blocked target now h.agrees h.outline.rooted hr hfind hlodged hp hw] at hs
    cases hs
    exact .cycle id p

/-- A node goes to another key under the parent that it has, which seats it. -/
theorem reorder_expected (h : s.Sound) {id : Uuid} {r : Record Node.Payload Timestamp}
    (hr : s.forest id = some r) {sort : SortKey} {e : StoreError}
    (hs : s.relocate id (fun space => (space.get id).map (·.parent)) (.at sort) now = .error e) :
    e.Expected := by
  obtain ⟨n, -, -, rfl⟩ := exists_node h.agrees hr
  have hfind : ((s.space n.space).get id).map (·.parent) = .ok n.parent := by
    rw [space_get_of_forest h.agrees hr]
    rfl
  exact relocate_expected h hr hfind (Forest.seats_iff.2 (h.outline.rooted.lodged hr))
    (fun _ _ htarget => by cases htarget) hs

/-- A node goes next to another one of its space, under a parent that seats it. -/
theorem moveBeside_expected (h : s.Sound) {id anchor : Uuid} (hne : anchor ≠ id)
    {r q : Record Node.Payload Timestamp} (hr : s.forest id = some r)
    (hq : s.forest anchor = some q) (hspace : q.space = r.space)
    (hseats : s.forest.Seats r.kind r.space q.parent) {side : Side} {e : StoreError}
    (hs : s.moveBeside id anchor side now = .error e) : e.Expected := by
  obtain ⟨b, -, -, rfl⟩ := exists_node h.agrees hq
  have hfind : ((s.space r.space).get anchor).map (·.parent) = .ok b.parent := by
    rw [← hspace, Node.record_space, space_get_of_forest h.agrees hq]
    rfl
  rw [moveBeside, if_neg hne] at hs
  refine relocate_expected h hr hfind hseats (fun anchor' side' htarget => ?_) hs
  cases htarget
  exact ⟨hne, b.record, hq, by rw [Record.group, hspace]⟩

/-- A write that has been prepared is refused for a cycle or for want of keys, and for nothing else.
-/
theorem expected_of_passed (h : s.Sound) (hp : s.Proper) {c : StoreCall} {e : StoreError}
    (hc : c.Passed s.forest) (hs : store.serve c now s = .error e) : e.Expected := by
  cases c with
  | createLast n =>
    obtain ⟨hcheck, hn, hseats⟩ := hc
    exact (insert_overflows h hcheck hn (Forest.seats_iff.1 hseats) hs).expected
  | update id patch =>
    obtain ⟨⟨r, hr⟩, hobject⟩ := hc
    obtain ⟨answered, heq⟩ := update_accepted h hp hr hobject now
    cases hs.symm.trans heq
  | delete space id =>
    obtain ⟨r, hr, rfl⟩ := hc
    obtain ⟨answered, heq⟩ := delete_accepted h hr
    cases hs.symm.trans heq
  | moveLast id parent =>
    obtain ⟨r, hr, hseats⟩ := hc
    change s.relocate id (fun _ => .ok parent) .last now = .error e at hs
    exact relocate_expected h hr rfl hseats (fun _ _ htarget => by cases htarget) hs
  | moveAt id parent sort =>
    obtain ⟨r, hr, hseats⟩ := hc
    change s.relocate id (fun _ => .ok parent) (.at sort) now = .error e at hs
    exact relocate_expected h hr rfl hseats (fun _ _ htarget => by cases htarget) hs
  | reorder id sort =>
    obtain ⟨r, hr⟩ := hc
    exact reorder_expected h hr hs
  | moveBeside id anchor side =>
    obtain ⟨hne, r, q, hr, hq, hspace, hseats⟩ := hc
    exact moveBeside_expected h hne hr hq hspace hseats hs
  | renumber group => exact (renumber_overflows h hc hs).expected
  | get | create | list | nextSort => cases hc

/-- What reading answers is what the forest holds. -/
theorem finds_read (h : s.Sound) {c : StoreCall} {answer : c.Answer} {s' : Shelf}
    (hc : c.isRead = true) (hs : store.serve c now s = .ok (answer, s')) :
    c.Finds s.forest answer := by
  cases c with
  | get id =>
    obtain ⟨n, hn, heq⟩ := map_eq_ok_iff.1 hs
    cases heq
    exact ⟨_, forest_of_node h.agrees ((get_eq_ok_iff h.agrees).1 hn), rfl⟩
  | list | nextSort => trivial
  | _ => cases hc

/-- So a store in memory honours its callers in every sound state. -/
theorem honours (h : s.Sound) (hp : s.Proper) (now : Timestamp) :
    Honours store now s s.forest :=
  .of_serve (fun c hc => keptByReading c now s hc) (peaceful_read s) (finds_read h)
    (expected_of_passed h hp)

end Shelf

/-! ## The table -/

namespace Table

variable {t : Table}

/-- A row that cannot be read is not a conflict. -/
theorem peaceful_ofFault {α : Type} (outcome : Except RecordFault α) :
    Peaceful (StoreError.ofFault outcome) := by
  cases outcome with
  | ok a => exact .ok a
  | error fault => exact .error trivial

/-- Nor is a row that is missing. -/
theorem peaceful_fetch (t : Table) (id : Uuid) : Peaceful (t.fetch id) := by
  unfold fetch
  split
  · exact peaceful_ofFault _
  · exact .error trivial

/-- A listing reads all rows of a group, and fails at the first that it cannot read. -/
theorem peaceful_list (t : Table) (group : Group) : Peaceful (t.list group) := by
  have hparent : Peaceful (t.fetchParent group.parent) := by
    unfold fetchParent
    split
    · exact .ok none
    · exact (peaceful_fetch t _).map some
  have hchildren : Peaceful (t.fetchChildren group) :=
    .mapM (fun r : Row => peaceful_ofFault r.toNode) _
  refine hparent.bind fun parent => ?_
  cases parent with
  | none => exact hchildren
  | some n =>
    dsimp only
    split
    · exact .error trivial
    · exact hchildren

/-- The next key may be out of range, but is never taken. -/
theorem peaceful_nextSort (t : Table) (gap : Gap) (group : Group) :
    Peaceful (t.nextSort gap group) := by
  unfold nextSort
  dsimp only
  split
  · exact .ok _
  · exact .error trivial

namespace Holds

variable {f : Forest Row.Payload String} (h : t.Holds f) (ho : IsOutline f) (hr : t.Readable)
  (hroom : t.Roomy) {gap : Gap} {now : Timestamp} (hyear : now.HasPlainYear) {e : StoreError}
include h ho hr hroom hyear

/-- A move to a suitable parent is refused for a circle or for want of keys. -/
theorem relocate_expected {id : Uuid} {l : Line} {parent : Option Uuid} {target : Target}
    (hl : f id = some l) (hseats : f.Seats l.kind l.space parent)
    (hanchor : ∀ anchor side, target = .beside anchor side →
      anchor ≠ id ∧ ∃ q, f anchor = some q ∧ q.group = ⟨l.space, parent⟩)
    (hs : t.relocate gap id parent target now = .error e) : e.Expected := by
  have hlodged : Lodged f { l with parent := parent } := Forest.seats_iff.1 hseats
  by_cases hclear : ∀ p, parent = some p → ¬Within f id p
  · exact (h.relocate_overflows ho hr hroom hyear hl hlodged hclear hanchor hs).expected
  · simp only [not_forall, not_not] at hclear
    obtain ⟨p, rfl, hw⟩ := hclear
    -- the parent is read and passes the check, so the climb is what fails
    obtain ⟨n, hfetch, -⟩ := h.exists_fetch hr hl
    obtain ⟨hspace, hkind, -⟩ := h.place_of_fetch hl hfetch
    have hcheck := h.checkFetched_of_lodged hr hlodged
    rw [h.relocate_blocked hl hfetch ho.rooted (by rw [hspace, hkind]; exact hcheck) hw] at hs
    cases hs
    exact .cycle id p

/-- A node goes to another key under the parent that it has, which seats it. -/
theorem reorder_expected {id : Uuid} {l : Line} (hl : f id = some l) {sort : SortKey}
    (hs : t.reorder gap id sort now = .error e) : e.Expected := by
  obtain ⟨n, hfetch, -⟩ := h.exists_fetch hr hl
  obtain ⟨-, -, hparent⟩ := h.place_of_fetch hl hfetch
  rw [reorder, hfetch, bind_ok, hparent] at hs
  exact h.relocate_expected ho hr hroom hyear hl (Forest.seats_iff.2 (ho.rooted.lodged hl))
    (fun _ _ htarget => by cases htarget) hs

/-- A node goes next to another one of its space, under a parent that seats it. -/
theorem moveBeside_expected {id anchor : Uuid} (hne : anchor ≠ id) {l q : Line}
    (hl : f id = some l) (hq : f anchor = some q) (hspace : q.space = l.space)
    (hseats : f.Seats l.kind l.space q.parent) {side : Side}
    (hs : t.moveBeside gap id anchor side now = .error e) : e.Expected := by
  -- both rows are read, and what is read has the place of the record
  obtain ⟨n, hfetch, -⟩ := h.exists_fetch hr hl
  obtain ⟨a, hanchor, -⟩ := h.exists_fetch hr hq
  obtain ⟨hns, -⟩ := h.place_of_fetch hl hfetch
  obtain ⟨has, -, haparent⟩ := h.place_of_fetch hq hanchor
  have hsame : a.space = n.space := has.trans (hspace.trans hns.symm)
  rw [moveBeside, if_neg hne, hfetch, bind_ok, hanchor, bind_ok, if_neg (not_not.2 hsame),
    haparent] at hs
  refine h.relocate_expected ho hr hroom hyear hl hseats (fun anchor' side' htarget => ?_) hs
  cases htarget
  exact ⟨hne, q, hq, by rw [Record.group, hspace]⟩

end Holds

end Table

namespace Database

variable {db : Database} {now : Timestamp}

theorem peaceful_read (db : Database) {c : StoreCall} (hc : c.isRead = true) :
    Peaceful (store.serve c now db) := by
  cases c with
  | get id => exact (db.rows.peaceful_fetch id).map _
  | list group => exact (db.rows.peaceful_list group).map _
  | nextSort group => exact (db.rows.peaceful_nextSort db.gap group).map _
  | _ => cases hc

theorem finds_read (h : db.Sound) {c : StoreCall} {answer : c.Answer} {db' : Database}
    (hc : c.isRead = true) (hs : store.serve c now db = .ok (answer, db')) :
    c.Finds db.rows.forest answer := by
  cases c with
  | get id =>
    obtain ⟨n, hn, heq⟩ := map_eq_ok_iff.1 hs
    cases heq
    obtain ⟨l, hl, hnode⟩ := h.holds.of_fetch hn
    obtain ⟨hid, hspace, hkind, hparent, -⟩ := Row.toNode_row_eq_ok_iff.1 hnode
    exact ⟨l, hl, by simp [Record.shape, Node.record, hid, hspace, hkind, hparent]⟩
  | list | nextSort => trivial
  | _ => cases hc

/-- A writing call is refused only for what the table refuses. -/
theorem error_of_writing {α : Type} {outcome : Except StoreError (α × Table)} {e : StoreError}
    (hs : db.writing outcome = .error e) : outcome = .error e := by
  cases outcome with
  | ok x => cases hs
  | error e' =>
    cases hs
    rfl

theorem expected_of_passed (h : db.Sound) (hp : db.Proper) (hr : db.rows.Readable)
    (hroom : db.rows.Roomy) (hyear : now.HasPlainYear) {c : StoreCall} {e : StoreError}
    (hc : c.Passed db.rows.forest) (hs : store.serve c now db = .error e) : e.Expected := by
  have ht := h.holds
  have ho := h.outline
  cases c with
  | createLast n =>
    obtain ⟨hcheck, hn, hseats⟩ := hc
    have hlodged : Lodged db.rows.forest n.line := Forest.seats_iff.1 hseats
    exact (ht.createLast_overflows ho hr hroom hcheck hn hlodged (error_of_writing hs)).expected
  | update id patch =>
    obtain ⟨⟨l, hl⟩, hobject⟩ := hc
    obtain ⟨answered, heq⟩ := ht.update_accepted ho hr hp hl hobject now
    cases (error_of_writing hs).symm.trans heq
  | delete space id =>
    obtain ⟨l, hl, rfl⟩ := hc
    obtain ⟨answered, heq⟩ := ht.delete_accepted hr hl
    cases (error_of_writing hs).symm.trans heq
  | moveLast id parent | moveAt id parent sort =>
    obtain ⟨l, hl, hseats⟩ := hc
    exact ht.relocate_expected ho hr hroom hyear hl hseats (fun _ _ htarget => by cases htarget)
      (error_of_writing hs)
  | reorder id sort =>
    obtain ⟨l, hl⟩ := hc
    exact ht.reorder_expected ho hr hroom hyear hl (error_of_writing hs)
  | moveBeside id anchor side =>
    obtain ⟨hne, l, q, hl, hq, hspace, hseats⟩ := hc
    exact ht.moveBeside_expected ho hr hroom hyear hne hl hq hspace hseats (error_of_writing hs)
  | renumber group =>
    -- the table does not look at the space of the parent
    have hparent : ∀ p, group.parent = some p → ∃ l, db.rows.forest p = some l := by
      intro p hgroup
      obtain ⟨l, hl, -⟩ := hc p hgroup
      exact ⟨l, hl⟩
    exact (ht.renumber_overflows ho hr hroom hyear hparent (error_of_writing hs)).expected
  | get | create | list | nextSort => cases hc

theorem honours (h : db.Sound) (hp : db.Proper) (hr : db.rows.Readable) (hroom : db.rows.Roomy)
    (hyear : now.HasPlainYear) : Honours store now db db.rows.forest :=
  .of_serve (fun c hc => keptByReading c now db hc) (peaceful_read db) (finds_read h)
    (expected_of_passed h hp hr hroom hyear)

end Database

end Outline
