import Outline.Proofs.Agreement.Runs
import Outline.Proofs.Service.AllOrNothing
import Outline.Proofs.Stored

/-!
# What requests leave behind

A request makes its calls one after the other, so what every one of them keeps is kept by the
request. In memory that needs nothing of the calls. A row of the table can be read later if the
properties that the request brings can be written and read, and the times on it have years of four
digits; a change of the title writes the properties again that were read from the row.

Main results:

* `Asks.keeps` — what the calls of a program keep is kept by its runs;
* `Request.asks` — a request reads, and makes one call that writes;
* `Request.storable_of_write?` — it stores nothing but what it brings;
* `Shelf.Orderly.turns`, `Database.Orderly.turns` — what holds after any number of turns.
-/

namespace Outline

variable {α β σ : Type} {P : StoreCall → Prop}

/-- All calls that the program may make are of a kind, whatever comes of them. -/
inductive Asks (P : StoreCall → Prop) : Program α → Prop
  | done (a : α) : Asks P (.done a)
  | ask {c : StoreCall} {next : c.Outcome → Program α} : P c →
      (∀ outcome, Asks P (next outcome)) → Asks P (.ask c next)

namespace Asks

/-- Nothing is said of a program by a kind that takes in all calls. -/
theorem any (p : Program α) : Asks (fun _ => True) p := by
  induction p with
  | done a => exact .done a
  | ask c next ih => exact .ask trivial ih

/-- What each of the calls keeps. -/
theorem keeps {store : Store σ} {now : Timestamp} {I : σ → Prop}
    (hstep : ∀ c s, P c → I s → I (store.step c now s).2) {p : Program α} (hp : Asks P p) {s : σ}
    (hs : I s) : I (p.run (store.server now) s).2 := by
  induction hp generalizing s with
  | done a => exact hs
  | @ask c next hc _ ih => exact ih _ (hstep c s hc hs)

theorem bind {p : Program α} {k : α → Program β} (hp : Asks P p) (hk : ∀ a, Asks P (k a)) :
    Asks P (p.bind k) := by
  induction hp with
  | done a => exact hk a
  | ask hc _ ih => exact .ask hc ih

theorem map {p : Operation α} (g : α → β) (hp : Asks P p.run) : Asks P (g <$> p).run := by
  refine Asks.bind hp fun outcome => ?_
  cases outcome with
  | ok a | error e => exact .done _

/-- A new attempt makes the calls of the first. -/
theorem retrying {p : Operation α} (hp : Asks P p.run) (retries : Nat) :
    Asks P (Operation.retrying retries p).run := by
  induction retries with
  | zero => exact hp
  | succ retries ih =>
    refine Asks.bind hp fun outcome => ?_
    cases outcome with
    | ok a => exact .done _
    | error e =>
      show Asks P (if e.isConflict then _ else _)
      by_cases he : e.isConflict
      · rw [if_pos he]
        exact ih
      · rw [if_neg he]
        exact .done _

end Asks

namespace StoreCall

/-- What the call stores can be read back from its text. -/
structure Storable (c : StoreCall) : Prop where
  created : ∀ n, c.created? = some n →
              n.properties.Fits Json.maxDepth ∧ n.created.HasPlainYear ∧ n.updated.HasPlainYear
  updated : ∀ id patch, c.updates? = some (id, patch) →
              ∀ v, patch.properties = some v → v.Fits Json.maxDepth

/-- A call that neither creates nor updates stores no text. -/
theorem storable_of_none {c : StoreCall} (hcreated : c.created? = none)
    (hupdated : c.updates? = none) : c.Storable where
  created n hn := by
    rw [hcreated] at hn
    cases hn
  updated id patch hc := by
    rw [hupdated] at hc
    cases hc

/-- A call that reads stores nothing. -/
theorem storable_of_isRead {c : StoreCall} (hc : c.isRead = true) : c.Storable := by
  cases c with
  | get | list | nextSort => exact storable_of_none rfl rfl
  | _ => cases hc

end StoreCall

/-! ## The calls of the operations -/

/-- The call that a request makes when it writes. -/
def Request.write? (now : Timestamp) (fresh : Uuid) : Request → Option StoreCall
  | .create kind draft => some (.createLast (draft.made kind now fresh))
  | .delete _ space id => some (.delete space id)
  | .update _ id patch => some (.update id patch)
  | .move _ id parent none => some (.moveLast id (Uuid.given parent))
  | .move _ id parent (some sort) => some (.moveAt id (Uuid.given parent) sort)
  | .moveBlock id parent none => some (.moveLast id (Uuid.given (some parent)))
  | .moveBlock id parent (some sort) => some (.moveAt id (Uuid.given (some parent)) sort)
  | .reorder _ id sort => some (.reorder id sort)
  | .moveBeside _ id anchor side => some (.moveBeside id anchor side)
  | .renumber group => some (.renumber ⟨group.space, Uuid.given group.parent⟩)
  | .get _ _ | .children _ _ _ | .roots _ | .branch _ _ => none

section Asks

open Operation

variable (hread : ∀ {c : StoreCall}, c.isRead = true → P c)
include hread

/-- An operation that only reads makes calls of any kind that takes in the reading ones. -/
theorem Operation.ReadsOnly.asks {p : Operation α} (hp : ReadsOnly p) : Asks P p.run := by
  unfold ReadsOnly at hp
  generalize p.run = q at hp
  induction hp with
  | done outcome => exact .done outcome
  | ask hc _ ih => exact .ask (hread hc) ih

omit hread in
theorem Operation.asks_ask (operation : String) {c : StoreCall} (hc : P c) :
    Asks P (ask operation c).run :=
  .ask hc fun _ => .done _

/-- The reading calls before a write are as good as it. -/
theorem Operation.ReadsBefore.asks {p q : Operation α} (h : ReadsBefore q p) (hq : Asks P q.run) :
    Asks P p.run := by
  unfold ReadsBefore at h
  generalize p.run = r at h
  induction h with
  | done outcome => exact .done outcome
  | reached => exact hq
  | read hc _ ih => exact .ask (hread hc) ih

/-- A move makes one of two calls that write. -/
theorem asks_move (config : Config) (kind : Kind) {id : Uuid} {parent : Option Uuid}
    {sort : Option SortKey} (now : Timestamp) (fresh : Uuid)
    (hc : ∀ c, Request.write? now fresh (.move kind id parent sort) = some c → P c) :
    Asks P (move config kind id parent sort).run := by
  refine (readsBefore_move config kind id parent sort).asks hread ?_
  cases sort with
  | none | some sort => exact (asks_ask _ (hc _ rfl)).retrying _

/-- A request reads, and makes one call that writes. -/
theorem Request.asks (config : Config) {now : Timestamp} {fresh : Uuid} (request : Request)
    (hwrite : ∀ c, request.write? now fresh = some c → P c) :
    Asks P (request.operation config now fresh).run := by
  -- what comes before the write only reads
  cases request with
  | create kind draft =>
    exact ((readsBefore_create config kind draft now fresh).asks hread
      ((asks_ask _ (hwrite _ rfl)).retrying _)).map _
  | delete kind space id =>
    exact ((readsBefore_delete kind space id).asks hread (asks_ask _ (hwrite _ rfl))).map _
  | get kind id => exact ((readsOnly_get kind id).asks hread).map _
  | update kind id patch =>
    exact ((readsBefore_update kind id patch).asks hread (asks_ask _ (hwrite _ rfl))).map _
  | children kind id archived => exact ((readsOnly_children kind id archived).asks hread).map _
  | roots space => exact ((readsOnly_roots space).asks hread).map _
  | move kind id parent sort => exact (asks_move hread config kind now fresh hwrite).map _
  | moveBlock id parent sort =>
    refine ((readsBefore_moveBlock .reached).asks hread
      (asks_move hread config .block now fresh ?_)).map _
    cases sort with
    | none | some sort => exact hwrite
  | reorder kind id sort =>
    exact ((readsBefore_reorder config kind id sort).asks hread
      ((asks_ask _ (hwrite _ rfl)).retrying _)).map _
  | moveBeside kind id anchor side =>
    exact ((readsBefore_moveBeside config kind id anchor side).asks hread
      ((asks_ask _ (hwrite _ rfl)).retrying _)).map _
  | branch kind id => exact ((readsOnly_branch kind id).asks hread).map _
  | renumber group =>
    exact ((readsBefore_renumber group).asks hread (asks_ask _ (hwrite _ rfl))).map _

end Asks

/-- A request stores nothing but what it brings. -/
theorem Request.storable_of_write? {request : Request} {now : Timestamp} {fresh : Uuid}
    (hnow : now.HasPlainYear)
    (hfits : ∀ v, request.properties? = some v → v.Fits Json.maxDepth) {c : StoreCall}
    (hc : request.write? now fresh = some c) : c.Storable := by
  cases request with
  | create kind draft =>
    obtain rfl := Option.some.inj hc
    refine ⟨fun n hn => ?_, fun id patch hup => by cases hup⟩
    obtain rfl := Option.some.inj hn
    exact ⟨hfits _ rfl, hnow, hnow⟩
  | update kind id patch =>
    obtain rfl := Option.some.inj hc
    refine ⟨fun n hn => (by cases hn), fun id' patch' hup => ?_⟩
    cases hup
    exact hfits
  | get | children | roots | branch => cases hc
  | delete | reorder | moveBeside | renumber =>
    obtain rfl := Option.some.inj hc
    exact StoreCall.storable_of_none rfl rfl
  | move _ _ _ sort | moveBlock _ _ sort =>
    cases sort with
    | none | some sort =>
      obtain rfl := Option.some.inj hc
      exact StoreCall.storable_of_none rfl rfl

/-! ## In memory -/

/-- The state that turns lead to. -/
def afterTurns {σ : Type} (perform : Turn → σ → Ending × σ) (turns : List Turn) (s : σ) : σ :=
  turns.foldl (fun s t => (perform t s).2) s

/-- A turn on any store, with one of the two clocks beside it. On either store of a service it is
`Turn.onShelf` or `Turn.onTable`. -/
def Turn.on {σ : Type} (store : Store σ) (clock : Turn → Clock) (config : Config) (t : Turn)
    (s : σ) : Ending × σ :=
  Service.perform config (store.server (clock t).served) (clock t).drafted t.fresh t.request s

namespace Shelf

/-- A sound state whose nodes all pass their checks. -/
structure Orderly (s : Shelf) : Prop where
  sound  : s.Sound
  proper : s.Proper

theorem orderly_empty (gap : Gap) : (empty gap).Orderly :=
  ⟨sound_empty gap, proper_empty gap⟩

/-- The shelf stays in order under every call, whatever it brings. -/
theorem Orderly.step {s : Shelf} (h : s.Orderly) (c : StoreCall) (now : Timestamp) :
    (store.step c now s).2.Orderly :=
  Store.step_keeps h fun _ _ hs => ⟨h.sound.serve hs, proper_serve h.sound h.proper hs⟩

/-- So it does under a request, -/
theorem Orderly.turn {s : Shelf} (h : s.Orderly) (config : Config) (t : Turn) :
    (t.onShelf config s).2.Orderly :=
  Asks.keeps (fun c _ _ hs => hs.step c t.memory.served) (.any _) h

/-- and under any number of them. -/
theorem Orderly.turns {s : Shelf} (h : s.Orderly) (config : Config) (turns : List Turn) :
    (afterTurns (Turn.onShelf config) turns s).Orderly := by
  induction turns generalizing s with
  | nil => exact h
  | cons t rest ih => exact ih (h.turn config t)

end Shelf

/-! ## In the table -/

/-- A turn whose properties and times can be read back from their texts. -/
structure Turn.Storable (t : Turn) : Prop where
  fits    : ∀ v, t.request.properties? = some v → v.Fits Json.maxDepth
  drafted : t.table.drafted.HasPlainYear
  served  : t.table.served.HasPlainYear

/-- The row that is made of a node can be read if its properties and times can be written. -/
theorem Node.legible_line {n : Node} (hfits : n.properties.Fits Json.maxDepth)
    (hcreated : n.created.HasPlainYear) (hupdated : n.updated.HasPlainYear) :
    n.line.Legible :=
  Row.exists_toNode_iff.2 ⟨⟨_, hfits.ofText?_text⟩,
    ⟨_, Timestamp.ofText?_toOffsetText hcreated⟩, ⟨_, Timestamp.ofText?_toOffsetText hupdated⟩⟩

/-- An update writes properties that it brings, or those that were read. -/
theorem Node.fits_patch {n : Node} {text : String} {patch : Patch}
    (hread : Json.ofText? text = some n.properties)
    (hfits : ∀ v, patch.properties = some v → v.Fits Json.maxDepth) (now : Timestamp) :
    (n.patch patch now).properties.Fits Json.maxDepth := by
  show (patch.properties.getD n.properties).Fits Json.maxDepth
  -- properties that are left alone have come from a text, so they can go back to one
  cases hv : patch.properties with
  | none => exact Json.fits_of_ofText? hread
  | some v => exact hfits v hv

/-- A row stays legible when a patch brings properties that can be written. -/
theorem Node.legible_patchedLine {n : Node} {l : Line} {patch : Patch} {now : Timestamp}
    (hnode : l.row.toNode = .ok n) (hyear : now.HasPlainYear)
    (hfits : ∀ v, patch.properties = some v → v.Fits Json.maxDepth) :
    (patchedLine (n.patch patch now) l).Legible := by
  obtain ⟨-, -, -, -, -, hread, -, -, hcreated, -⟩ := Row.toNode_row_eq_ok_iff.1 hnode
  exact Row.exists_toNode_iff.2 ⟨⟨_, (fits_patch hread hfits now).ofText?_text⟩, ⟨_, hcreated⟩,
    ⟨now, Timestamp.ofText?_toOffsetText hyear⟩⟩

namespace Database

/-- A sound state whose rows can all be read and pass their checks. -/
structure Orderly (db : Database) : Prop where
  sound    : db.Sound
  proper   : db.Proper
  readable : db.rows.Readable

theorem orderly_empty (gap : Gap) : (empty gap).Orderly :=
  ⟨sound_empty gap, proper_empty gap, fun r hr => by cases hr⟩

/-- Only what a call creates or updates is new; all else was legible before. -/
theorem readable_serve {db db' : Database} (h : db.Sound) (hr : db.rows.Readable) {c : StoreCall}
    (hc : c.Storable) {now : Timestamp} (hyear : now.HasPlainYear) {answer : c.Answer}
    (hs : store.serve c now db = .ok (answer, db')) : db'.rows.Readable := by
  refine (h.serve hs).holds.readable_iff.2 ?_
  refine serve_all h hs (Record.keeps_legible hyear) (fun n hn _ => ?_)
    (fun id patch n l hup _ hnode _ => ?_) (h.holds.readable_iff.1 hr)
  · obtain ⟨hfits, hcreated, hupdated⟩ := hc.created n hn
    exact Node.legible_line hfits hcreated hupdated
  · exact Node.legible_patchedLine hnode hyear (hc.updated id patch hup)

theorem Orderly.step {db : Database} (h : db.Orderly) {c : StoreCall} (hc : c.Storable)
    {now : Timestamp} (hyear : now.HasPlainYear) : (store.step c now db).2.Orderly :=
  Store.step_keeps h fun _ _ hs => ⟨h.sound.serve hs, proper_serve h.sound h.proper hs,
    readable_serve h.sound h.readable hc hyear hs⟩

theorem Orderly.turn {db : Database} (h : db.Orderly) (config : Config) {t : Turn}
    (ht : t.Storable) : (t.onTable config db).2.Orderly :=
  Asks.keeps (fun _ _ hc hs => hs.step hc ht.served)
    (t.request.asks StoreCall.storable_of_isRead config fun _ hc =>
      Request.storable_of_write? ht.drafted ht.fits hc) h

theorem Orderly.turns {db : Database} (h : db.Orderly) (config : Config) {turns : List Turn}
    (hturns : ∀ t ∈ turns, t.Storable) : (afterTurns (Turn.onTable config) turns db).Orderly := by
  induction turns generalizing db with
  | nil => exact h
  | cons t rest ih =>
    exact ih (h.turn config (hturns t (by simp))) fun u hu => hturns u (by simp [hu])

end Database

end Outline
