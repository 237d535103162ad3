import Outline.Proofs.Agreement.Requests
import Outline.Proofs.Agreement.Stores
import Outline.Proofs.Invariants

/-!
# A service over either store

A service takes turns: each is a request, the identifier at hand for a new node, and what the
clocks show. The same turns are taken on a service over an empty store in memory and on one over an
empty table. Then at every turn both end alike, and after it every group is listed alike.

The turns are assumed to be as the stores can take them. No new node is given an identifier that is
stored at that moment. The table has fewer than `2 ^ 31` rows, the properties can be read back from
their text, and the clock beside the table shows a year of four digits, since other years are
written in a way that is not read.

Main results:

* `Turn.agree` — twins take a turn alike and are twins afterwards;
* `interchangeable_run` — any number of turns from empty stores.
-/

namespace Outline

/-- What the clocks show during a request: to the service that drafts a new node, and to the store
that serves the calls. -/
structure Clock where
  drafted : Timestamp
  served : Timestamp

/-- A request, the identifier that a new node gets if it is given none, and two clocks, beside the
store in memory and beside the table. -/
structure Turn where
  request : Request
  fresh : Uuid
  memory : Clock
  table : Clock

/-- The end of a request: an answer or an error, or none when it never ends. -/
abbrev Ending : Type :=
  Option (Except ServiceError Answer)

namespace Turn

variable (config : Config) (t : Turn)

def onShelf (s : Shelf) : Ending × Shelf :=
  Service.perform config (Shelf.store.server t.memory.served) t.memory.drafted t.fresh t.request s

def onTable (db : Database) : Ending × Database :=
  Service.perform config (Database.store.server t.table.served) t.table.drafted t.fresh t.request
    db

/-- A turn that the table can take as it stands. -/
structure Admitted (db : Database) : Prop where
  few     : db.rows.length < 2 ^ 31
  new     : ∀ id, t.request.newId? t.fresh = some id → db.rows.forest id = none
  plain   : ∀ v, t.request.properties? = some v → v.Plain Json.maxDepth
  drafted : t.table.drafted.HasPlainYear
  served  : t.table.served.HasPlainYear

end Turn

/-- Each turn is admitted in the state that those before it lead to. -/
def AllAdmitted (config : Config) : List Turn → Database → Prop
  | [], _ => True
  | t :: rest, db => t.Admitted db ∧ AllAdmitted config rest (t.onTable config db).2

/-- How the turns end one after the other, each with the state after it. -/
def trace {σ : Type} (perform : Turn → σ → Ending × σ) : List Turn → σ → List (Ending × σ)
  | [], _ => []
  | t :: rest, s => perform t s :: trace perform rest (perform t s).2

/-! ## Agreement -/

/-- Answers that differ in nothing but times, or the same error. -/
inductive SameEnding : Ending → Ending → Prop
  | answered {a b : Answer} : b.undated = a.undated → SameEnding (some (.ok a)) (some (.ok b))
  | failed {e : ServiceError} : SameEnding (some (.error e)) (some (.error e))

/-- Each group is listed by both with the same nodes in the same order, or by neither for the same
reason. A group that has members is listed. -/
structure ListAlike (s : Shelf) (db : Database) : Prop where
  lists  : ∀ group, (s.list group).map (·.map Node.undated) =
             (db.rows.list group).map (·.map Node.undated)
  listed : ∀ {id n}, s.get id = .ok n → ∃ ns, s.list n.group = .ok ns ∧ n ∈ ns

theorem Twins.listAlike {s : Shelf} {db : Database} (h : Twins s db) : ListAlike s db where
  lists group := by
    rcases h.list group with ⟨p, hs, hdb⟩ | ⟨ns, ms, hs, hdb, halike⟩
    · rw [hs, hdb]
    · rw [hs, hdb]
      exact congrArg Except.ok (Eq.symm halike)
  listed {id n} hn := by
    have ha := h.shelf.agrees
    have hnode := (Shelf.get_eq_ok_iff ha).1 hn
    have hlodged := h.shelf.outline.rooted.lodged (Shelf.forest_of_node ha hnode)
    obtain ⟨parent, hget, -⟩ := Shelf.getParent_of_lodged ha hlodged
    refine ⟨_, Shelf.list_eq hget, ?_⟩
    rw [Space.mem_children (ha.space _), (ha.space _).own_id hnode]
    exact ⟨hnode, rfl⟩

theorem Shelf.get_of_served {s : Shelf} {now : Timestamp} {id : Uuid} {n : Node}
    (hn : store.serve (.get id) now s = .ok (n, s)) : s.get id = .ok n := by
  obtain ⟨m, hm, heq⟩ := map_eq_ok_iff.1 (show (s.get id).map (·, s) = .ok (n, s) from hn)
  obtain rfl : m = n := congrArg Prod.fst heq
  exact hm

theorem Shelf.forest_of_served {s : Shelf} (h : s.Agrees) {now : Timestamp} {id : Uuid} {n : Node}
    (hn : store.serve (.get id) now s = .ok (n, s)) : s.forest id = some n.record :=
  (forest_eq_some_iff h).2 ⟨n, (get_eq_ok_iff h).1 (get_of_served hn), rfl⟩

theorem Shelf.forest_of_got {s : Shelf} (h : s.Agrees) {now : Timestamp} {near : Uuid → Prop}
    {id : Uuid} {n : Node} (hn : store.Got now s near id n) : s.forest id = some n.record :=
  forest_of_served h hn.2

/-- What a service asks, it asks about parents of the right space, so twins are linked. -/
theorem Twins.linked {s : Shelf} {db : Database} (h : Twins s db) {now now' : Timestamp}
    (hroom : db.rows.Roomy) (hyear : now'.HasPlainYear) :
    Linked Shelf.store Database.store now now' Twins Node.Alike (fun _ => True) (fun _ => True) s
      db where
  related := h
  place hnm := hnm.place
  around _ := ⟨trivial, trivial, fun _ _ => trivial⟩
  gets {id} _ := by
    show Matched _ _ ((s.get id).map (·, s)) ((db.rows.fetch id).map (·, db))
    rcases h.stored_or_not id with hid | ⟨n, hn⟩
    · obtain ⟨hget, hfetch⟩ := h.fetch_none hid
      rw [hget, hfetch]
      exact .refused
    · obtain ⟨hget, m, hfetch, hnm⟩ := h.fetch_some hn
      rw [hget, hfetch]
      exact .answered hnm ⟨rfl, rfl⟩
  lists {group} _ _ := by
    show Matched _ _ ((s.list group).map (·, s)) ((db.rows.list group).map (·, db))
    rcases h.list group with ⟨p, hs, hdb⟩ | ⟨ns, ms, hs, hdb, halike⟩
    · rw [hs, hdb]
      exact .refused
    · rw [hs, hdb]
      exact .answered (halike.forall₂.imp fun _ _ hnm => ⟨hnm, trivial⟩) ⟨rfl, rfl⟩
  writes {c} hc := by
    have ha := h.shelf.agrees
    -- a parent that was got for a node is the one that is stored
    have hstays : ∀ {id : Uuid} {n : Node} {parent : Option Uuid},
        Shelf.store.Got now s (fun _ => True) id n →
        (∀ p, parent = some p → ∃ q, Shelf.store.Got now s (fun _ => True) p q ∧
          q.space = n.space) →
        ∀ (n' : Node) p q, s.forest id = some n'.record → parent = some p → s.forest p = some q →
          q.space = n'.space := by
      intro id n parent hn hparent n' p q hn' hp hq
      obtain ⟨m, hm, hspace⟩ := hparent p hp
      rw [Shelf.forest_of_got ha hm] at hq
      rw [Shelf.forest_of_got ha hn] at hn'
      rw [← Option.some.inj hq, ← Node.record_inj.1 (Option.some.inj hn')]
      exact hspace
    cases hc with
    | delete hn => exact h.delete _ _
    | @moveLast id parent n hn hparent =>
      exact h.relocate hroom hyear (fun _ => .ok parent) (fun _ _ => rfl) (hstays hn hparent) .last
    | @moveAt id parent sort n hn hparent =>
      exact h.relocate hroom hyear (fun _ => .ok parent) (fun _ _ => rfl) (hstays hn hparent)
        (.at sort)
    | reorder hn => exact h.reorder hroom hyear _ _
    | moveBeside hn ha' hspace => exact h.moveBeside hroom hyear _ _ _
    | @renumber group hspace hparent =>
      refine (h.renumber hroom hyear fun p q hp hq => ?_).mono (fun _ _ hst => hst)
        fun ns ms halike => Node.ListedAlike.forall₂ halike
      obtain ⟨m, hm, hms⟩ := hparent p hp
      rw [Shelf.forest_of_got ha hm] at hq
      rw [← Option.some.inj hq]
      exact hms

/-- Programs that agree end as one request does. -/
theorem Agree.sameEnding {σ τ : Type} {server : Server σ} {server' : Server τ} {R : σ → τ → Prop}
    {p q : Operation Answer} {s : σ} {t : τ}
    (hpq : Agree server server' R (fun a b => b.undated = a.undated) p s q t) (config : Config)
    (name : String) :
    SameEnding (Service.deadline config name (Operation.exec p server s).1)
        (Service.deadline config name (Operation.exec q server' t).1) ∧
      R (Operation.exec p server s).2 (Operation.exec q server' t).2 := by
  -- both end, so no deadline is met
  rcases hpq.ends with ⟨a, s', b, t', hp, hq, h, hab⟩ | ⟨e, s', t', hp, hq, h⟩
  · rw [hp, hq]
    exact ⟨.answered hab, h⟩
  · rw [hp, hq]
    exact ⟨.failed, h⟩

/-- Twins take an admitted turn alike, and are twins afterwards. -/
theorem Turn.agree {s : Shelf} {db : Database} (h : Twins s db) (config : Config) {t : Turn}
    (ht : t.Admitted db) :
    SameEnding (t.onShelf config s).1 (t.onTable config db).1 ∧
      Twins (t.onShelf config s).2 (t.onTable config db).2 := by
  have hproperties : ∀ v, t.request.properties? = some v → v.IsText :=
    fun v hv => Json.ofText?_text (ht.plain v hv)
  have hagree : Agree (Shelf.store.server t.memory.served) (Database.store.server t.table.served)
      Twins (fun a b => b.undated = a.undated)
      (t.request.operation config t.memory.drafted t.fresh) s
      (t.request.operation config t.table.drafted t.fresh) db := by
    refine (h.linked ht.few ht.served).request config id t.request (fun _ _ => trivial)
      (fun _ _ => trivial) (fun kind draft hrequest _ hparent => ?_)
      fun kind id patch hrequest => ?_
    -- a new node and a patch bring something along, and what they bring is admitted
    · have hnew : s.forest ((Uuid.given draft.id).getD t.fresh) = none :=
        h.mirrors.none_iff.2 (ht.new _ (by rw [hrequest]; rfl))
      have hdrafts : (draft.made kind t.memory.drafted t.fresh).Alike
          (draft.made kind t.table.drafted t.fresh) := rfl
      refine (h.createLast hdrafts hnew ht.few fun _ p q hp hq => ?_).mono (fun s' db' htwins => ?_)
        fun _ _ hnm => hnm
      · obtain ⟨m, hm, hspace⟩ := hparent p hp
        rw [Shelf.forest_of_got h.shelf.agrees hm] at hq
        rw [← Option.some.inj hq]
        exact hspace
      · exact htwins ⟨hproperties _ (by rw [hrequest]; rfl), ht.drafted, ht.drafted⟩ ht.served
    · refine (h.update id patch).mono (fun s' db' htwins => ?_) fun _ _ hnm => hnm
      exact htwins (fun v hv => hproperties v (by rw [hrequest]; exact hv)) ht.served
  exact hagree.sameEnding config t.request.name

theorem Twins.trace {s : Shelf} {db : Database} (h : Twins s db) (config : Config)
    {turns : List Turn} (hturns : AllAdmitted config turns db) :
    List.Forall₂ (fun x y => SameEnding x.1 y.1 ∧ ListAlike x.2 y.2)
      (trace (Turn.onShelf config) turns s) (trace (Turn.onTable config) turns db) := by
  -- twins are what the turns before leave
  induction turns generalizing s db with
  | nil => exact .nil
  | cons t rest ih =>
    obtain ⟨ht, hrest⟩ := hturns
    obtain ⟨hend, h'⟩ := t.agree h config ht
    exact .cons ⟨hend, h'.listAlike⟩ (ih h' hrest)

/-- The two stores are interchangeable behind the service. From empty stores, at every turn both
services answer alike, the times apart, or fail with one error, and after every turn each group is
listed alike. -/
theorem interchangeable_run (gap : Gap) (config : Config) (turns : List Turn)
    (hturns : AllAdmitted config turns (.empty gap)) :
    List.Forall₂ (fun x y => SameEnding x.1 y.1 ∧ ListAlike x.2 y.2)
      (trace (Turn.onShelf config) turns (.empty gap))
      (trace (Turn.onTable config) turns (.empty gap)) :=
  (Twins.empty gap).trace config hturns

namespace Sample

/-- A turn taken at one time everywhere. -/
def turn (request : Request) (fresh : UInt8) : Turn :=
  ⟨request, uuid fresh, ⟨time, time⟩, ⟨time, time⟩⟩

/-- Three pages, each below the one before, of which the last goes up beside its parent. -/
def turns : List Turn :=
  [turn (.create .page (.page (uuid 1))) 2,
    turn (.create .page { Draft.page (uuid 1) with parent := some (uuid 2) }) 3,
    turn (.create .page { Draft.page (uuid 1) with parent := some (uuid 3) }) 4,
    turn (.moveBeside .page (uuid 4) (uuid 3) .before) 5]

/-- A page without properties is created if nothing has its identifier. -/
theorem admitted_create {draft : Draft} (hproperties : draft.properties = Json.emptyObject)
    {fresh : UInt8} {db : Database} (hfew : db.rows.length < 2 ^ 31)
    (hnew : (db.rows.forest ((Uuid.given draft.id).getD (uuid fresh))).isNone) :
    (turn (.create .page draft) fresh).Admitted db := by
  have hyear : time.HasPlainYear := by decide
  refine ⟨hfew, fun id hid => ?_, fun v hv => ?_, hyear, hyear⟩
  · rw [← Option.some.inj hid]
    exact Option.isNone_iff_eq_none.1 hnew
  · rw [← Option.some.inj hv, hproperties]
    exact .obj List.Pairwise.nil (by simp)

end Sample

/-- The turns are admitted, so both stores take them alike. -/
theorem interchangeable_run_turns :
    AllAdmitted .standard Sample.turns (.empty .standard) ∧
      List.Forall₂ (fun x y => SameEnding x.1 y.1 ∧ ListAlike x.2 y.2)
        (trace (Turn.onShelf .standard) Sample.turns (.empty .standard))
        (trace (Turn.onTable .standard) Sample.turns (.empty .standard)) := by
  have hadmitted : AllAdmitted .standard Sample.turns (.empty .standard) := by
    refine ⟨Sample.admitted_create rfl (by decide) (by decide +kernel), ?_⟩
    refine ⟨Sample.admitted_create rfl (by decide +kernel) (by decide +kernel), ?_⟩
    refine ⟨Sample.admitted_create rfl (by decide +kernel) (by decide +kernel), ?_⟩
    refine ⟨⟨by decide +kernel, ?_, ?_, by decide, by decide⟩, trivial⟩
    · intro id hid
      cases hid
    · intro v hv
      cases hv
  exact ⟨hadmitted, interchangeable_run .standard .standard Sample.turns hadmitted⟩

end Outline
