import Outline.Proofs.Alone.Runs
import Outline.Proofs.Table.Twin

/-!
# Creating a node that is stored already

A service that is asked for a new node with the identifier of a stored one, its twin, is refused by
either store, and nothing changes. The store in memory looks for the identifier first, so the caller
is told that the node exists, after one attempt.

The table finds the identifier out last. It answers in the same way when the twin stands in another
group, or has a key that is not given out. When the twin has such a key the table reports a key
that another writer has taken. The service makes the call again, as often as it may, and tells the
caller of a conflict, although there is no other writer. And when the keys of the group run out,
that is what the caller is told.

Nothing is assumed of the calls by which the state came about, nor of the times.

Main results:

* `exec_retrying_alone` — how often a call is made that is always refused;
* `refused_run` — what becomes of the request, in both stores and after any run.
-/

namespace Outline

variable {α σ : Type}

/-! ## A request that is refused -/

namespace Store

/-- The node that is to be a parent, if one is given, as the store shows it. -/
def parent (store : Store σ) (now : Timestamp) (s : σ) :
    Option Uuid → Except StoreError (Option Node)
  | none => .ok none
  | some id => (store.step (.get id) now s).1.map some

end Store

/-- A draft passes the checks that are made before the store is asked for the new node, as well as
the check of the record itself. -/
structure Draft.Passes (store : Store σ) (clock now : Timestamp) (fresh : Uuid) (s : σ)
    (kind : Kind) (draft : Draft) : Prop where
  expected : draft.kind.getD kind = kind
  record   : (draft.made kind now fresh).check = .ok ()
  seated   : ∃ parent, store.parent clock s (Uuid.given draft.parent) = .ok parent ∧
               checkParent kind draft.space parent = .ok ()

/-- The request to create a node ends with `error`. It looks for the parent, asks the store for the
new node `attempts` times, and leaves the state as it was. -/
def Refuses (store : Store σ) (config : Config) (clock : Nat → Timestamp) (now : Timestamp)
    (fresh : Uuid) (kind : Kind) (draft : Draft) (s : σ) (error : ServiceError) (attempts : Nat) :
    Prop :=
  let (ending, w) := Service.perform config (Watched.server store clock fun _ => .none) now fresh
    (.create kind draft) (.start s)
  ending = some (.error error) ∧ w.state = s ∧
    w.visits.map (·.call) = (Uuid.given draft.parent).toList.map .get ++
      List.replicate attempts (.createLast (draft.made kind now fresh))

/-- How often a call is made that is refused with `e` at each attempt. -/
def Config.attempts (config : Config) : StoreError → Nat
  | .duplicateSort _ _ => config.conflictRetries + 1
  | _ => 1

theorem Config.attempts_eq (config : Config) (operation : String) (e : StoreError) :
    (if (ServiceError.ofStore operation e).isConflict then config.conflictRetries + 1 else 1) =
      config.attempts e := by
  cases e with
  | violation v =>
    rw [ServiceError.ofStore, ServiceError.isConflict_ofViolation]
    rfl
  | _ => rfl

namespace Operation

variable {store : Store σ} (clock : Nat → Timestamp) {w : Watched σ} (operation : String)

/-- A refused call is written down and leaves the state as it was. -/
theorem exec_ask_alone {c : StoreCall} {e : StoreError}
    (he : ∀ now, (store.step c now w.state).1 = .error e) :
    ∃ w', exec (ask operation c) (Watched.server store clock fun _ => .none) w =
        (some (.error (.ofStore operation e)), w') ∧ w'.state = w.state ∧
      w'.visits.map (·.call) = w.visits.map (·.call) ++ [c] := by
  refine ⟨w.after (w.visit store clock (fun _ => .none) c), ?_, store.step_of_error (he _), ?_⟩
  · refine (Watched.run_ask_alone _ w).trans ?_
    rw [he]
    rfl
  · rw [Watched.after, List.map_append]
    rfl

/-- A call that is refused is made once, and once more for each time that it may be tried again if
the refusal counts as a conflict. -/
theorem exec_retrying_alone {c : StoreCall} {e : StoreError}
    (he : ∀ now, (store.step c now w.state).1 = .error e) (retries : Nat) :
    ∃ w', exec (retrying retries (ask operation c)) (Watched.server store clock fun _ => .none) w =
        (some (.error (.ofStore operation e)), w') ∧ w'.state = w.state ∧
      w'.visits.map (·.call) = w.visits.map (·.call) ++
        List.replicate (if (ServiceError.ofStore operation e).isConflict then retries + 1 else 1)
          c := by
  induction retries generalizing w with
  | zero =>
    obtain ⟨w', hask, hstate, hvisits⟩ := exec_ask_alone clock operation he
    exact ⟨w', hask, hstate, by rw [hvisits]; split <;> rfl⟩
  | succ retries ih =>
    obtain ⟨w', hask, hstate, hvisits⟩ := exec_ask_alone clock operation he
    -- the first attempt changes nothing, so the others meet the state that it has met
    have hrun : exec (retrying (retries + 1) (ask operation c))
        (Watched.server store clock fun _ => .none) w =
        if (ServiceError.ofStore operation e).isConflict then
          exec (retrying retries (ask operation c)) (Watched.server store clock fun _ => .none) w'
        else (some (.error (.ofStore operation e)), w') := by
      refine (Program.run_bind _ (ask operation c).run _ w).trans ?_
      have hasked : (ask operation c).run.run (Watched.server store clock fun _ => .none) w = _ :=
        hask
      rw [hasked]
      dsimp only
      split <;> rfl
    rw [hrun]
    by_cases hconflict : (ServiceError.ofStore operation e).isConflict
    · obtain ⟨w'', hretry, hstate', hvisits'⟩ := ih (w := w') (hstate.symm ▸ he)
      refine ⟨w'', by rw [if_pos hconflict, hretry], hstate'.trans hstate, ?_⟩
      rw [hvisits', hvisits, if_pos hconflict, if_pos hconflict, List.append_assoc,
        List.replicate_succ (n := retries + 1), List.singleton_append]
    · exact ⟨w', by rw [if_neg hconflict], hstate, by rw [hvisits, if_neg hconflict]; rfl⟩

/-- The parent is looked up and nothing changes. -/
theorem exec_fetchParent_alone (hkept : store.KeptByReading) {parent : Option Uuid}
    {found : Option Node}
    (hfound : store.parent (clock w.visits.length) w.state parent = .ok found) :
    ∃ w', exec (fetchParent operation parent) (Watched.server store clock fun _ => .none) w =
        (some (.ok found), w') ∧ w'.state = w.state ∧
      w'.visits.map (·.call) = w.visits.map (·.call) ++ parent.toList.map .get := by
  cases parent with
  | none =>
    cases hfound
    exact ⟨w, rfl, rfl, (List.append_nil _).symm⟩
  | some id =>
    obtain ⟨n, hn, rfl⟩ := map_eq_ok_iff.1 hfound
    refine ⟨w.after (w.visit store clock (fun _ => .none) (.get id)), ?_, hkept _ _ _ rfl, ?_⟩
    · refine (exec_bind _ _).trans ?_
      rw [show exec (fetch operation id) (Watched.server store clock fun _ => .none) w =
        (some (.ok n), w.after (w.visit store clock (fun _ => .none) (.get id))) from
          (Watched.run_ask_alone _ w).trans (by rw [hn]; rfl)]
      rfl
    · rw [Watched.after, List.map_append]
      rfl

/-- Once all checks are passed it is up to the store to refuse the new node. -/
theorem refuses_of_step (hkept : store.KeptByReading) {config : Config} {now : Timestamp}
    {fresh : Uuid} {s : σ} {kind : Kind} {draft : Draft}
    (hpasses : draft.Passes store (clock 0) now fresh s kind) {e : StoreError}
    (he : ∀ t, (store.step (.createLast (draft.made kind now fresh)) t s).1 = .error e) :
    Refuses store config clock now fresh kind draft s (.ofStore s!"create_{kind}" e)
      (config.attempts e) := by
  obtain ⟨parent, hparent, hsuits⟩ := hpasses.seated
  obtain ⟨-, hspace, hobject, -⟩ := Node.check_eq_ok_iff.1 hpasses.record
  have hspace : draft.space.isNil = false := decide_eq_false hspace
  have hobject : draft.properties.isObject = true := hobject
  obtain ⟨w₁, hfetch, hstate₁, hvisits₁⟩ := exec_fetchParent_alone clock s!"create_{kind}" hkept
    (w := .start s) hparent
  obtain ⟨w₂, hretry, hstate₂, hvisits₂⟩ := exec_retrying_alone clock s!"create_{kind}"
    (w := w₁) (fun t => by rw [hstate₁]; exact he t) config.conflictRetries
  -- the guards let the draft through, so the parent is looked up and the store is asked
  have hexec : exec (create config kind draft now fresh)
      (Watched.server store clock fun _ => .none) (.start s) =
      (some (.error (.ofStore s!"create_{kind}" e)), w₂) := by
    unfold create requireSpace
    simp only [hspace, hobject, hpasses.expected, ne_eq, not_true_eq_false, Bool.false_eq_true,
      Bool.true_eq_false, if_false]
    refine (exec_bind _ _).trans ((exec_bind _ _).trans ?_)
    rw [hfetch]
    refine (exec_bind _ _).trans ?_
    rw [hsuits]
    exact hretry
  have hperform : exec (Request.operation config now fresh (.create kind draft))
      (Watched.server store clock fun _ => .none) (.start s) =
      (some (.error (.ofStore s!"create_{kind}" e)), w₂) := by
    refine (exec_bind (create config kind draft now fresh) fun n => pure (Answer.node n)).trans ?_
    rw [hexec]
  unfold Refuses Service.perform
  rw [show (Request.operation config now fresh (.create kind draft)).run.run
    (Watched.server store clock fun _ => .none) (.start s) = _ from hperform]
  refine ⟨rfl, hstate₂.trans hstate₁, ?_⟩
  rw [hvisits₂, hvisits₁, config.attempts_eq]
  rfl

end Operation

/-! ## The two stores -/

/-- A stored identifier is looked for before anything else. -/
theorem Shelf.step_of_stored {s : Shelf} (h : s.Agrees) {n : Node} (hcheck : n.check = .ok ())
    (hn : s.forest n.id ≠ none) (now : Timestamp) :
    (store.step (.createLast n) now s).1 = .error (.invalidRecord (.alreadyExists n.id)) := by
  have hstored : s.locator.contains n.id = true := by
    rw [Std.ExtTreeMap.contains_eq_isSome_getElem?, Option.isSome_iff_ne_none]
    exact fun hnone => hn ((locator_eq_none_iff h).1 hnone)
  have hinsert : s.insert n .last now = .error (.invalidRecord (.alreadyExists n.id)) := by
    unfold insert
    rw [hcheck, mapError_ok, bind_ok, if_pos hstored]
    rfl
  unfold Store.step
  rw [show store.serve (.createLast n) now s = s.insert n .last now from rfl, hinsert]

namespace Database

theorem parent_eq (db : Database) (now : Timestamp) (parent : Option Uuid) :
    store.parent now db parent = db.rows.fetchParent parent := by
  cases parent with
  | none => rfl
  | some id =>
    have hserve : store.serve (.get id) now db = db.reading (db.rows.fetch id) := rfl
    rw [Store.parent, Table.fetchParent, Store.step, hserve, reading]
    cases db.rows.fetch id <;> rfl

/-- A new node that suits its parent is refused as one that has a twin. -/
theorem step_of_stored {db : Database} (h : db.Sound) {n : Node} {twin : Line}
    (hcheck : n.check = .ok ()) (htwin : db.rows.forest n.id = some twin) {parent : Option Node}
    (hparent : db.rows.fetchParent n.parent = .ok parent)
    (hsuits : checkParent n.kind n.space parent = .ok ()) :
    ∃ e, db.rows.TwinAnswer db.gap n.group twin e ∧
      ∀ now, (store.step (.createLast n) now db).1 = .error e := by
  have hid : twin.id = n.id := (h.holds.line htwin).1
  have hnew : db.rows.checkNew n = .ok () :=
    (Table.Holds.checkNew_eq hcheck).trans (checkFetched_eq_ok_iff.2 ⟨parent, hparent, hsuits⟩)
  obtain ⟨e, he, hcreate⟩ :=
    h.holds.createLast_twin h.outline.keys hid.symm (hid ▸ htwin) hnew db.gap
  refine ⟨e, he, fun now => ?_⟩
  have hserve : store.serve (.createLast n) now db =
    db.writing (db.rows.createLast db.gap n now) := rfl
  rw [Store.step, hserve, hcreate, writing]
  rfl

end Database

/-- A request for a new node whose identifier is stored, and that passes every other check, is
refused in every state that calls lead to. The store in memory says that the node exists; the table
says so unless the twin or the end of the keys is in the way. -/
theorem reusedId_refused_run (gap : Gap) (config : Config) (calls : List (StoreCall × Timestamp))
    (clock : Nat → Timestamp) (now : Timestamp) (fresh : Uuid) (kind : Kind) (draft : Draft)
    {id : Uuid} (hid : Uuid.given draft.id = some id) :
    (let s := Shelf.store.run calls (.empty gap);
      s.forest id ≠ none → draft.Passes Shelf.store (clock 0) now fresh s kind →
        Refuses Shelf.store config clock now fresh kind draft s
          (.invalidArgument s!"create_{kind}" (.record (.alreadyExists id))) 1) ∧
    (let db := Database.store.run calls (.empty gap);
      ∀ twin, db.rows.forest id = some twin →
        draft.Passes Database.store (clock 0) now fresh db kind →
          ∃ e, db.rows.TwinAnswer db.gap ⟨draft.space, Uuid.given draft.parent⟩ twin e ∧
            Refuses Database.store config clock now fresh kind draft db
              (.ofStore s!"create_{kind}" e) (config.attempts e)) := by
  have hmade : (draft.made kind now fresh).id = id := by
    rw [Draft.made, Draft.toNode, hid, Option.getD_some]
  constructor
  · intro s hstored hpasses
    have hs : s.Sound := Shelf.sound_run gap calls
    have hstep : ∀ t, (Shelf.store.step (.createLast (draft.made kind now fresh)) t s).1 =
        .error (.invalidRecord (.alreadyExists id)) := by
      intro t
      rw [Shelf.step_of_stored hs.agrees hpasses.record (by rwa [hmade]), hmade]
    exact Operation.refuses_of_step clock Shelf.keptByReading hpasses hstep
  · intro db twin htwin hpasses
    have hdb : db.Sound := Database.sound_run gap calls
    obtain ⟨parent, hparent, hsuits⟩ := hpasses.seated
    rw [Database.parent_eq] at hparent
    -- what the table answers depends on where the stored twin stands
    obtain ⟨e, he, hstep⟩ :=
      Database.step_of_stored hdb hpasses.record (by rwa [hmade]) hparent hsuits
    exact ⟨e, he, Operation.refuses_of_step clock Database.keptByReading hpasses hstep⟩

namespace Sample

/-- The first of the stored pages once more. -/
def again : Draft :=
  { Draft.page (uuid 1) with id := some (uuid 2) }

end Sample

/-- The page is the only one in its group and has the key that an empty group gives out. -/
theorem reusedId_refused_run_again :
    Refuses Shelf.store .standard (fun _ => Sample.time) Sample.time (Sample.uuid 9) .page
        Sample.again (Shelf.store.run Sample.calls (.empty .standard))
        (.invalidArgument "create_page" (.record (.alreadyExists (Sample.uuid 2)))) 1 ∧
      Refuses Database.store .standard (fun _ => Sample.time) Sample.time (Sample.uuid 9) .page
        Sample.again (Database.store.run Sample.calls (.empty .standard))
        (.conflict ⟨Sample.uuid 1, none⟩ Gap.standard.size) 2 := by
  obtain ⟨hshelf, htable⟩ := reusedId_refused_run .standard .standard Sample.calls
    (fun _ => Sample.time) Sample.time (Sample.uuid 9) .page Sample.again
    (show Uuid.given Sample.again.id = some (Sample.uuid 2) by decide)
  refine ⟨hshelf ?_ ⟨rfl, by decide, none, rfl, rfl⟩, ?_⟩
  · exact Option.isSome_iff_ne_none.1 (by decide +kernel)
  · obtain ⟨twin, htwin, hstands⟩ : ∃ twin,
        (Database.store.run Sample.calls (.empty .standard)).rows.forest (Sample.uuid 2) =
          some twin ∧ (twin.id, twin.group, twin.sort) =
            (Sample.uuid 2, ⟨Sample.uuid 1, none⟩, Gap.standard.size) :=
      Option.map_eq_some_iff.1 (by decide +kernel)
    simp only [Prod.mk.injEq] at hstands
    obtain ⟨hid, hgroup, hsort⟩ := hstands
    obtain ⟨e, he, hrefuses⟩ := htable twin htwin ⟨rfl, by decide, none, rfl, rfl⟩
    -- an empty group gives out the gap, and the page is left out of its own group
    have hplaceLast : (Database.store.run Sample.calls (.empty .standard)).gap.placeLast
        ((Database.store.run Sample.calls (.empty .standard)).rows.members ⟨Sample.uuid 1, none⟩)
        twin.id = .ok (.key Gap.standard.size) := by
      rw [hid]
      decide +kernel
    obtain rfl := he.eq_of_key hplaceLast
    rw [if_pos ⟨hgroup, hsort⟩, hsort] at hrefuses
    exact hrefuses

end Outline
