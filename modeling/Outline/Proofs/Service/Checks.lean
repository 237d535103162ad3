import Outline.Proofs.Alone.History

/-!
# When a request comes to its write

A request that writes looks at its arguments, looks up the nodes that they name and checks the
rules, and it makes its write when nothing has been refused on the way. Here the checks of each
request are put down as what its arguments and the nodes found have to be, apart from the program
that makes them. The program makes its write exactly when they are passed.

Nothing is assumed about who answers the calls. A node is what the server answers to the look-up at
the time, and a look-up may even change the state in which the next one is answered.

Main results:

* `Request.Passes` — the checks of each request;
* `Operation.reaches_fetch`, `Operation.reaches_requireId` and the like — what each step of a
  program asks for before it goes on;
* `Request.reaches_iff` — a request comes to its write exactly when it passes its checks.
-/

namespace Outline

variable {α β σ : Type}

/-! ## The first call that writes -/

namespace Program

theorem bind_done (p : Program α) : p.bind .done = p := by
  induction p with
  | done a => rfl
  | ask c next ih => exact congrArg (Program.ask c) (funext ih)

theorem bind_bind {γ : Type} (p : Program α) (f : α → Program β) (g : β → Program γ) :
    (p.bind f).bind g = p.bind fun a => (f a).bind g := by
  induction p with
  | done a => rfl
  | ask c next ih => exact congrArg (Program.ask c) (funext ih)

instance : LawfulMonad Program :=
  .mk' _ bind_done (fun _ _ => rfl) bind_bind

/-- The first call of a run that writes: the calls before it, the call, and the state that it
meets. -/
def firstWrite? (server : Server σ) : Program α → σ → Option (List StoreCall × StoreCall × σ)
  | .done _, _ => none
  | .ask c next, s =>
    if c.isRead then
      match server.reply c s with
      | (some outcome, s) =>
        ((next outcome).firstWrite? server s).map fun (reads, found) => (c :: reads, found)
      | (none, _) => none
    else some ([], c, s)

variable {server : Server σ} {s s' : σ}

/-- What makes no call does not come to write. -/
theorem firstWrite?_bind {p : Program α} {f : α → Program β} (hf : ∀ a, ∃ b, f a = .done b) :
    (p.bind f).firstWrite? server s = p.firstWrite? server s := by
  induction p generalizing s with
  | done a =>
    obtain ⟨b, hb⟩ := hf a
    rw [bind, hb, firstWrite?, firstWrite?]
  | ask c next ih =>
    rw [bind, firstWrite?, firstWrite?]
    simp only [ih]

/-- A call that reads has to be answered, and then what follows comes to write. -/
theorem firstWrite?_ask_read {c d : StoreCall} (hc : c.isRead = true) {next : c.Outcome → Program α}
    {reads : List StoreCall} :
    (Program.ask c next).firstWrite? server s = some (reads, d, s') ↔
      ∃ outcome t later, server.reply c s = (some outcome, t) ∧
        (next outcome).firstWrite? server t = some (later, d, s') ∧ reads = c :: later := by
  rw [firstWrite?, if_pos hc]
  rcases hreply : server.reply c s with ⟨_ | outcome, t⟩
  · simp
  · dsimp only
    rw [Option.map_eq_some_iff]
    constructor
    · rintro ⟨⟨later, found⟩, hfound, heq⟩
      cases heq
      exact ⟨outcome, t, later, rfl, hfound, rfl⟩
    · rintro ⟨outcome', t', later, heq, hfound, rfl⟩
      cases heq
      exact ⟨(later, d, s'), hfound, rfl⟩

/-- A call that writes is the first one. -/
theorem firstWrite?_ask_write {c d : StoreCall} (hd : d.isRead = false)
    {next : d.Outcome → Program α} {reads : List StoreCall} :
    (Program.ask d next).firstWrite? server s = some (reads, c, s') ↔
      c = d ∧ reads = [] ∧ s' = s := by
  rw [firstWrite?, hd, if_neg Bool.false_ne_true]
  constructor
  · rintro ⟨⟩
    exact ⟨rfl, rfl, rfl⟩
  · rintro ⟨rfl, rfl, rfl⟩
    rfl

end Program

/-- A program that only reads never comes to a write. -/
theorem Reads.firstWrite?_eq_none {server : Server σ} {p : Program α} (hp : Reads p) (s : σ) :
    p.firstWrite? server s = none := by
  induction hp generalizing s with
  | done a => rfl
  | @ask c next hc _ ih =>
    rw [Program.firstWrite?, if_pos hc]
    rcases server.reply c s with ⟨_ | outcome, t⟩
    · rfl
    · dsimp only
      rw [ih, Option.map_none]

/-! ## Looking nodes up -/

namespace Server

/-- The node is what the server answers to a look-up made in `s`, which leaves `s'`. -/
def Finds (server : Server σ) (id : Uuid) (s : σ) (n : Node) (s' : σ) : Prop :=
  server.reply (.get id) s = (some (.ok n), s')

/-- The look-up of a parent, with the calls that it takes: none when there is no parent. -/
inductive FindsParent (server : Server σ) :
    Option Uuid → σ → List StoreCall → Option Node → σ → Prop
  | none {s : σ} : FindsParent server none s [] none s
  | some {id : Uuid} {s s' : σ} {p : Node} : server.Finds id s p s' →
      FindsParent server (some id) s [.get id] (some p) s'

end Server

/-! ## The steps of a program -/

namespace Operation

/-- From the state `s` an operation makes the calls `reads`, which only read, and then it writes for
the first time, by the call `c` and in the state `s'`. -/
def Reaches (server : Server σ) (p : Operation α) (s : σ) (reads : List StoreCall) (c : StoreCall)
    (s' : σ) : Prop :=
  p.run.firstWrite? server s = some (reads, c, s')

variable {server : Server σ} {s s' : σ} {reads : List StoreCall} {c : StoreCall} {id : Uuid}

/-- An operation that only reads makes no write, in whatever state it begins. -/
theorem ReadsOnly.not_reaches {p : Operation α} (hp : ReadsOnly p) :
    ¬Reaches server p s reads c s' := by
  rw [Reaches, Reads.firstWrite?_eq_none hp]
  exact nofun

/-- A refusal ends the operation before any call. -/
theorem not_reaches_throw {e : ServiceError} :
    ¬Reaches server (throw e : Operation α) s reads c s' :=
  (ReadsOnly.throw e).not_reaches

theorem not_reaches_pure {a : α} : ¬Reaches server (pure a : Operation α) s reads c s' :=
  (ReadsOnly.pure a).not_reaches

/-- What is done with the answer has no part in the calls. -/
theorem reaches_map {p : Operation α} {f : α → β} :
    Reaches server (f <$> p) s reads c s' ↔ Reaches server p s reads c s' := by
  refine Eq.congr_left (Program.firstWrite?_bind fun outcome => ?_)
  cases outcome with
  | ok a => exact ⟨.ok (f a), rfl⟩
  | error e => exact ⟨.error e, rfl⟩

/-- A condition of refusal must not hold. -/
theorem reaches_guard {p : Prop} [Decidable p] {e : ServiceError} {f : PUnit → Operation α} :
    Reaches server (if p then throw e >>= f else f ⟨⟩) s reads c s' ↔
      ¬p ∧ Reaches server (f ⟨⟩) s reads c s' := by
  by_cases h : p
  · rw [if_pos h]
    exact iff_of_false not_reaches_throw fun hf => hf.1 h
  · rw [if_neg h]
    exact (and_iff_right h).symm

/-- A rule has to be kept. -/
theorem reaches_require {operation : String} {rule : Except Violation Unit}
    {f : Unit → Operation α} :
    Reaches server (require operation rule >>= f) s reads c s' ↔
      rule = .ok () ∧ Reaches server (f ()) s reads c s' := by
  cases rule with
  | ok u => exact (and_iff_right rfl).symm
  | error v => exact iff_of_false not_reaches_throw fun hf => nomatch hf.1

/-- What is tested must not be so. -/
theorem reaches_unless {b : Bool} {e : ServiceError} {f : Unit → Operation α} :
    Reaches server ((if b then throw e else pure ()) >>= f) s reads c s' ↔
      b = false ∧ Reaches server (f ()) s reads c s' := by
  cases b with
  | true => exact iff_of_false not_reaches_throw fun hf => nomatch hf.1
  | false => exact (and_iff_right rfl).symm

/-- An identifier must not be nil. -/
theorem reaches_requireId {operation : String} {kind : Kind} {f : Unit → Operation α} :
    Reaches server (requireId operation kind id >>= f) s reads c s' ↔
      id.isNil = false ∧ Reaches server (f ()) s reads c s' :=
  reaches_unless

/-- Nor may that of a space be nil. -/
theorem reaches_requireSpace {operation : String} {space : Uuid} {f : Unit → Operation α} :
    Reaches server (requireSpace operation space >>= f) s reads c s' ↔
      space.isNil = false ∧ Reaches server (f ()) s reads c s' :=
  reaches_unless

/-- A node that is looked up has to be found. -/
theorem reaches_fetch {operation : String} {f : Node → Operation α} :
    Reaches server (fetch operation id >>= f) s reads c s' ↔
      ∃ n t later, server.Finds id s n t ∧ Reaches server (f n) t later c s' ∧
        reads = .get id :: later := by
  refine (Program.firstWrite?_ask_read rfl).trans ⟨?_, ?_⟩
  · rintro ⟨outcome, t, later, hreply, hf, hreads⟩
    cases outcome with
    | ok n => exact ⟨n, t, later, hreply, hf, hreads⟩
    | error e => cases hf
  · rintro ⟨n, t, later, hfinds, hf, hreads⟩
    exact ⟨.ok n, t, later, hfinds, hf, hreads⟩

/-- It has to be found and to be of the kind that the request is for. -/
theorem reaches_fetchKind {operation : String} {kind : Kind} {f : Node → Operation α} :
    Reaches server (fetchKind operation kind id >>= f) s reads c s' ↔
      ∃ n t later, server.Finds id s n t ∧ n.kind = kind ∧ Reaches server (f n) t later c s' ∧
        reads = .get id :: later := by
  unfold fetchKind
  simp only [bind_assoc, pure_bind, reaches_fetch, reaches_require, checkKind_eq_ok_iff, and_assoc]

/-- A parent has to be found if there is one, and none is looked up otherwise. -/
theorem reaches_fetchParent {operation : String} {parent : Option Uuid}
    {f : Option Node → Operation α} :
    Reaches server (fetchParent operation parent >>= f) s reads c s' ↔
      ∃ p t looked later, server.FindsParent parent s looked p t ∧
        Reaches server (f p) t later c s' ∧ reads = looked ++ later := by
  cases parent with
  | none =>
    refine ⟨fun h => ⟨none, s, [], reads, .none, h, rfl⟩, ?_⟩
    rintro ⟨p, t, looked, later, hparent, h, rfl⟩
    cases hparent
    exact h
  | some id =>
    unfold fetchParent
    rw [bind_assoc, reaches_fetch]
    simp only [pure_bind]
    constructor
    · rintro ⟨n, t, later, hfinds, h, rfl⟩
      exact ⟨some n, t, [.get id], later, .some hfinds, h, rfl⟩
    · rintro ⟨p, t, looked, later, hparent, h, rfl⟩
      cases hparent with
      | @some _ _ _ n hfinds => exact ⟨n, t, later, hfinds, h, rfl⟩

/-- A call that writes is reached at once. -/
theorem reaches_ask {operation : String} {d : StoreCall} (hd : d.isRead = false) :
    Reaches server (ask operation d) s reads c s' ↔ c = d ∧ reads = [] ∧ s' = s :=
  Program.firstWrite?_ask_write hd

/-- A call that is made again after conflicts is the first that writes all the same. -/
theorem reaches_retrying {operation : String} {d : StoreCall} (hd : d.isRead = false)
    (retries : Nat) :
    Reaches server (retrying retries (ask operation d)) s reads c s' ↔
      c = d ∧ reads = [] ∧ s' = s := by
  cases retries with
  | zero | succ retries => exact Program.firstWrite?_ask_write hd

/-- The look-up of a node before a step `f` that makes no more look-ups, but writes by `d` if `P`
holds of the node. -/
theorem reaches_fetch_write {operation : String} {f : Node → Operation α} {P : Node → Prop}
    {d : StoreCall}
    (hf : ∀ n t reads c s', Reaches server (f n) t reads c s' ↔
      P n ∧ c = d ∧ reads = [] ∧ s' = t) :
    Reaches server (fetch operation id >>= f) s reads c s' ↔
      c = d ∧ reads = [.get id] ∧ ∃ n, server.Finds id s n s' ∧ P n := by
  simp only [reaches_fetch, hf]
  constructor
  · rintro ⟨n, t, _, hfinds, ⟨hn, rfl, rfl, rfl⟩, rfl⟩
    exact ⟨rfl, rfl, n, hfinds, hn⟩
  · rintro ⟨rfl, rfl, n, hfinds, hn⟩
    exact ⟨n, s', [], hfinds, ⟨hn, rfl, rfl, rfl⟩, rfl⟩

/-- The same of a node that has to be of a kind. -/
theorem reaches_fetchKind_write {operation : String} {kind : Kind} {f : Node → Operation α}
    {P : Node → Prop} {d : StoreCall}
    (hf : ∀ n t reads c s', Reaches server (f n) t reads c s' ↔
      P n ∧ c = d ∧ reads = [] ∧ s' = t) :
    Reaches server (fetchKind operation kind id >>= f) s reads c s' ↔
      c = d ∧ reads = [.get id] ∧ ∃ n, server.Finds id s n s' ∧ n.kind = kind ∧ P n := by
  unfold fetchKind
  simp only [bind_assoc, pure_bind]
  exact reaches_fetch_write fun n t _ _ _ => by
    rw [reaches_require, checkKind_eq_ok_iff, hf, and_assoc]

/-- The look-up of a parent before a step `f` that makes no more look-ups, but writes by `d` if `P`
holds of the parent. -/
theorem reaches_fetchParent_write {operation : String} {parent : Option Uuid}
    {f : Option Node → Operation α} {P : Option Node → Prop} {d : StoreCall}
    (hf : ∀ p t reads c s', Reaches server (f p) t reads c s' ↔
      P p ∧ c = d ∧ reads = [] ∧ s' = t) :
    Reaches server (fetchParent operation parent >>= f) s reads c s' ↔
      c = d ∧ ∃ p, server.FindsParent parent s reads p s' ∧ P p := by
  simp only [reaches_fetchParent, hf]
  constructor
  · rintro ⟨p, t, looked, _, hparent, ⟨hp, rfl, rfl, rfl⟩, rfl⟩
    rw [List.append_nil]
    exact ⟨rfl, p, hparent, hp⟩
  · rintro ⟨rfl, p, hparent, hp⟩
    exact ⟨p, s', reads, [], hparent, ⟨hp, rfl, rfl, rfl⟩, (List.append_nil _).symm⟩

/-- The last checks of a move: the parent that the node is to get. -/
theorem reaches_checkParent {operation : String} {parent : Option Uuid} {kind : Kind}
    {space : Uuid} {d : StoreCall} (hd : d.isRead = false) (retries : Nat) :
    Reaches server (do
        let p ← fetchParent operation parent
        require operation (checkParent kind space p)
        retrying retries (ask operation d)) s reads c s' ↔
      c = d ∧ ∃ p, server.FindsParent parent s reads p s' ∧ checkParent kind space p = .ok () :=
  reaches_fetchParent_write fun p t _ _ _ => by rw [reaches_require, reaches_retrying hd]

end Operation

open Operation

/-! ## The checks of the requests -/

namespace Request

variable {server : Server σ} {s s' : σ} {reads : List StoreCall} {c : StoreCall}

/-- The checks of a request that writes, begun in the state `s`: they are passed with the calls
`reads`, which look nodes up and leave the state `s'`. -/
inductive Passes (server : Server σ) : Request → σ → List StoreCall → σ → Prop
  | create {kind : Kind} {draft : Draft} {s s' : σ} {reads : List StoreCall} {p : Option Node} :
      draft.space.isNil = false → draft.kind.getD kind = kind →
      server.FindsParent (Uuid.given draft.parent) s reads p s' →
      checkParent kind draft.space p = .ok () → draft.properties.isObject = true →
      Passes server (.create kind draft) s reads s'
  | delete {kind : Kind} {space id : Uuid} {s s' : σ} {n : Node} :
      id.isNil = false → space.isNil = false → server.Finds id s n s' → n.kind = kind →
      n.space = space → Passes server (.delete kind space id) s [.get id] s'
  | update {kind : Kind} {id : Uuid} {patch : Patch} {s s' : σ} {n : Node} :
      id.isNil = false → server.Finds id s n s' → n.kind = kind → patch.isEmpty = false →
      (∀ v, patch.properties = some v → v.isObject = true) →
      Passes server (.update kind id patch) s [.get id] s'
  | move {kind : Kind} {id : Uuid} {parent : Option Uuid} {sort : Option SortKey} {s t s' : σ}
      {n : Node} {reads : List StoreCall} {p : Option Node} :
      id.isNil = false → Uuid.given parent ≠ some id → server.Finds id s n t → n.kind = kind →
      server.FindsParent (Uuid.given parent) t reads p s' →
      checkParent n.kind n.space p = .ok () →
      Passes server (.move kind id parent sort) s (.get id :: reads) s'
  | moveBlock {id parent : Uuid} {sort : Option SortKey} {s s' : σ} {reads : List StoreCall} :
      parent.isNil = false → Passes server (.move .block id (some parent) sort) s reads s' →
      Passes server (.moveBlock id parent sort) s reads s'
  | reorder {kind : Kind} {id : Uuid} {sort : SortKey} {s s' : σ} {n : Node} :
      id.isNil = false → server.Finds id s n s' → n.kind = kind →
      Passes server (.reorder kind id sort) s [.get id] s'
  | moveBeside {kind : Kind} {id anchor : Uuid} {side : Side} {s t u s' : σ} {n a : Node}
      {reads : List StoreCall} {p : Option Node} :
      id.isNil = false → anchor.isNil = false → anchor ≠ id → server.Finds id s n t →
      n.kind = kind → server.Finds anchor t a u → a.space = n.space →
      server.FindsParent a.parent u reads p s' → checkParent n.kind n.space p = .ok () →
      Passes server (.moveBeside kind id anchor side) s (.get id :: .get anchor :: reads) s'
  | renumber {group : Group} {s s' : σ} {reads : List StoreCall} {p : Option Node} :
      group.space.isNil = false → server.FindsParent (Uuid.given group.parent) s reads p s' →
      (∀ n, p = some n → n.space = group.space) → Passes server (.renumber group) s reads s'

/-- What is created goes behind its siblings. -/
theorem reaches_create {config : Config} {kind : Kind} {draft : Draft} {now : Timestamp}
    {fresh : Uuid} :
    Reaches server (Operation.create config kind draft now fresh) s reads c s' ↔
      c = .createLast (draft.made kind now fresh) ∧
        Passes server (.create kind draft) s reads s' := by
  unfold Operation.create
  dsimp only
  rw [reaches_requireSpace, reaches_guard, reaches_fetchParent_write
    (P := fun p => checkParent kind draft.space p = .ok () ∧ ¬draft.properties.isObject = false)
    fun p t _ _ _ => by rw [reaches_require, reaches_guard, reaches_retrying rfl, and_assoc]]
  constructor
  · rintro ⟨hspace, hkind, rfl, p, hparent, hcheck, hobject⟩
    exact ⟨rfl, .create hspace (not_not.1 hkind) hparent hcheck (Bool.of_not_eq_false hobject)⟩
  · rintro ⟨rfl, hpasses⟩
    cases hpasses with
    | @create _ _ _ _ _ p hspace hkind hparent hcheck hobject =>
      exact ⟨hspace, not_not.2 hkind, rfl, p, hparent, hcheck, by simp [hobject]⟩

theorem reaches_delete {kind : Kind} {space id : Uuid} :
    Reaches server (Operation.delete kind space id) s reads c s' ↔
      c = .delete space id ∧ Passes server (.delete kind space id) s reads s' := by
  unfold Operation.delete
  dsimp only
  rw [reaches_requireId, reaches_requireSpace, reaches_fetchKind_write
    (P := fun n => ¬n.space ≠ space) fun n t _ _ _ => by rw [reaches_guard, reaches_ask rfl]]
  constructor
  · rintro ⟨hid, hspace, rfl, rfl, n, hfinds, hkind, hin⟩
    exact ⟨rfl, .delete hid hspace hfinds hkind (not_not.1 hin)⟩
  · rintro ⟨rfl, hpasses⟩
    cases hpasses with
    | @delete _ _ _ _ _ n hid hspace hfinds hkind hin =>
      exact ⟨hid, hspace, rfl, rfl, n, hfinds, hkind, not_not.2 hin⟩

/-- A patch that changes nothing passes no checks: the node is answered as it is. -/
theorem reaches_update {kind : Kind} {id : Uuid} {patch : Patch} :
    Reaches server (Operation.update kind id patch) s reads c s' ↔
      c = .update id patch ∧ Passes server (.update kind id patch) s reads s' := by
  unfold Operation.update
  dsimp only
  rw [reaches_requireId]
  by_cases hempty : patch.isEmpty = true
  · -- the node is answered as it is
    simp only [if_pos hempty, reaches_fetchKind, not_reaches_pure, false_and, and_false,
      exists_false, false_iff]
    rintro ⟨-, hpasses⟩
    cases hpasses with
    | update _ _ _ hsome _ => exact Bool.false_ne_true (hsome.symm.trans hempty)
  · have hobject : ¬patch.properties.any (!·.isObject) = true ↔
        ∀ v, patch.properties = some v → v.isObject = true := by
      cases patch.properties <;> simp
    simp only [if_neg hempty]
    rw [reaches_fetchKind_write
      (P := fun _ => ∀ v, patch.properties = some v → v.isObject = true)
      fun n t _ _ _ => by rw [reaches_guard, hobject, reaches_ask rfl]]
    constructor
    · rintro ⟨hid, rfl, rfl, n, hfinds, hkind, hprops⟩
      exact ⟨rfl, .update hid hfinds hkind (Bool.of_not_eq_true hempty) hprops⟩
    · rintro ⟨rfl, hpasses⟩
      cases hpasses with
      | @update _ _ _ _ _ n hid hfinds hkind _ hprops =>
        exact ⟨hid, rfl, rfl, n, hfinds, hkind, hprops⟩

/-- A move goes to a key or behind all siblings, after the same checks. -/
theorem reaches_move {config : Config} {kind : Kind} {id : Uuid} {parent : Option Uuid}
    {sort : Option SortKey} (now : Timestamp) (fresh : Uuid) :
    Reaches server (Operation.move config kind id parent sort) s reads c s' ↔
      Request.write? now fresh (.move kind id parent sort) = some c ∧
        Passes server (.move kind id parent sort) s reads s' := by
  -- the checks are the same for both calls that a move may make
  have hchecks : ∀ d : StoreCall, (id.isNil = false ∧ ¬Uuid.given parent = some id ∧
      ∃ n t later, server.Finds id s n t ∧ n.kind = kind ∧
        (c = d ∧ ∃ p, server.FindsParent (Uuid.given parent) t later p s' ∧
          checkParent n.kind n.space p = .ok ()) ∧ reads = .get id :: later) ↔
      some d = some c ∧ Passes server (.move kind id parent sort) s reads s' := by
    intro d
    constructor
    · rintro ⟨hid, hne, n, t, _, hfinds, hkind, ⟨rfl, p, hparent, hcheck⟩, rfl⟩
      exact ⟨rfl, .move hid hne hfinds hkind hparent hcheck⟩
    · rintro ⟨⟨⟩, hpasses⟩
      cases hpasses with
      | @move _ _ _ _ _ t _ n later p hid hne hfinds hkind hparent hcheck =>
        exact ⟨hid, hne, n, t, later, hfinds, hkind, ⟨rfl, p, hparent, hcheck⟩, rfl⟩
  unfold Operation.move
  dsimp only
  rw [reaches_requireId, reaches_guard, reaches_fetchKind]
  cases sort with
  | none =>
    simp only [reaches_checkParent (d := .moveLast _ _) rfl]
    exact hchecks _
  | some sort =>
    simp only [reaches_checkParent (d := .moveAt _ _ _) rfl]
    exact hchecks _

/-- The parent of a block is looked at first, then everything that a move looks at. -/
theorem reaches_moveBlock {config : Config} {id parent : Uuid} {sort : Option SortKey}
    (now : Timestamp) (fresh : Uuid) :
    Reaches server (Operation.moveBlock config id parent sort) s reads c s' ↔
      Request.write? now fresh (.moveBlock id parent sort) = some c ∧
        Passes server (.moveBlock id parent sort) s reads s' := by
  have hwrite : Request.write? now fresh (.moveBlock id parent sort) =
      Request.write? now fresh (.move .block id (some parent) sort) := by
    cases sort <;> rfl
  unfold Operation.moveBlock
  rw [reaches_guard, reaches_move now fresh, hwrite]
  constructor
  · rintro ⟨hnil, hc, hmove⟩
    exact ⟨hc, .moveBlock (Bool.of_not_eq_true hnil) hmove⟩
  · rintro ⟨hc, hpasses⟩
    cases hpasses with
    | moveBlock hnil hmove => exact ⟨by simp [hnil], hc, hmove⟩

theorem reaches_reorder {config : Config} {kind : Kind} {id : Uuid} {sort : SortKey} :
    Reaches server (Operation.reorder config kind id sort) s reads c s' ↔
      c = .reorder id sort ∧ Passes server (.reorder kind id sort) s reads s' := by
  unfold Operation.reorder
  dsimp only
  rw [reaches_requireId, reaches_fetchKind_write (P := fun _ => True) fun n t _ _ _ => by
    rw [reaches_retrying rfl, true_and]]
  constructor
  · rintro ⟨hid, rfl, rfl, n, hfinds, hkind, -⟩
    exact ⟨rfl, .reorder hid hfinds hkind⟩
  · rintro ⟨rfl, hpasses⟩
    cases hpasses with
    | @reorder _ _ _ _ _ n hid hfinds hkind => exact ⟨hid, rfl, rfl, n, hfinds, hkind, trivial⟩

/-- The anchor is looked up after the node, and then the parent of the anchor. -/
theorem reaches_moveBeside {config : Config} {kind : Kind} {id anchor : Uuid} {side : Side} :
    Reaches server (Operation.moveBeside config kind id anchor side) s reads c s' ↔
      c = .moveBeside id anchor side ∧
        Passes server (.moveBeside kind id anchor side) s reads s' := by
  unfold Operation.moveBeside
  dsimp only
  rw [reaches_requireId, reaches_guard, reaches_guard, reaches_fetchKind]
  simp only [reaches_fetch, reaches_guard, reaches_checkParent (d := .moveBeside _ _ _) rfl]
  constructor
  · rintro ⟨hid, hnil, hne, n, t, _, hfinds, hkind,
      ⟨a, u, later, ha, ⟨hspace, rfl, p, hparent, hcheck⟩, rfl⟩, rfl⟩
    exact ⟨rfl, .moveBeside hid (Bool.of_not_eq_true hnil) hne hfinds hkind ha (not_not.1 hspace)
      hparent hcheck⟩
  · rintro ⟨rfl, hpasses⟩
    cases hpasses with
    | @moveBeside _ _ _ _ _ t u _ n a later p hid hnil hne hfinds hkind ha hspace hparent hcheck =>
      exact ⟨hid, by simp [hnil], hne, n, t, .get anchor :: later, hfinds, hkind,
        ⟨a, u, later, ha, ⟨not_not.2 hspace, rfl, p, hparent, hcheck⟩, rfl⟩, rfl⟩

/-- The checks of a renumbering without its two shapes: a group at the roots and one below a node.
-/
theorem passes_renumber_iff {group : Group} :
    Passes server (.renumber group) s reads s' ↔
      group.space.isNil = false ∧ ∃ p, server.FindsParent (Uuid.given group.parent) s reads p s' ∧
        ∀ n, p = some n → n.space = group.space := by
  constructor
  · rintro ⟨⟩
    exact ⟨‹_›, _, ‹_›, ‹_›⟩
  · rintro ⟨hspace, p, hparent, hin⟩
    exact .renumber hspace hparent hin

/-- A group at the roots is renumbered without a look-up. -/
theorem reaches_renumber {group : Group} :
    Reaches server (Operation.renumber group) s reads c s' ↔
      c = .renumber ⟨group.space, Uuid.given group.parent⟩ ∧
        Passes server (.renumber group) s reads s' := by
  unfold Operation.renumber
  dsimp only
  rw [reaches_requireSpace, passes_renumber_iff]
  cases Uuid.given group.parent with
  | none =>
    rw [reaches_ask rfl]
    constructor
    · rintro ⟨hspace, rfl, rfl, rfl⟩
      exact ⟨rfl, hspace, none, .none, fun n hn => by cases hn⟩
    · rintro ⟨rfl, hspace, p, hparent, -⟩
      cases hparent
      exact ⟨hspace, rfl, rfl, rfl⟩
  | some id =>
    dsimp only
    rw [reaches_fetch_write (P := fun n => ¬n.space ≠ group.space) fun n t _ _ _ => by
      rw [reaches_guard, reaches_ask rfl]]
    constructor
    · rintro ⟨hspace, rfl, rfl, n, hfinds, hin⟩
      refine ⟨rfl, hspace, some n, .some hfinds, fun m hm => ?_⟩
      rw [← Option.some.inj hm]
      exact not_not.1 hin
    · rintro ⟨rfl, hspace, p, hparent, hin⟩
      cases hparent with
      | @some _ _ _ n hfinds =>
        exact ⟨hspace, rfl, rfl, n, hfinds, not_not.2 (hin n rfl)⟩

/-- A request comes to its write exactly when it passes its checks, whoever answers the look-ups. -/
theorem reaches_iff {config : Config} {now : Timestamp} {fresh : Uuid} {request : Request} :
    Reaches server (request.operation config now fresh) s reads c s' ↔
      request.write? now fresh = some c ∧ request.Passes server s reads s' := by
  have hcall : ∀ d : StoreCall, c = d ↔ some d = some c :=
    fun d => eq_comm.trans Option.some_inj.symm
  -- the requests that only read come to no write, and have no checks to pass
  have hnever : ∀ {α : Type} {p : Operation α} {f : α → Answer}, ReadsOnly p →
      ¬Reaches server (f <$> p) s reads c s' := fun hp => reaches_map.not.2 hp.not_reaches
  cases request with
  | create kind draft => exact reaches_map.trans (reaches_create.trans (and_congr_left' (hcall _)))
  | delete kind space id =>
    exact reaches_map.trans (reaches_delete.trans (and_congr_left' (hcall _)))
  | get kind id => exact iff_of_false (hnever (readsOnly_get kind id)) nofun
  | update kind id patch =>
    exact reaches_map.trans (reaches_update.trans (and_congr_left' (hcall _)))
  | children kind id archived =>
    exact iff_of_false (hnever (readsOnly_children kind id archived)) nofun
  | roots space => exact iff_of_false (hnever (readsOnly_roots space)) nofun
  | move kind id parent sort => exact reaches_map.trans (reaches_move now fresh)
  | moveBlock id parent sort => exact reaches_map.trans (reaches_moveBlock now fresh)
  | reorder kind id sort =>
    exact reaches_map.trans (reaches_reorder.trans (and_congr_left' (hcall _)))
  | moveBeside kind id anchor side =>
    exact reaches_map.trans (reaches_moveBeside.trans (and_congr_left' (hcall _)))
  | branch kind id => exact iff_of_false (hnever (readsOnly_branch kind id)) nofun
  | renumber group => exact reaches_map.trans (reaches_renumber.trans (and_congr_left' (hcall _)))

end Request

end Outline
