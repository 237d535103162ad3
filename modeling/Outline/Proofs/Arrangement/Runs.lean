import Outline.Proofs.Arrangement.Indexed
import Outline.Proofs.Arrangement.Table

/-!
# The gap is not seen

The same calls are made on two empty stores with different gaps. With a small gap groups are
respread again and again, with a large one keys leave the range of 64 bits, so the two stores give
different keys at different calls. What can be seen of them is the same nevertheless: which calls
succeed and how each group is listed, as long as neither runs out of keys. It is what is seen of an
arrangement, which has no keys.

Main results:

* `Store.sights_eq` — from one call to all runs;
* `order_independent_of_gap` — both stores, with any two gaps.
-/

namespace Outline

/-! ## What is seen of a run -/

/-- What is seen at a call: whether it succeeded, and how each group is listed afterwards. -/
structure Sight where
  succeeded : Bool
  listed : Group → Option (List Uuid)

namespace Store

variable {σ : Type} (store : Store σ)

/-- The identifiers of a group in order, if the group is listed. -/
def listed (now : Timestamp) (s : σ) (group : Group) : Option (List Uuid) :=
  (store.serve (.list group) now s).toOption.map fun (ns, _) => ns.map Node.id

/-- What is seen of calls made one after the other. -/
def sights : List (StoreCall × Timestamp) → σ → List Sight
  | [], _ => []
  | (c, now) :: rest, s =>
    let (outcome, s') := store.step c now s
    ⟨outcome.isOk, store.listed now s'⟩ :: sights rest s'

/-- No call of a run is refused for want of keys. -/
def KeysLast : List (StoreCall × Timestamp) → σ → Prop
  | [], _ => True
  | (c, now) :: rest, s =>
    ¬OutOfKeys (store.step c now s).1 ∧ KeysLast rest (store.step c now s).2

instance decidableKeysLast :
    (calls : List (StoreCall × Timestamp)) → (s : σ) → Decidable (store.KeysLast calls s)
  | [], _ => isTrue trivial
  | (_, _) :: rest, _ => @instDecidableAnd _ _ _ (decidableKeysLast rest _)

/-- A property of every state of a run, the first one included. -/
def Throughout (P : σ → Prop) : List (StoreCall × Timestamp) → σ → Prop
  | [], s => P s
  | (c, now) :: rest, s => P s ∧ Throughout P rest (store.step c now s).2

instance decidableThroughout (P : σ → Prop) [DecidablePred P] :
    (calls : List (StoreCall × Timestamp)) → (s : σ) → Decidable (store.Throughout P calls s)
  | [], s => inferInstanceAs (Decidable (P s))
  | (_, _) :: rest, _ => @instDecidableAnd _ _ _ (decidableThroughout P rest _)

variable {store} in
theorem Throughout.now {P : σ → Prop} {calls : List (StoreCall × Timestamp)} {s : σ}
    (h : store.Throughout P calls s) : P s := by
  cases calls with
  | nil => exact h
  | cons => exact h.1

end Store

/-- What is seen of an arrangement; a call that is refused leaves it as it is. -/
def Arrangement.sights (reach : Reach) : List StoreCall → Arrangement → List Sight
  | [], _ => []
  | c :: rest, a =>
    let next := (a.step reach c).getD a
    ⟨(a.step reach c).isSome, next.list⟩ :: sights reach rest next

/-- A store whose calls follow an arrangement shows what the arrangement shows. The calls that are
left are part of what holds between two calls, so that it may speak of the rest of the run. -/
theorem Store.sights_eq {σ π τ : Type} {store : Store σ} {reach : Reach}
    (forest : σ → Forest π τ) (I : List (StoreCall × Timestamp) → σ → Prop)
    (hnext : ∀ c now rest s, I ((c, now) :: rest) s → I rest (store.step c now s).2)
    (hserve : ∀ c now rest s a, I ((c, now) :: rest) s → Refines (forest s) a →
      c.isKeyless = true → Follows forest (a.step reach c) (store.serve c now s))
    (hlisted : ∀ now rest s a, I rest s → Refines (forest s) a → store.listed now s = a.list)
    (calls : List (StoreCall × Timestamp)) {s : σ} {a : Arrangement} (hI : I calls s)
    (ha : Refines (forest s) a) (hkeyless : ∀ call ∈ calls, call.1.isKeyless = true)
    (hkeys : store.KeysLast calls s) :
    store.sights calls s = a.sights reach (calls.map Prod.fst) := by
  induction calls generalizing s a with
  | nil => rfl
  | cons call rest ih =>
    obtain ⟨c, now⟩ := call
    obtain ⟨hlast, hkeys⟩ := hkeys
    have hI' := hnext c now rest s hI
    have hfollows := hserve c now rest s a hI ha (hkeyless _ List.mem_cons_self)
    have hrest : ∀ call ∈ rest, call.1.isKeyless = true :=
      fun call hcall => hkeyless call (List.mem_cons_of_mem _ hcall)
    -- both go on or both stay
    have hboth : (store.step c now s).1.isOk = (a.step reach c).isSome ∧
        Refines (forest (store.step c now s).2) ((a.step reach c).getD a) := by
      unfold Store.step at hlast ⊢
      cases hs : store.serve c now s with
      | ok answered =>
        rw [hs] at hfollows
        obtain ⟨a', hstep, ha'⟩ := hfollows
        rw [hstep]
        exact ⟨rfl, ha'⟩
      | error e =>
        rw [hs] at hfollows hlast
        rcases hfollows with hstep | hexhausted
        · rw [hstep]
          exact ⟨rfl, ha⟩
        · exact absurd hexhausted hlast
    obtain ⟨hok, ha'⟩ := hboth
    show (⟨(store.step c now s).1.isOk, store.listed now (store.step c now s).2⟩ : Sight) ::
        store.sights rest (store.step c now s).2 =
      ⟨(a.step reach c).isSome, ((a.step reach c).getD a).list⟩ ::
        Arrangement.sights reach (rest.map Prod.fst) ((a.step reach c).getD a)
    rw [ih hI' ha' hrest hkeys, hok, hlisted now rest _ _ hI' ha']

/-! ## The store in memory -/

theorem Shelf.sights_eq (gap : Gap) {calls : List (StoreCall × Timestamp)}
    (hkeyless : ∀ call ∈ calls, call.1.isKeyless = true)
    (hkeys : store.KeysLast calls (.empty gap)) :
    store.sights calls (.empty gap) = Arrangement.empty.sights .space (calls.map Prod.fst) := by
  refine Store.sights_eq forest (fun _ s => s.Sound ∧ s.Proper) ?_ ?_ ?_ calls
    ⟨sound_empty gap, proper_empty gap⟩ (.empty (forest_empty gap)) hkeyless hkeys
  · rintro c now rest s ⟨h, hp⟩
    exact Store.step_keeps (P := fun s => s.Sound ∧ s.Proper) ⟨h, hp⟩ fun _ _ hs =>
      ⟨h.serve hs, proper_serve h hp hs⟩
  · rintro c now rest s a ⟨h, hp⟩ ha hc
    exact serve_follows h hp ha hc
  · rintro now rest s a ⟨h, -⟩ ha
    funext group
    rw [← ids_list h ha group]
    show ((s.list group).map (·, s)).toOption.map _ = _
    cases s.list group <;> rfl

/-! ## The table -/

namespace Database

/-- In every state of a run the rows are few and can be read, and its times have years of four
digits. -/
structure StaysFit (calls : List (StoreCall × Timestamp)) (db : Database) : Prop where
  readable : store.Throughout (·.rows.Readable) calls db
  roomy    : store.Throughout (·.rows.Roomy) calls db
  years    : ∀ call ∈ calls, call.2.HasPlainYear

theorem StaysFit.next {c : StoreCall} {now : Timestamp} {rest : List (StoreCall × Timestamp)}
    {db : Database} (h : StaysFit ((c, now) :: rest) db) : StaysFit rest (store.step c now db).2 :=
  ⟨h.readable.2, h.roomy.2, fun call hcall => h.years call (List.mem_cons_of_mem _ hcall)⟩

theorem sights_eq (gap : Gap) {calls : List (StoreCall × Timestamp)}
    (hfit : StaysFit calls (.empty gap)) (hkeyless : ∀ call ∈ calls, call.1.isKeyless = true)
    (hkeys : store.KeysLast calls (.empty gap)) :
    store.sights calls (.empty gap) =
      Arrangement.empty.sights .everywhere (calls.map Prod.fst) := by
  refine Store.sights_eq forest
    (fun calls db => (db.Sound ∧ db.Proper) ∧ StaysFit calls db) ?_ ?_ ?_ calls
    ⟨⟨sound_empty gap, proper_empty gap⟩, hfit⟩ (.empty fun _ => rfl) hkeyless hkeys
  · rintro c now rest db ⟨⟨h, hp⟩, hfit⟩
    refine ⟨?_, hfit.next⟩
    exact Store.step_keeps (P := fun db => db.Sound ∧ db.Proper) ⟨h, hp⟩ fun _ _ hs =>
      ⟨h.serve hs, proper_serve h hp hs⟩
  · rintro c now rest db a ⟨⟨h, hp⟩, hfit⟩ ha hc
    exact serve_follows h ha hp hfit.readable.1 hfit.roomy.1
      (hfit.years (c, now) List.mem_cons_self) hc
  · rintro now rest db a ⟨⟨h, -⟩, hfit⟩ ha
    funext group
    rw [← ids_list h ha hfit.readable.now group]
    show ((db.rows.list group).map (·, db)).toOption.map _ = _
    cases db.rows.list group <;> rfl

end Database

/-- The same calls without keys, made on two empty stores that differ in their gaps and their
clocks, succeed and fail alike and list all groups alike, as those of an arrangement: in memory, and
in a table whose rows stay few and readable. -/
theorem order_independent_of_gap (gap gap' : Gap) (calls calls' : List (StoreCall × Timestamp))
    (hcalls : calls'.map Prod.fst = calls.map Prod.fst)
    (hkeyless : ∀ call ∈ calls, call.1.isKeyless = true) :
    (Shelf.store.KeysLast calls (.empty gap) → Shelf.store.KeysLast calls' (.empty gap') →
      Shelf.store.sights calls (.empty gap) =
          Arrangement.empty.sights .space (calls.map Prod.fst) ∧
        Shelf.store.sights calls' (.empty gap') =
          Arrangement.empty.sights .space (calls.map Prod.fst)) ∧
    (Database.StaysFit calls (.empty gap) → Database.StaysFit calls' (.empty gap') →
      Database.store.KeysLast calls (.empty gap) → Database.store.KeysLast calls' (.empty gap') →
      Database.store.sights calls (.empty gap) =
          Arrangement.empty.sights .everywhere (calls.map Prod.fst) ∧
        Database.store.sights calls' (.empty gap') =
          Arrangement.empty.sights .everywhere (calls.map Prod.fst)) := by
  -- the second calls are the first ones at other times
  have hkeyless' : ∀ call ∈ calls', call.1.isKeyless = true := by
    intro call hcall
    have hmem : call.1 ∈ calls.map Prod.fst := hcalls ▸ List.mem_map_of_mem hcall
    obtain ⟨call', hcall', heq⟩ := List.mem_map.1 hmem
    exact heq ▸ hkeyless call' hcall'
  constructor
  · intro hkeys hkeys'
    have hsights' := Shelf.sights_eq gap' hkeyless' hkeys'
    exact ⟨Shelf.sights_eq gap hkeyless hkeys, hcalls ▸ hsights'⟩
  · intro hfit hfit' hkeys hkeys'
    have hsights' := Database.sights_eq gap' hfit' hkeyless' hkeys'
    exact ⟨Database.sights_eq gap hfit hkeyless hkeys, hcalls ▸ hsights'⟩

namespace Sample

/-- The smallest gap. -/
def narrow : Gap := .ofKey .zero

/-- A page below another goes up to the place before it. -/
def climb : List (StoreCall × Timestamp) :=
  [(.createLast (page 2 none), time), (.createLast (page 3 (some (uuid 2))), time),
    (.moveBeside (uuid 3) (uuid 2) .before, time)]

end Sample

/-- The page goes up to the place before the first one, at the smallest gap as well as at the
standard one. -/
theorem order_independent_of_gap_climb :
    (Shelf.store.sights Sample.climb (.empty Sample.narrow) =
        Arrangement.empty.sights .space (Sample.climb.map Prod.fst) ∧
      Shelf.store.sights Sample.climb (.empty .standard) =
        Arrangement.empty.sights .space (Sample.climb.map Prod.fst)) ∧
    (Database.store.sights Sample.climb (.empty Sample.narrow) =
        Arrangement.empty.sights .everywhere (Sample.climb.map Prod.fst) ∧
      Database.store.sights Sample.climb (.empty .standard) =
        Arrangement.empty.sights .everywhere (Sample.climb.map Prod.fst)) := by
  obtain ⟨hshelf, htable⟩ :=
    order_independent_of_gap Sample.narrow .standard Sample.climb Sample.climb rfl (by decide)
  have hyears : ∀ call ∈ Sample.climb, call.2.HasPlainYear := by decide
  have hfit : Database.StaysFit Sample.climb (.empty Sample.narrow) :=
    ⟨by decide +kernel, by decide +kernel, hyears⟩
  have hfit' : Database.StaysFit Sample.climb (.empty .standard) :=
    ⟨by decide +kernel, by decide +kernel, hyears⟩
  exact ⟨hshelf (by decide +kernel) (by decide +kernel),
    htable hfit hfit' (by decide +kernel) (by decide +kernel)⟩

end Outline
