import Mathlib.Data.List.Forall2
import Outline.Proofs.Forest.Basic
import Outline.Proofs.Outcome
import Outline.Service.Request

/-!
# Programs that agree

Two stores are asked by programs of one shape, each at its own time. The programs agree on a pair of
states when they end in the same way: with answers that stand in a given relation, or with one
error, and with states that stand in a relation of their own. The stores need not be of one kind,
and the programs need not be the same, since the times that a service puts into a new node are taken
from two clocks.

What a service does with an answer depends on the place of the node that it got. So a pair of
states is linked when the answers to all that a service may ask agree in the places of nodes.

Main results:

* `Agree.read` — programs that only read are continued by programs that agree;
* `Operation.exec_retrying_ask` — a call that is refused is refused again, so it counts once;
* `Linked.fetchKind`, `Linked.fetchParent` — looking up the nodes of a request.
-/

namespace Outline

variable {α β γ δ σ τ : Type}

namespace Operation

/-- Run an operation to its end. -/
def exec (p : Operation α) (server : Server σ) (s : σ) : Option (Except ServiceError α) × σ :=
  p.run.run server s

variable {server : Server σ} {s s' : σ}

theorem exec_bind (p : Operation α) (f : α → Operation β) :
    exec (p >>= f) server s =
      match exec p server s with
      | (some (.ok a), s) => exec (f a) server s
      | (some (.error e), s) => (some (.error e), s)
      | (none, s) => (none, s) := by
  refine (Program.run_bind server p.run _ s).trans ?_
  show _ = match p.run.run server s with
    | (some (.ok a), s) => exec (f a) server s
    | (some (.error e), s) => (some (.error e), s)
    | (none, s) => (none, s)
  split
  · next outcome s' h =>
    rw [h]
    cases outcome <;> rfl
  · next s' h => rw [h]

/-- A call ends with the reply to it. -/
theorem exec_ask_reply (operation : String) (c : StoreCall) :
    exec (ask operation c) server s =
      ((server.reply c s).1.map (·.mapError (.ofStore operation)), (server.reply c s).2) := by
  show Program.run server (.ask c _) s = _
  rw [Program.run]
  rcases server.reply c s with ⟨_ | outcome, s'⟩ <;> rfl

/-- A call ends with what the store serves. -/
theorem exec_ask (store : Store σ) (now : Timestamp) (operation : String) (c : StoreCall) (s : σ) :
    exec (ask operation c) (store.server now) s =
      match store.serve c now s with
      | .ok (answer, s') => (some (.ok answer), s')
      | .error e => (some (.error (.ofStore operation e)), s) := by
  show (some ((store.step c now s).1.mapError (ServiceError.ofStore operation)),
    (store.step c now s).2) = _
  unfold Store.step
  cases store.serve c now s <;> rfl

/-- A refusal leaves the state as it was, so the call is refused again however often it is made. -/
theorem exec_retrying_ask (store : Store σ) (now : Timestamp) (operation : String) (c : StoreCall)
    (s : σ) (retries : Nat) :
    exec (retrying retries (ask operation c)) (store.server now) s =
      exec (ask operation c) (store.server now) s := by
  induction retries with
  | zero => rfl
  | succ retries ih =>
    refine (Program.run_bind (store.server now) (ask operation c).run _ s).trans ?_
    have hask : (ask operation c).run.run (store.server now) s =
        exec (ask operation c) (store.server now) s := rfl
    rw [hask, exec_ask]
    cases hserve : store.serve c now s with
    | ok answer => rfl
    | error e =>
      dsimp only
      split
      · refine Eq.trans ih ?_
        rw [exec_ask, hserve]
      · rfl

end Operation

open Operation (exec)

/-! ## Outcomes and ends that agree -/

/-- Outcomes of two calls that agree: answers of which `Q` holds, with states of which `R` holds, or
one refusal. -/
inductive Matched (R : σ → τ → Prop) (Q : α → β → Prop) :
    Except StoreError (α × σ) → Except StoreError (β × τ) → Prop
  | answered {a : α} {s : σ} {b : β} {t : τ} : Q a b → R s t → Matched R Q (.ok (a, s)) (.ok (b, t))
  | refused {e : StoreError} : Matched R Q (.error e) (.error e)

theorem Matched.mono {R R' : σ → τ → Prop} {Q Q' : α → β → Prop} {x : Except StoreError (α × σ)}
    {y : Except StoreError (β × τ)} (h : Matched R Q x y) (hR : ∀ s t, R s t → R' s t)
    (hQ : ∀ a b, Q a b → Q' a b) : Matched R' Q' x y := by
  cases h with
  | answered hab hst => exact .answered (hQ _ _ hab) (hR _ _ hst)
  | refused => exact .refused

/-- States that are related stay so when a call that both serve alike is taken. -/
theorem Matched.step {left : Store σ} {right : Store τ} {c : StoreCall} {now now' : Timestamp}
    {R R' : σ → τ → Prop} {Q : c.Answer → c.Answer → Prop} {s : σ} {t : τ}
    (h : Matched R Q (left.serve c now s) (right.serve c now' t)) (hst : R' s t)
    (hR : ∀ s' t', R s' t' → R' s' t') : R' (left.step c now s).2 (right.step c now' t).2 := by
  unfold Store.step
  generalize left.serve c now s = x at h
  generalize right.serve c now' t = y at h
  cases h with
  | answered _ hst' => exact hR _ _ hst'
  | refused => exact hst

/-- Both states are as they were. -/
def Still (s : σ) (t : τ) (s' : σ) (t' : τ) : Prop :=
  s' = s ∧ t' = t

/-- Ends that agree: answers of which `Q` holds or one error, with states of which `R` holds. -/
inductive SameEnd (R : σ → τ → Prop) (Q : α → β → Prop) :
    Option (Except ServiceError α) × σ → Option (Except ServiceError β) × τ → Prop
  | answered {a : α} {s : σ} {b : β} {t : τ} : R s t → Q a b →
      SameEnd R Q (some (.ok a), s) (some (.ok b), t)
  | failed {e : ServiceError} {s : σ} {t : τ} : R s t →
      SameEnd R Q (some (.error e), s) (some (.error e), t)

/-- Two programs end in the same way, each with its own server. -/
def Agree (server : Server σ) (server' : Server τ) (R : σ → τ → Prop) (Q : α → β → Prop)
    (p : Operation α) (s : σ) (q : Operation β) (t : τ) : Prop :=
  SameEnd R Q (exec p server s) (exec q server' t)

namespace Agree

variable {server : Server σ} {server' : Server τ} {R R' : σ → τ → Prop} {Q : α → β → Prop}
  {Q' : γ → δ → Prop} {p : Operation α} {q : Operation β} {s : σ} {t : τ}

theorem pure {a : α} {b : β} (h : R s t) (hab : Q a b) :
    Agree server server' R Q (Pure.pure a) s (Pure.pure b) t :=
  .answered h hab

theorem throw {e : ServiceError} (h : R s t) :
    Agree server server' R Q (MonadExcept.throw e) s (MonadExcept.throw e) t :=
  .failed h

/-- The ends of programs that agree, taken apart. -/
theorem ends (hpq : Agree server server' R Q p s q t) :
    (∃ a s' b t', exec p server s = (some (.ok a), s') ∧ exec q server' t = (some (.ok b), t') ∧
        R s' t' ∧ Q a b) ∨
      ∃ e s' t', exec p server s = (some (.error e), s') ∧
        exec q server' t = (some (.error e), t') ∧ R s' t' := by
  unfold Agree at hpq
  generalize exec p server s = x at hpq ⊢
  generalize exec q server' t = y at hpq ⊢
  cases hpq with
  | answered h hab => exact .inl ⟨_, _, _, _, rfl, rfl, h, hab⟩
  | failed h => exact .inr ⟨_, _, _, rfl, rfl, h⟩

/-- What agrees is continued in the states and with the answers that it ends in. -/
theorem bind {f : α → Operation γ} {g : β → Operation δ} (hpq : Agree server server' R Q p s q t)
    (hR : ∀ s' t', R s' t' → R' s' t')
    (hfg : ∀ a b s' t', R s' t' → Q a b → Agree server server' R' Q' (f a) s' (g b) t') :
    Agree server server' R' Q' (p >>= f) s (q >>= g) t := by
  unfold Agree at hfg ⊢
  rw [Operation.exec_bind, Operation.exec_bind]
  rcases hpq.ends with ⟨a, s', b, t', hp, hq, h, hab⟩ | ⟨e, s', t', hp, hq, h⟩
  · rw [hp, hq]
    exact hfg a b s' t' h hab
  · rw [hp, hq]
    exact .failed (hR s' t' h)

theorem mono {Q' : α → β → Prop} (hpq : Agree server server' R Q p s q t)
    (hR : ∀ s' t', R s' t' → R' s' t') (hQ : ∀ a b, Q a b → Q' a b) :
    Agree server server' R' Q' p s q t := by
  unfold Agree
  rcases hpq.ends with ⟨a, s', b, t', hp, hq, h, hab⟩ | ⟨e, s', t', hp, hq, h⟩
  · rw [hp, hq]
    exact .answered (hR s' t' h) (hQ a b hab)
  · rw [hp, hq]
    exact .failed (hR s' t' h)

theorem map {f : α → γ} {g : β → δ} (hpq : Agree server server' R Q p s q t)
    (hfg : ∀ a b, Q a b → Q' (f a) (g b)) :
    Agree server server' R Q' (f <$> p) s (g <$> q) t := by
  show Agree server server' R Q' (p >>= fun a => Pure.pure (f a)) s
    (q >>= fun b => Pure.pure (g b)) t
  exact hpq.bind (fun _ _ h => h) fun a b s' t' h hab => .pure h (hfg a b hab)

/-- After programs that only read the states are still the same. -/
theorem read {f : α → Operation γ} {g : β → Operation δ}
    (hpq : Agree server server' (Still s t) Q p s q t) (h : R s t)
    (hfg : ∀ a b, Q a b → Agree server server' R Q' (f a) s (g b) t) :
    Agree server server' R Q' (p >>= f) s (q >>= g) t := by
  refine hpq.bind ?_ ?_
  · rintro s' t' ⟨rfl, rfl⟩
    exact h
  · rintro a b s' t' ⟨rfl, rfl⟩ hab
    exact hfg a b hab

/-- What only reads leaves related states related. -/
theorem of_still (hpq : Agree server server' (Still s t) Q p s q t) (h : R s t) :
    Agree server server' R Q p s q t := by
  refine hpq.mono ?_ fun _ _ hab => hab
  rintro s' t' ⟨rfl, rfl⟩
  exact h

/-- A broken rule is the same error for both. -/
theorem require {f : Unit → Operation γ} {g : Unit → Operation δ} (h : R s t)
    (operation : String) {rule rule' : Except Violation Unit} (hrule : rule' = rule)
    (hfg : rule = .ok () → Agree server server' R Q' (f ()) s (g ()) t) :
    Agree server server' R Q' (Operation.require operation rule >>= f) s
      (Operation.require operation rule' >>= g) t := by
  subst hrule
  cases hr : rule' with
  | error v => exact .failed h
  | ok u => exact hfg hr

/-- A guard that looks at the same things stops both. -/
theorem guard {c c' : Prop} [Decidable c] [Decidable c'] {e : ServiceError}
    {f : PUnit → Operation γ} {g : PUnit → Operation δ} (h : R s t) (hc' : c' ↔ c)
    (hfg : ¬c → Agree server server' R Q' (f ⟨⟩) s (g ⟨⟩) t) :
    Agree server server' R Q' (if c then MonadExcept.throw e >>= f else f ⟨⟩) s
      (if c' then MonadExcept.throw e >>= g else g ⟨⟩) t := by
  by_cases hc : c
  · rw [if_pos hc, if_pos (hc'.2 hc)]
    exact .failed h
  · rw [if_neg hc, if_neg (fun h => hc (hc'.1 h))]
    exact hfg hc

/-! ## Checks of arguments -/

variable {f : Unit → Operation γ} {g : Unit → Operation δ}

theorem requireId (h : R s t) (operation : String) (kind : Kind) (id : Uuid)
    (hfg : Agree server server' R Q' (f ()) s (g ()) t) :
    Agree server server' R Q' (Operation.requireId operation kind id >>= f) s
      (Operation.requireId operation kind id >>= g) t := by
  unfold Operation.requireId
  by_cases hnil : id.isNil
  · rw [if_pos hnil]
    exact .failed h
  · rw [if_neg hnil]
    exact hfg

theorem requireSpace (h : R s t) (operation : String) (space : Uuid)
    (hfg : Agree server server' R Q' (f ()) s (g ()) t) :
    Agree server server' R Q' (Operation.requireSpace operation space >>= f) s
      (Operation.requireSpace operation space >>= g) t := by
  unfold Operation.requireSpace
  by_cases hnil : space.isNil
  · rw [if_pos hnil]
    exact .failed h
  · rw [if_neg hnil]
    exact hfg

/-! ## Calls -/

variable {left : Store σ} {right : Store τ} {now now' : Timestamp}

/-- Outcomes of two stores that agree are the ends of two programs that agree. -/
theorem ask (c c' : StoreCall) {Q : c.Answer → c'.Answer → Prop} (h : R s t)
    (hserve : Matched R Q (left.serve c now s) (right.serve c' now' t)) (operation : String) :
    Agree (left.server now) (right.server now') R Q (Operation.ask operation c) s
      (Operation.ask operation c') t := by
  unfold Agree
  rw [Operation.exec_ask, Operation.exec_ask]
  generalize left.serve c now s = x at hserve
  generalize right.serve c' now' t = y at hserve
  cases hserve with
  | answered hab hst => exact .answered hst hab
  | refused => exact .failed h

/-- A call that is made again after a conflict. -/
theorem retrying_ask (c c' : StoreCall) {Q : c.Answer → c'.Answer → Prop} (h : R s t)
    (hserve : Matched R Q (left.serve c now s) (right.serve c' now' t)) (operation : String)
    (retries : Nat) :
    Agree (left.server now) (right.server now') R Q
      (Operation.retrying retries (Operation.ask operation c)) s
      (Operation.retrying retries (Operation.ask operation c')) t := by
  unfold Agree
  rw [Operation.exec_retrying_ask, Operation.exec_retrying_ask]
  exact ask c c' h hserve operation

end Agree

/-! ## Linked states -/

namespace StoreCall

/-- The calls that write and bring no payload along, with what a service has found out before it
makes them. Here `got id n` says that it got `n` for `id`, and `opened` which spaces it may name. -/
inductive Prepared (got : Uuid → Node → Prop) (opened : Uuid → Prop) : StoreCall → Prop
  | delete {id : Uuid} {n : Node} : got id n → Prepared got opened (.delete n.space id)
  | moveLast {id : Uuid} {parent : Option Uuid} {n : Node} : got id n →
      (∀ p, parent = some p → ∃ q, got p q ∧ q.space = n.space) →
      Prepared got opened (.moveLast id parent)
  | moveAt {id : Uuid} {parent : Option Uuid} {sort : SortKey} {n : Node} : got id n →
      (∀ p, parent = some p → ∃ q, got p q ∧ q.space = n.space) →
      Prepared got opened (.moveAt id parent sort)
  | reorder {id : Uuid} {sort : SortKey} {n : Node} : got id n →
      Prepared got opened (.reorder id sort)
  | moveBeside {id anchor : Uuid} {side : Side} {n a : Node} : got id n → got anchor a →
      a.space = n.space → Prepared got opened (.moveBeside id anchor side)
  | renumber {group : Group} : opened group.space →
      (∀ p, group.parent = some p → ∃ q, got p q ∧ q.space = group.space) →
      Prepared got opened (.renumber group)

/-- Answers that are related node by node. -/
def Related (N : Node → Node → Prop) : (c : StoreCall) → c.Answer → c.Answer → Prop
  | .get _, n, m => N n m
  | .create _, n, m => N n m
  | .createLast _, n, m => N n m
  | .update _ _, n, m => N n m
  | .moveLast _ _, n, m => N n m
  | .moveAt _ _ _, n, m => N n m
  | .reorder _ _, n, m => N n m
  | .moveBeside _ _ _, n, m => N n m
  | .list _, ns, ms => List.Forall₂ N ns ms
  | .renumber _, ns, ms => List.Forall₂ N ns ms
  | .delete _ _, n, m => n = m
  | .nextSort _, a, b => a = b

end StoreCall

/-- The service got `n` for an identifier that it may name. -/
def Store.Got (store : Store σ) (now : Timestamp) (s : σ) (near : Uuid → Prop) (id : Uuid)
    (n : Node) : Prop :=
  near id ∧ store.serve (.get id) now s = .ok (n, s)

/-- Two stores in states that a service cannot tell apart by the places of nodes, as long as it
names nothing but `near` identifiers and `opened` spaces. Nodes that are answered are related by
`N`, and states after a call that writes by `R`. -/
structure Linked (left : Store σ) (right : Store τ) (now now' : Timestamp) (R : σ → τ → Prop)
    (N : Node → Node → Prop) (near opened : Uuid → Prop) (s : σ) (t : τ) : Prop where
  related : R s t
  place   : ∀ {n m}, N n m →
              m.id = n.id ∧ m.space = n.space ∧ m.kind = n.kind ∧ m.parent = n.parent
  around  : ∀ {id n}, left.Got now s near id n →
              near n.id ∧ opened n.space ∧ ∀ p, n.parent = some p → near p
  gets    : ∀ {id}, near id →
              Matched (Still s t) N (left.serve (.get id) now s) (right.serve (.get id) now' t)
  lists   : ∀ {group : Group}, opened group.space → (∀ p, group.parent = some p → near p) →
              Matched (Still s t) (List.Forall₂ fun n m => N n m ∧ near n.id)
                (left.serve (.list group) now s) (right.serve (.list group) now' t)
  writes  : ∀ {c : StoreCall}, c.Prepared (left.Got now s near) opened →
              Matched R (c.Related N) (left.serve c now s) (right.serve c now' t)

namespace Linked

variable {left : Store σ} {right : Store τ} {now now' : Timestamp} {R : σ → τ → Prop}
  {N : Node → Node → Prop} {near opened : Uuid → Prop} {s : σ} {t : τ}
  (h : Linked left right now now' R N near opened s t)
include h

/-- What the one finds, the other finds as well. -/
theorem exists_got {id : Uuid} {n : Node} (hn : left.Got now s near id n) :
    ∃ m, right.serve (.get id) now' t = .ok (m, t) ∧ N n m := by
  have hget := h.gets hn.1
  rw [hn.2] at hget
  generalize hy : right.serve (.get id) now' t = y at hget
  cases hget with
  | @answered _ _ m _ hnm hst =>
    obtain ⟨-, rfl⟩ := hst
    exact ⟨m, rfl, hnm⟩

/-- A node is found by both or by neither. -/
theorem fetch (operation : String) {id : Uuid} (hid : near id) :
    Agree (left.server now) (right.server now') (Still s t)
      (fun n m => left.Got now s near id n ∧ N n m)
      (Operation.fetch operation id) s (Operation.fetch operation id) t := by
  have hget := h.gets hid
  unfold Agree
  rw [Operation.fetch, Operation.exec_ask, Operation.exec_ask]
  generalize hx : left.serve (.get id) now s = x at hget
  generalize right.serve (.get id) now' t = y at hget
  cases hget with
  | answered hnm hst =>
    obtain ⟨rfl, rfl⟩ := hst
    exact .answered ⟨rfl, rfl⟩ ⟨⟨hid, hx⟩, hnm⟩
  | refused => exact .failed ⟨rfl, rfl⟩

/-- A node of the kind that the operation is for. -/
theorem fetchKind (operation : String) (kind : Kind) {id : Uuid} (hid : near id) :
    Agree (left.server now) (right.server now') (Still s t)
      (fun n m => left.Got now s near id n ∧ N n m)
      (Operation.fetchKind operation kind id) s (Operation.fetchKind operation kind id) t := by
  refine (h.fetch operation hid).read ⟨rfl, rfl⟩ fun n m ⟨hn, hnm⟩ => ?_
  have hkind : checkKind m kind = checkKind n kind := by
    obtain ⟨hid, -, hkind, -⟩ := h.place hnm
    rw [checkKind, hid, hkind, checkKind]
  exact Agree.require ⟨rfl, rfl⟩ operation hkind fun _ => .pure ⟨rfl, rfl⟩ ⟨hn, hnm⟩

/-- The parent of a request, if it has one, is looked up. -/
theorem fetchParent (operation : String) {parent : Option Uuid}
    (hparent : ∀ p, parent = some p → near p) :
    Agree (left.server now) (right.server now') (Still s t)
      (fun a b => Option.Rel N a b ∧
        ∀ p, parent = some p → ∃ n, a = some n ∧ left.Got now s near p n)
      (Operation.fetchParent operation parent) s (Operation.fetchParent operation parent) t := by
  cases parent with
  | none => exact .pure ⟨rfl, rfl⟩ ⟨.none, fun p hp => by cases hp⟩
  | some p =>
    refine (h.fetch operation (hparent p rfl)).read ⟨rfl, rfl⟩ fun n m ⟨hn, hnm⟩ =>
      .pure ⟨rfl, rfl⟩ ⟨.some hnm, fun p' hp => ?_⟩
    rw [← Option.some.inj hp]
    exact ⟨n, rfl, hn⟩

/-- A parent is judged by its place and kind. -/
theorem checkParent_eq {a b : Option Node} (hab : Option.Rel N a b) (kind : Kind) (space : Uuid) :
    checkParent kind space b = checkParent kind space a := by
  cases hab with
  | none => rfl
  | some hnm =>
    obtain ⟨hid, hspace, hkind, -⟩ := h.place hnm
    unfold checkParent
    dsimp only
    rw [hid, hspace, hkind]

omit h in
/-- A parent that passed the check is in the space. -/
theorem parent_of_checked {kind : Kind} {space : Uuid} {parent : Option Uuid} {a : Option Node}
    (hparent : ∀ p, parent = some p → ∃ n, a = some n ∧ left.Got now s near p n)
    (hok : checkParent kind space a = .ok ()) :
    ∀ p, parent = some p → ∃ q, left.Got now s near p q ∧ q.space = space := by
  intro p hp
  obtain ⟨n, rfl, hn⟩ := hparent p hp
  exact ⟨n, hn, (checkParent_eq_ok_iff.1 hok).1⟩

end Linked

end Outline
