import Outline.Store.Call

/-!
# Runs of a store

A run is a sequence of calls, each at its own time, refused ones included. What every successful
call keeps holds after every run.

Main results:

* `Store.step_keeps` — from a call that succeeds to any call;
* `Store.run_induction` — from one call to all runs.
-/

namespace Outline

namespace Store

variable {σ : Type} (store : Store σ)

/-- The state after calls made one after the other. -/
def run : List (StoreCall × Timestamp) → σ → σ
  | [], s => s
  | (c, now) :: rest, s => run rest (store.step c now s).2

variable {store}

/-- A call is answered with a refusal when it is not served. -/
theorem step_error_iff {c : StoreCall} {now : Timestamp} {s : σ} {e : StoreError} :
    (store.step c now s).1 = .error e ↔ store.serve c now s = .error e := by
  unfold step
  cases store.serve c now s with
  | ok answered => simp
  | error e' => simp

/-- A refused call has no effect, so only a successful one has to be looked at. -/
theorem step_keeps {P : σ → Prop} {c : StoreCall} {now : Timestamp} {s : σ} (hs : P s)
    (hserve : ∀ answer s', store.serve c now s = .ok (answer, s') → P s') :
    P (store.step c now s).2 := by
  unfold step
  split
  · next answer s' hserved => exact hserve answer s' hserved
  · exact hs

/-- What every successful call keeps holds after every run. -/
theorem run_induction {P : σ → Prop}
    (hserve : ∀ c now s answer s', P s → store.serve c now s = .ok (answer, s') → P s')
    (calls : List (StoreCall × Timestamp)) {s : σ} (hs : P s) : P (store.run calls s) := by
  induction calls generalizing s with
  | nil => exact hs
  | cons call rest ih =>
    obtain ⟨c, now⟩ := call
    exact ih (step_keeps hs fun answer s' => hserve c now s answer s' hs)

end Store

end Outline
