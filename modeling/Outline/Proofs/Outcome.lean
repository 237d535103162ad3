/-!
# Outcomes taken apart

A sequence of steps that may be refused succeeds exactly when each step does. The lemmas here read
a sequence back into its steps, a successful one into all of them.
-/

namespace Outline

variable {ε ε' α β : Type}

theorem bind_eq_ok_iff {x : Except ε α} {f : α → Except ε β} {b : β} :
    (x >>= f) = .ok b ↔ ∃ a, x = .ok a ∧ f a = .ok b := by
  cases x <;> simp [bind, Except.bind]

theorem map_eq_ok_iff {x : Except ε α} {f : α → β} {b : β} :
    x.map f = .ok b ↔ ∃ a, x = .ok a ∧ f a = b := by
  cases x <;> simp [Except.map]

theorem map_eq_error_iff {x : Except ε α} {f : α → β} {e : ε} :
    x.map f = .error e ↔ x = .error e := by
  cases x <;> simp [Except.map]

theorem bind_eq_error_iff {x : Except ε α} {f : α → Except ε β} {e : ε} :
    (x >>= f) = .error e ↔ x = .error e ∨ ∃ a, x = .ok a ∧ f a = .error e := by
  cases x <;> simp [bind, Except.bind]

theorem map_bind {γ : Type} (x : Except ε α) (f : α → Except ε β) (g : β → γ) :
    (x >>= f).map g = x >>= fun a => (f a).map g := by
  cases x <;> rfl

/-- Steps that are images of the steps of another sequence make an image of the sequence. -/
theorem bind_eq_map {α' β' : Type} {x : Except ε α} {x' : Except ε α'} {m : α → α'}
    {f : α → Except ε β} {f' : α' → Except ε β'} {g : β → β'} (hx : x' = x.map m)
    (hf : ∀ a, x = .ok a → f' (m a) = (f a).map g) : (x' >>= f') = (x >>= f).map g := by
  subst hx
  cases x with
  | ok a => exact hf a rfl
  | error e => rfl

/-- The same when a step is the same in both. -/
theorem bind_eq_map_of_same {β' : Type} {x : Except ε α} {f : α → Except ε β}
    {f' : α → Except ε β'} {g : β → β'} (hf : ∀ a, x = .ok a → f' a = (f a).map g) :
    (x >>= f') = (x >>= f).map g := by
  cases x with
  | ok a => exact hf a rfl
  | error e => rfl

theorem pure_eq_ok_iff {a b : α} : (pure a : Except ε α) = .ok b ↔ a = b := by
  simp [pure, Except.pure]

@[simp] theorem bind_ok (a : α) (f : α → Except ε β) : (Except.ok a >>= f) = f a := rfl

@[simp] theorem bind_error (e : ε) (f : α → Except ε β) :
    ((Except.error e : Except ε α) >>= f) = .error e := rfl

@[simp] theorem mapError_ok (a : α) (f : ε → ε') :
    (Except.ok a : Except ε α).mapError f = .ok a := rfl

@[simp] theorem mapError_error (e : ε) (f : ε → ε') :
    (Except.error e : Except ε α).mapError f = .error (f e) := rfl

theorem mapError_eq_ok_iff {x : Except ε α} {f : ε → ε'} {a : α} :
    x.mapError f = .ok a ↔ x = .ok a := by
  cases x <;> simp

theorem mapError_eq_error_iff {x : Except ε α} {f : ε → ε'} {e : ε'} :
    x.mapError f = .error e ↔ ∃ e', x = .error e' ∧ f e' = e := by
  cases x <;> simp

theorem exists_eq_ok_of_isOk {x : Except ε α} (h : x.isOk = true) : ∃ a, x = .ok a := by
  cases x with
  | ok a => exact ⟨a, rfl⟩
  | error e => exact absurd h Bool.false_ne_true

theorem exists_eq_error_of_isOk {x : Except ε α} (h : x.isOk = false) : ∃ e, x = .error e := by
  cases x with
  | ok a => exact absurd h.symm Bool.false_ne_true
  | error e => exact ⟨e, rfl⟩

/-- What a sequence was stopped by, whatever it would have given. -/
def refusal? : Except ε α → Option ε
  | .ok _ => none
  | .error e => some e

theorem refusal?_eq_some_iff {x : Except ε α} {e : ε} : refusal? x = some e ↔ x = .error e := by
  cases x <;> simp [refusal?]

/-- A check that stops the sequence has to be passed. -/
theorem guard_eq_ok_iff {c : Prop} [Decidable c] {e : ε} {f : PUnit → Except ε β} {b : β} :
    (if c then (throw e : Except ε PUnit) >>= f else f PUnit.unit) = .ok b ↔
      ¬c ∧ f PUnit.unit = .ok b := by
  by_cases h : c <;> simp [h, throw, throwThe, MonadExceptOf.throw]

/-- Reading each item of a list succeeds exactly when every item can be read. -/
theorem mapM_eq_ok_of_forall {f : α → Except ε β} {g : α → β} {l : List α}
    (h : ∀ a ∈ l, f a = .ok (g a)) : l.mapM f = .ok (l.map g) := by
  induction l with
  | nil => rfl
  | cons a rest ih =>
    rw [List.mapM_cons, h a (by simp), ih fun b hb => h b (by simp [hb])]
    rfl

theorem exists_mapM_eq_ok {f : α → Except ε β} {l : List α} (h : ∀ a ∈ l, ∃ b, f a = .ok b) :
    ∃ bs, l.mapM f = .ok bs := by
  induction l with
  | nil => exact ⟨[], rfl⟩
  | cons a rest ih =>
    obtain ⟨b, hb⟩ := h a (by simp)
    obtain ⟨bs, hbs⟩ := ih fun c hc => h c (by simp [hc])
    exact ⟨b :: bs, by rw [List.mapM_cons, hb, hbs]; rfl⟩

/-- Reading images of the items gives the images of what is read. -/
theorem mapM_eq_map {α' β' : Type} {f : α → Except ε β} {f' : α' → Except ε β'} {m : α → α'}
    {g : β → β'} {l : List α} (h : ∀ a ∈ l, f' (m a) = (f a).map g) :
    (l.map m).mapM f' = (l.mapM f).map (List.map g) := by
  induction l with
  | nil => rfl
  | cons a rest ih =>
    rw [List.map_cons, List.mapM_cons, List.mapM_cons]
    refine bind_eq_map (h a (by simp)) fun b _ => ?_
    exact bind_eq_map (ih fun c hc => h c (by simp [hc])) fun bs _ => rfl

theorem exists_of_mem_mapM {f : α → Except ε β} {l : List α} {bs : List β}
    (h : l.mapM f = .ok bs) {b : β} (hb : b ∈ bs) : ∃ a ∈ l, f a = .ok b := by
  induction l generalizing bs with
  | nil =>
    cases h
    cases hb
  | cons a rest ih =>
    rw [List.mapM_cons] at h
    obtain ⟨c, hc, h⟩ := bind_eq_ok_iff.1 h
    obtain ⟨cs, hcs, h⟩ := bind_eq_ok_iff.1 h
    cases h
    rcases List.mem_cons.1 hb with rfl | hb
    · exact ⟨a, by simp, hc⟩
    · obtain ⟨a', ha', hfa⟩ := ih hcs hb
      exact ⟨a', by simp [ha'], hfa⟩

/-- A reading that fails does so at one of the items. -/
theorem exists_of_mapM_eq_error {f : α → Except ε β} {l : List α} {e : ε}
    (h : l.mapM f = .error e) : ∃ a ∈ l, f a = .error e := by
  induction l with
  | nil => cases h
  | cons a rest ih =>
    rw [List.mapM_cons] at h
    cases ha : f a with
    | error e' =>
      rw [ha, bind_error] at h
      obtain rfl := Except.error.inj h
      exact ⟨a, by simp, ha⟩
    | ok b =>
      rw [ha, bind_ok] at h
      cases hrest : rest.mapM f with
      | error e' =>
        rw [hrest, bind_error] at h
        obtain rfl := Except.error.inj h
        obtain ⟨a', ha', hfa⟩ := ih hrest
        exact ⟨a', by simp [ha'], hfa⟩
      | ok bs =>
        rw [hrest] at h
        cases h

/-- A reading that succeeds does so at each of the items. -/
theorem forall_of_mapM_eq_ok {f : α → Except ε β} {l : List α} {bs : List β}
    (h : l.mapM f = .ok bs) : ∀ a ∈ l, ∃ b, f a = .ok b := by
  induction l generalizing bs with
  | nil => intro a ha; cases ha
  | cons a rest ih =>
    rw [List.mapM_cons] at h
    obtain ⟨b, hb, h⟩ := bind_eq_ok_iff.1 h
    obtain ⟨cs, hcs, -⟩ := bind_eq_ok_iff.1 h
    intro a' ha'
    rcases List.mem_cons.1 ha' with rfl | ha'
    · exact ⟨b, hb⟩
    · exact ih hcs a' ha'

/-! ## The state after a call -/

/-- The state that comes with a result, if there is one, has the property `P`. -/
def LeadsTo {σ : Type} (P : σ → Prop) (outcome : Except ε (α × σ)) : Prop :=
  ∀ a s, outcome = .ok (a, s) → P s

namespace LeadsTo

variable {σ : Type} {P : σ → Prop}

theorem bind {x : Except ε α} {f : α → Except ε (β × σ)}
    (hf : ∀ a, x = .ok a → LeadsTo P (f a)) : LeadsTo P (x >>= f) := by
  intro b s hs
  obtain ⟨a, ha, hs⟩ := bind_eq_ok_iff.1 hs
  exact hf a ha b s hs

theorem pure {a : α} {s : σ} (h : P s) : LeadsTo P (Pure.pure (a, s) : Except ε (α × σ)) := by
  intro b t ht
  cases ht
  exact h

theorem error {e : ε} : LeadsTo P (.error e : Except ε (α × σ)) := by
  intro a s hs
  cases hs

/-- A check that stops the sequence leads nowhere. -/
theorem guard {c : Prop} [Decidable c] {e : ε} {f : PUnit → Except ε (α × σ)}
    (hf : ¬c → LeadsTo P (f ⟨⟩)) :
    LeadsTo P (if c then (throw e : Except ε PUnit) >>= f else f ⟨⟩) := by
  by_cases hc : c
  · rw [if_pos hc]
    exact error
  · rw [if_neg hc]
    exact hf hc

end LeadsTo

end Outline
