import Mathlib

/-!
Fallible computations: a computation that may abort is an `Except`, and a proof
about it takes a successful (or failed) result apart bind by bind.
-/

namespace Eden.ExceptReasoning

universe u

variable {ε : Type u} {α β : Type u}

/-- Continue if the condition holds, abort with `e` otherwise. -/
def ensure {ε : Type u} (condition : Bool) (e : ε) : Except ε PUnit.{u + 1} :=
  if condition then .ok ⟨⟩ else .error e

/-- The value of an option, or abort with `e`. -/
def expect {ε α : Type u} (value : Option α) (e : ε) : Except ε α :=
  match value with
  | some a => .ok a
  | none => .error e

theorem bind_eq_ok {x : Except ε α} {f : α → Except ε β} {b : β} :
    (x >>= f) = .ok b ↔ ∃ a, x = .ok a ∧ f a = .ok b := by
  cases x with
  | error e => simp [bind, Except.bind]
  | ok a => simp [bind, Except.bind]

theorem bind_eq_error {x : Except ε α} {f : α → Except ε β} {e : ε} :
    (x >>= f) = .error e ↔ x = .error e ∨ ∃ a, x = .ok a ∧ f a = .error e := by
  cases x with
  | error e' => simp [bind, Except.bind]
  | ok a => simp [bind, Except.bind]

@[simp] theorem pure_eq_ok {a b : α} : (pure a : Except ε α) = .ok b ↔ a = b := by
  simp [pure, Except.pure]

@[simp] theorem pure_ne_error {a : α} {e : ε} : (pure a : Except ε α) ≠ .error e := by
  simp [pure, Except.pure]

@[simp] theorem ok_bind {a : α} {f : α → Except ε β} :
    ((Except.ok a : Except ε α) >>= f) = f a := rfl

@[simp] theorem error_bind {e : ε} {f : α → Except ε β} :
    ((Except.error e : Except ε α) >>= f) = .error e := rfl

@[simp] theorem ensure_eq_ok {condition : Bool} {e : ε} {x : PUnit.{u + 1}} :
    ensure condition e = .ok x ↔ condition = true := by
  cases condition <;> simp [ensure]

@[simp] theorem ensure_eq_error {condition : Bool} {e e' : ε} :
    ensure condition e = .error e' ↔ condition = false ∧ e = e' := by
  cases condition <;> simp [ensure]

theorem ensure_bind_eq_ok {condition : Bool} {e : ε} {f : PUnit.{u + 1} → Except ε β} {b : β} :
    (ensure condition e >>= f) = .ok b ↔ condition = true ∧ f ⟨⟩ = .ok b := by
  cases condition <;> simp [ensure]

theorem ensure_bind_eq_error {condition : Bool} {e e' : ε} {f : PUnit.{u + 1} → Except ε β} :
    (ensure condition e >>= f) = .error e' ↔
      (condition = false ∧ e = e') ∨ (condition = true ∧ f ⟨⟩ = .error e') := by
  cases condition <;> simp [ensure]

@[simp] theorem ensure_true {e : ε} : ensure true e = .ok ⟨⟩ := rfl

@[simp] theorem expect_eq_ok {value : Option α} {e : ε} {a : α} :
    expect value e = .ok a ↔ value = some a := by
  cases value <;> simp [expect]

@[simp] theorem expect_eq_error {value : Option α} {e e' : ε} :
    expect value e = .error e' ↔ value = none ∧ e = e' := by
  cases value <;> simp [expect]

@[simp] theorem expect_some {a : α} {e : ε} : expect (some a) e = .ok a := rfl

theorem ok_of_toOption {x : Except ε α} {a : α} (h : x.toOption = some a) : x = .ok a := by
  cases x with
  | error e => exact absurd h (by simp [Except.toOption])
  | ok b =>
      rw [Except.toOption, Option.some.injEq] at h
      rw [h]

/-- Every successful result of a fold keeps what each successful step keeps. -/
theorem foldlM_preserves {σ : Type u} {step : σ → α → Except ε σ} (Inv : σ → Prop)
    (hstep : ∀ s a s', step s a = .ok s' → Inv s → Inv s') :
    ∀ (l : List α) {s s' : σ}, l.foldlM step s = .ok s' → Inv s → Inv s' := by
  intro l
  induction l with
  | nil =>
      intro s s' h hs
      simp only [List.foldlM_nil, pure_eq_ok] at h
      exact h ▸ hs
  | cons a l ih =>
      intro s s' h hs
      rw [List.foldlM_cons, bind_eq_ok] at h
      obtain ⟨t, ht, hrest⟩ := h
      exact ih hrest (hstep s a t ht hs)

/-- A sequence fails with `e` only if one of its parts does. -/
theorem bind_ne_error {x : Except ε α} {f : α → Except ε β} {e : ε} (hx : x ≠ .error e)
    (hf : ∀ a, x = .ok a → f a ≠ .error e) : (x >>= f) ≠ .error e := by
  intro h
  rcases bind_eq_error.mp h with herror | ⟨a, ha, herror⟩
  · exact hx herror
  · exact hf a ha herror

/-- A fold fails with `e` only if one of its steps does; `Inv` relates what is left of the list and
the state. -/
theorem foldlM_ne_error {σ : Type u} {step : σ → α → Except ε σ} {e : ε} (Inv : List α → σ → Prop)
    (hstep : ∀ a l s, Inv (a :: l) s → step s a ≠ .error e)
    (hnext : ∀ a l s s', Inv (a :: l) s → step s a = .ok s' → Inv l s') {l : List α} {s : σ}
    (hs : Inv l s) : l.foldlM step s ≠ .error e := by
  induction l generalizing s with
  | nil => exact pure_ne_error
  | cons a l ih =>
      rw [List.foldlM_cons]
      exact bind_ne_error (hstep a l s hs) fun t ht => ih (hnext a l s t hs ht)

end Eden.ExceptReasoning
