/-!
# Steps that may fail

What a step and the rest after it have done where they gave a result, and where they gave an
error. A list of steps is inverted one step at a time, and a run keeps what each of its steps
keeps; what is proved of runs cites these, and opens no bind.

## Main statements

* `exists_of_bind_eq_ok`, `error_of_bind_eq_error` — a step and the rest.
* `foldlM_invariant`, `foldlM_map_state` — a list of steps.
-/
namespace PatternAutomata

section Bind

variable {α β ε : Type} {x : Except ε α} {f : α → Except ε β} {b : β} {e : ε}

theorem exists_of_bind_eq_ok (h : x >>= f = .ok b) : ∃ a, x = .ok a ∧ f a = .ok b := by
  cases x with
  | error e => cases h
  | ok a => exact ⟨a, rfl, h⟩

theorem error_of_bind_eq_error (h : x >>= f = .error e) :
    x = .error e ∨ ∃ a, x = .ok a ∧ f a = .error e := by
  cases x with
  | error e' =>
    cases h
    exact .inl rfl
  | ok a => exact .inr ⟨a, rfl, h⟩

theorem exists_of_isOk (h : x.isOk = true) : ∃ a, x = .ok a := by
  cases x with
  | error e => cases h
  | ok a => exact ⟨a, rfl⟩

end Bind

section Run

variable {α σ ε : Type} {step : σ → α → Except ε σ} {x : α} {xs : List α} {s s' : σ}

theorem exists_of_foldlM_cons_eq_ok (h : (x :: xs).foldlM step s = .ok s') :
    ∃ s₁, step s x = .ok s₁ ∧ xs.foldlM step s₁ = .ok s' := by
  rw [List.foldlM_cons] at h
  exact exists_of_bind_eq_ok h

theorem foldlM_invariant (P : σ → Prop) (hstep : ∀ ⦃s x s'⦄, P s → step s x = .ok s' → P s')
    (hs : P s) (h : xs.foldlM step s = .ok s') : P s' := by
  induction xs generalizing s with
  | nil =>
    obtain rfl := Except.ok.inj h
    exact hs
  | cons x xs ih =>
    obtain ⟨s₁, hs₁, h⟩ := exists_of_foldlM_cons_eq_ok h
    exact ih (hstep hs hs₁) h

/-- Steps on states that stand for others, one step each, lead to the state that stands for where
the others lead to. -/
theorem foldlM_map_state {τ : Type} {step' : τ → α → Except ε τ} {f : σ → τ}
    (hstep : ∀ s x, step' (f s) x = (step s x).map f) (xs : List α) (s : σ) :
    xs.foldlM step' (f s) = (xs.foldlM step s).map f := by
  induction xs generalizing s with
  | nil => rfl
  | cons x xs ih =>
    rw [List.foldlM_cons, List.foldlM_cons, hstep]
    cases step s x with
    | error e => rfl
    | ok s₁ => exact ih s₁

end Run

end PatternAutomata
