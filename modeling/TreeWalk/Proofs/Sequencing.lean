/-!
# One computation behind another

Parsers, the machine and sessions all do one thing after the other, and stop at the first error. What two parts do
together is read off what each of them does, so nothing else opens how they are put together.
-/

namespace TreeWalk

variable {ε σ α β : Type} {x y : EStateM ε σ α} {f : α → EStateM ε σ β} {s s' : σ}

theorem bind_eq_match (x : EStateM ε σ α) (f : α → EStateM ε σ β) (s : σ) :
    (x >>= f) s = match x s with
      | .ok a s' => f a s'
      | .error e s' => .error e s' := rfl

theorem bind_ok {a : α} (h : x s = .ok a s') : (x >>= f) s = f a s' := by
  rw [bind_eq_match, h]

theorem bind_error {e : ε} (h : x s = .error e s') : (x >>= f) s = .error e s' := by
  rw [bind_eq_match, h]

/-- Where both together succeed, the first succeeds, and the second behind it. -/
theorem ok_of_bind_ok {b : β} (h : (x >>= f) s = .ok b s') : ∃ a s₁, x s = .ok a s₁ ∧ f a s₁ = .ok b s' := by
  rw [bind_eq_match] at h
  cases hx : x s with
  | error e s₁ =>
    rw [hx] at h
    cases h
  | ok a s₁ =>
    rw [hx] at h
    exact ⟨a, s₁, rfl, h⟩

/-- Where both together fail, the first fails, or it succeeds and the second fails behind it. -/
theorem error_of_bind_error {e : ε} (h : (x >>= f) s = .error e s') :
    x s = .error e s' ∨ ∃ a s₁, x s = .ok a s₁ ∧ f a s₁ = .error e s' := by
  rw [bind_eq_match] at h
  cases hx : x s with
  | error e' s₁ =>
    rw [hx] at h
    cases h
    exact .inl rfl
  | ok a s₁ =>
    rw [hx] at h
    exact .inr ⟨a, s₁, rfl, h⟩

/-- Only what the first part does in the state that it is run in matters. -/
theorem bind_congr_first (h : x s = y s) (f : α → EStateM ε σ β) : (x >>= f) s = (y >>= f) s := by
  rw [bind_eq_match, h, bind_eq_match]

end TreeWalk
