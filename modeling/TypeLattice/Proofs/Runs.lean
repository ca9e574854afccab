import TypeLattice.Error

/-!
# Running computations one after the other

Steps of computations that keep their state when they fail.
-/
namespace TypeLattice.Runs

variable {ε σ α β : Type} {x : EStateM ε σ α} {f : α → EStateM ε σ β} {s s' : σ} {a : α} {b : β}
  {e : ε}

theorem get_eq : (get : EStateM ε σ σ) s = .ok s s := rfl

theorem modify_eq (f : σ → σ) : (modify f : EStateM ε σ Unit) s = .ok () (f s) := rfl

theorem bind_of_ok (h : x s = .ok a s') : (x >>= f) s = f a s' := by
  simp only [bind, EStateM.bind, h]

theorem bind_of_error (h : x s = .error e s') : (x >>= f) s = .error e s' := by
  simp only [bind, EStateM.bind, h]

theorem of_bind_ok (h : (x >>= f) s = .ok b s') :
    ∃ a s₁, x s = .ok a s₁ ∧ f a s₁ = .ok b s' := by
  cases hx : x s with
  | ok a s₁ => exact ⟨a, s₁, rfl, by rwa [bind_of_ok hx] at h⟩
  | error e s₁ =>
    rw [bind_of_error hx] at h
    cases h

theorem map_congr {y : EStateM ε σ α} (g : α → β) (h : x s = y s) : (g <$> x) s = (g <$> y) s := by
  change EStateM.map g x s = EStateM.map g y s
  rw [EStateM.map, EStateM.map, h]

/-- The end of a computation in a state, with a result or an error. -/
def ending (r : Except ε α) (s : σ) : EStateM.Result ε σ α :=
  match r with
  | .ok a => .ok a s
  | .error e => .error e s

theorem map_of_ending {r : Except ε α} (g : α → β) (h : x s = ending r s') :
    (g <$> x) s = ending (r.map g) s' := by
  change EStateM.map g x s = _
  rw [EStateM.map, h]
  cases r <;> rfl

end TypeLattice.Runs
