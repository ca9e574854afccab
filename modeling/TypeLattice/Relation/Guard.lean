/-!
# Guards

Types can refer back to themselves, so comparing two of them can come to the same pair again. A
guard holds the pairs whose comparison is in progress; a pair that is met again while it is in
progress is taken to hold, and the comparison is not entered a second time.
-/

namespace TypeLattice

/-- The ordered pairs being compared, innermost first. -/
structure Guard (κ : Type) where
  inProgress : List (κ × κ) := []
  deriving DecidableEq, Repr

namespace Guard

variable {κ : Type} {m : Type → Type}

def depth (g : Guard κ) : Nat := g.inProgress.length

def enter (g : Guard κ) (a b : κ) : Guard κ := ⟨(a, b) :: g.inProgress⟩

def leave [DecidableEq κ] (g : Guard κ) (a b : κ) : Guard κ := ⟨g.inProgress.erase (a, b)⟩

@[simp] theorem leave_enter [DecidableEq κ] (g : Guard κ) (a b : κ) :
    (g.enter a b).leave a b = g := by
  simp [enter, leave]

/-- Compares with the pair `(a, b)` in progress, unless it is in progress already. -/
def run [DecidableEq κ] [Monad m] (a b : κ) (compare : StateT (Guard κ) m Bool) :
    StateT (Guard κ) m Bool := do
  if (a, b) ∈ (← get).inProgress then
    return true
  else
    modify (·.enter a b)
    let result ← compare
    modify (·.leave a b)
    return result

/-- Asks `y` only if `x` holds. -/
def both [Monad m] (x y : m Bool) : m Bool := do
  if ← x then y else pure false

end Guard
end TypeLattice
