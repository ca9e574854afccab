import TypeLattice.Iterator.World
/-!
# Drivers

What uses up an iterator: a loop that pulls it and gives the elements to functions.
-/

namespace TypeLattice

variable {κ σ α : Type}

/-- A driver and the functions it calls, by what it gives in the end. -/
inductive Driver (κ σ : Type) : Type → Type where
  | each (consume : Value → Run κ σ (Flow Unit)) : Driver κ σ Unit
  | eachWithIndex (consume : Int64 → Value → Run κ σ (Flow Unit)) : Driver κ σ Unit
  | find (test : Value → Run κ σ (Flow Bool)) : Driver κ σ Value
  | find2 (test : Value → Run κ σ (Flow Bool)) (default : Value) : Driver κ σ Value
  /-- The default is only made when it is needed. -/
  | find3 (test : Value → Run κ σ (Flow Bool)) (default : Run κ σ Value) : Driver κ σ Value
  | all (test : Value → Run κ σ (Flow Bool)) : Driver κ σ Bool
  | any (test : Value → Run κ σ (Flow Bool)) : Driver κ σ Bool
  /-- The first element is the seed. -/
  | reduce (f : Value → Value → Run κ σ (Flow Value)) : Driver κ σ Value
  | reduce2 (seed : Value) (f : Value → Value → Run κ σ (Flow Value)) : Driver κ σ Value
  | asArray : Driver κ σ (List Value)

namespace Run

/-- Runs a loop over the pulls of an iterator. -/
def looping (cb : Callbacks κ σ) (p : Nat) (loop : Run κ σ Step → Nat → Run κ σ α) :
    Run κ σ α := do
  loop (pull cb p) ((← get).pulls cb p)

def drive (cb : Callbacks κ σ) (p : Nat) : Driver κ σ α → Run κ σ α
  | .each consume => looping cb p fun next bound => Loop.each next bound consume
  | .eachWithIndex consume => looping cb p fun next bound => Loop.eachWithIndex next bound consume
  | .find test => looping cb p fun next bound => Loop.findOr next bound test (return .undef)
  | .find2 test default =>
    looping cb p fun next bound => Loop.findOr next bound test (return default)
  | .find3 test default => looping cb p fun next bound => Loop.findOr next bound test default
  | .all test => looping cb p fun next bound => Loop.all next bound test
  | .any test => looping cb p fun next bound => Loop.any next bound test
  | .reduce f => looping cb p fun next bound => Loop.reduce next bound f
  | .reduce2 seed f => looping cb p fun next bound => Loop.reduceFrom next bound seed f
  | .asArray => collect cb p

end Run
end TypeLattice
