import TypeLattice.Error
/-!
# Pull loops

An iterator is pulled for one element at a time. A pull gives an element, or says that there are
none left, or that a function along the way asked to stop. There are two loops around pulls: one
looks for an element, the other takes up one element after another. Each is given a bound on the
number of pulls; the state survives every error.
-/

namespace TypeLattice

/-- What a pull gives. -/
inductive Step where
  | value (v : Value)
  | done
  | stop
  deriving DecidableEq, Repr

/-- What a function on elements gives: a result, or the wish to stop. -/
inductive Flow (α : Type) where
  | go (a : α)
  | stop
  deriving DecidableEq, Repr

/-- How a search ends. -/
inductive Finding where
  | found (v : Value)
  | exhausted
  | stopped
  deriving DecidableEq, Repr

def Finding.toStep : Finding → Step
  | .found v => .value v
  | .exhausted => .done
  | .stopped => .stop

namespace Loop

variable {σ α : Type}

/-- The first element on which the test gives `want`. -/
def search (next : EStateM Failure σ Step) (test : Value → EStateM Failure σ (Flow Bool))
    (want : Bool) : Nat → EStateM Failure σ Finding
  | 0 => throw .outOfSteps
  | n + 1 => do
    match ← next with
    | .value v =>
      match ← test v with
      | .go b => if b = want then return .found v else search next test want n
      | .stop => return .stopped
    | .done => return .exhausted
    | .stop => return .stopped

/-- Takes up one element after another. A stop leaves what there is so far. -/
def fold (next : EStateM Failure σ Step) (take : α → Value → EStateM Failure σ (Flow α)) :
    Nat → α → EStateM Failure σ α
  | 0, _ => throw .outOfSteps
  | n + 1, a => do
    match ← next with
    | .value v =>
      match ← take a v with
      | .go b => fold next take n b
      | .stop => return a
    | .done | .stop => return a

variable (next : EStateM Failure σ Step) (bound : Nat)

def each (consume : Value → EStateM Failure σ (Flow Unit)) : EStateM Failure σ Unit :=
  fold next (fun _ v => consume v) bound ()

/-- Like `each`, with the number of elements before each one. -/
def eachWithIndex (consume : Int64 → Value → EStateM Failure σ (Flow Unit)) :
    EStateM Failure σ Unit := do
  let _ ← fold next (fun (i : Int64) v => do
    match ← consume i v with
    | .go _ => return .go (i + 1)
    | .stop => return .stop) bound 0

/-- The first element that passes the test, or what the default gives. -/
def findOr (test : Value → EStateM Failure σ (Flow Bool)) (default : EStateM Failure σ Value) :
    EStateM Failure σ Value := do
  match ← search next test true bound with
  | .found v => return v
  | .exhausted | .stopped => default

def all (test : Value → EStateM Failure σ (Flow Bool)) : EStateM Failure σ Bool := do
  match ← search next test false bound with
  | .found _ => return false
  | .exhausted | .stopped => return true

def any (test : Value → EStateM Failure σ (Flow Bool)) : EStateM Failure σ Bool := do
  match ← search next test true bound with
  | .found _ => return true
  | .exhausted | .stopped => return false

/-- Folds the elements into `seed`. -/
def reduceFrom (seed : Value) (reduce : Value → Value → EStateM Failure σ (Flow Value)) :
    EStateM Failure σ Value :=
  fold next reduce bound seed

/-- Folds the elements into the first one. Without elements the result is undef. -/
def reduce (reduce : Value → Value → EStateM Failure σ (Flow Value)) :
    EStateM Failure σ Value := do
  match ← next with
  | .value v => reduceFrom next bound v reduce
  | .done | .stop => return .undef

end Loop
end TypeLattice
