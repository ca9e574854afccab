import TypeLattice.Iterator.Loop
import TypeLattice.Relation.Instance
/-!
# Iterators

An iterator is a pipeline: a source of elements and the stages that each element passes through.
Pipelines made from each other share their source, so an element that one of them takes is gone for
all of them. A source is a cursor over an array, or it is supplied by the user. The functions of
stages and the sources of the user are known by keys of a type that the user chooses.
-/

namespace TypeLattice

inductive Stage (κ : Type) where
  | map (f : κ)
  /-- Keeps the elements on which the test gives `want`. -/
  | keep (test : κ) (want : Bool)
  deriving DecidableEq, Repr

inductive Source (κ : Type) where
  /-- The array and the number of elements taken so far. -/
  | array (items : List Value) (position : Nat)
  | custom (key : κ)
  deriving DecidableEq, Repr

/-- A source, and the stages that its elements pass through, the last one first. -/
structure Pipeline (κ : Type) where
  source : Nat
  stages : List (Stage κ) := []
  deriving DecidableEq, Repr

/-- Everything that can change: types, sources, pipelines, and a state that belongs to the
functions of the user. -/
structure World (κ σ : Type) where
  store : Store := {}
  sources : Array (Source κ) := #[]
  pipelines : Array (Pipeline κ) := #[]
  user : σ

/-- Computations in a world. What was done before an error stays done. -/
abbrev Run (κ σ : Type) := EStateM Failure (World κ σ)

/-- What the keys mean. `supply` bounds the number of elements that a source of the user can still
give. -/
structure Callbacks (κ σ : Type) where
  transform : κ → Value → Run κ σ (Flow Value)
  test : κ → Value → Run κ σ (Flow Bool)
  produce : κ → Run κ σ Step
  supply : κ → σ → Nat

variable {κ σ α : Type}

namespace World

def addSource (w : World κ σ) (s : Source κ) : Nat × World κ σ :=
  (w.sources.size, { w with sources := w.sources.push s })

def addPipeline (w : World κ σ) (p : Pipeline κ) : Nat × World κ σ :=
  (w.pipelines.size, { w with pipelines := w.pipelines.push p })

def setSource (w : World κ σ) (i : Nat) (s : Source κ) : World κ σ :=
  { w with sources := w.sources.setIfInBounds i s }

/-- A bound on the number of elements that a source can still give. -/
def supply (w : World κ σ) (cb : Callbacks κ σ) (i : Nat) : Nat :=
  match w.sources[i]? with
  | some (.array items position) => items.length - position
  | some (.custom key) => cb.supply key w.user
  | none => 0

def pipeline (w : World κ σ) (p : Nat) : Pipeline κ :=
  (w.pipelines[p]?).getD { source := w.sources.size }

/-- A bound on the number of pulls of a pipeline, the last of which gives no element. -/
def pulls (w : World κ σ) (cb : Callbacks κ σ) (p : Nat) : Nat :=
  w.supply cb (w.pipeline p).source + 1

end World

namespace Run

def onStore {ε : Type} (failure : ε → Failure) (x : EStateM ε Store α) : Run κ σ α := fun w =>
  match x w.store with
  | .ok a s => .ok a { w with store := s }
  | .error e s => .error (failure e) { w with store := s }

def ofExcept : Except Failure α → Run κ σ α
  | .ok a => return a
  | .error e => throw e

/-- A new iterator with no stages. -/
def ofSource (element : Ty) (s : Source κ) : Run κ σ Value := do
  let i ← modifyGet (·.addSource s)
  let p ← modifyGet (·.addPipeline { source := i })
  return .iterator p element

def ofArray (element : Ty) (items : List Value) : Run κ σ Value := ofSource element (.array items 0)

/-- A new iterator with one more stage than another, over the same source. -/
def withStage (p : Nat) (element : Ty) (s : Stage κ) : Run κ σ Value := do
  let base := (← get).pipeline p
  let q ← modifyGet (·.addPipeline { base with stages := s :: base.stages })
  return .iterator q element

/-- An iterator over a value: a new cursor over an array, and an iterator itself. -/
def iterate? : Value → Run κ σ (Option Value)
  | .array xs => do return some (← ofArray ((← get).store.elementType xs) xs)
  | .iterator p t => return some (.iterator p t)
  | _ => return none

def pullSource (cb : Callbacks κ σ) (i : Nat) : Run κ σ Step := do
  match (← get).sources[i]? with
  | some (.array items position) =>
    match items[position]? with
    | some v =>
      modify (·.setSource i (.array items (position + 1)))
      return .value v
    | none => return .done
  | some (.custom key) => cb.produce key
  | none => return .done

/-- The elements from a position on, which leaves nothing behind. -/
def takeRest (i : Nat) (items : List Value) (position : Nat) : Run κ σ (List Value) := do
  modify (·.setSource i (.array items items.length))
  return items.drop position

end Run

/-- How iterators are run in states of a type `ω` with a world in them: what the functions of the
user are, and how elements are taken from a source. -/
structure Access (κ σ ω : Type) where
  callbacks : Callbacks κ σ
  world : ω → World κ σ
  call : {α : Type} → Run κ σ α → EStateM Failure ω α
  next : Nat → EStateM Failure ω Step
  /-- All that is left of a cursor over an array, given the cursor, the array and the position. -/
  rest : Nat → List Value → Nat → EStateM Failure ω (List Value)

/-- An element of a collected array: one that is an iterator is collected too. -/
def collectElement {ω : Type} (collect : Nat → EStateM Failure ω (List Value)) :
    Value → EStateM Failure ω Value
  | .iterator p _ => return .array (← collect p)
  | v => return v

namespace Access

variable {ω : Type} (a : Access κ σ ω)

def pullStages (i : Nat) : List (Stage κ) → EStateM Failure ω Step
  | [] => a.next i
  | .map f :: stages => do
    match ← pullStages i stages with
    | .value v =>
      match ← a.call (a.callbacks.transform f v) with
      | .go w => return .value w
      | .stop => return .stop
    | step => return step
  | .keep test want :: stages => do
    let bound := (a.world (← get)).supply a.callbacks i + 1
    let test v := a.call (a.callbacks.test test v)
    return (← Loop.search (pullStages i stages) test want bound).toStep

def pull (p : Nat) : EStateM Failure ω Step := do
  let line := (a.world (← get)).pipeline p
  a.pullStages line.source line.stages

/-- The remaining elements of an iterator, pulled one by one. -/
def drainWith (collect : Nat → EStateM Failure ω (List Value)) (p : Nat) :
    EStateM Failure ω (List Value) := do
  let bound := (a.world (← get)).pulls a.callbacks p
  Loop.fold (a.pull p) (fun xs v => do return .go (xs ++ [← collectElement collect v])) bound []

/-- The remaining elements of an iterator, down to a given depth of iterators inside each other. A
cursor without stages gives what is left of its array as it is. -/
def collectWithin : Nat → Nat → EStateM Failure ω (List Value)
  | 0, _ => throw .outOfSteps
  | n + 1, p => do
    let w := a.world (← get)
    let line := w.pipeline p
    match line.stages, w.sources[line.source]? with
    | [], some (.array items position) => a.rest line.source items position
    | _, _ => a.drainWith (collectWithin n) p

/-- The remaining elements of an iterator. -/
def collect (p : Nat) : EStateM Failure ω (List Value) := do
  a.collectWithin ((a.world (← get)).pipelines.size + 2) p

variable {i p n depth : Nat} {items : List Value} {s : ω}

theorem pull_eq : a.pull p s =
    a.pullStages ((a.world s).pipeline p).source ((a.world s).pipeline p).stages s := rfl

/-- A filter searches the pulls of what is before it. -/
theorem pullStages_keep (test : κ) (want : Bool) (stages : List (Stage κ)) :
    a.pullStages i (.keep test want :: stages) s =
      (Finding.toStep <$> Loop.search (a.pullStages i stages)
        (fun v => a.call (a.callbacks.test test v)) want
        ((a.world s).supply a.callbacks i + 1)) s := rfl

theorem drainWith_eq (collect : Nat → EStateM Failure ω (List Value)) :
    a.drainWith collect p s = Loop.fold (a.pull p)
      (fun xs v => do return .go (xs ++ [← collectElement collect v]))
      ((a.world s).pulls a.callbacks p) [] s := rfl

theorem collect_eq : a.collect p s = a.collectWithin ((a.world s).pipelines.size + 2) p s := rfl

theorem collectWithin_succ : a.collectWithin (depth + 1) p s =
    (match ((a.world s).pipeline p).stages,
        (a.world s).sources[((a.world s).pipeline p).source]? with
      | [], some (.array items position) =>
        a.rest ((a.world s).pipeline p).source items position
      | _, _ => a.drainWith (a.collectWithin depth) p) s := rfl

theorem collectWithin_cursor (hstages : ((a.world s).pipeline p).stages = [])
    (hsource : (a.world s).sources[((a.world s).pipeline p).source]? = some (.array items n)) :
    a.collectWithin (depth + 1) p s =
      a.rest ((a.world s).pipeline p).source items n s := by
  rw [collectWithin_succ, hstages, hsource]

theorem collectWithin_of_stages (hstages : ((a.world s).pipeline p).stages ≠ []) :
    a.collectWithin (depth + 1) p s = a.drainWith (a.collectWithin depth) p s := by
  rw [collectWithin_succ]
  cases h : ((a.world s).pipeline p).stages with
  | nil => exact absurd h hstages
  | cons _ _ => rfl

end Access

namespace Run

/-- The state is a world and nothing else. -/
abbrev access (cb : Callbacks κ σ) : Access κ σ (World κ σ) where
  callbacks := cb
  world w := w
  call x := x
  next := pullSource cb
  rest := takeRest

variable (cb : Callbacks κ σ)

def pullStages (i : Nat) (stages : List (Stage κ)) : Run κ σ Step :=
  (access cb).pullStages i stages

def pull (p : Nat) : Run κ σ Step := (access cb).pull p

def drainWith (collect : Nat → Run κ σ (List Value)) (p : Nat) : Run κ σ (List Value) :=
  (access cb).drainWith collect p

def collectWithin (depth p : Nat) : Run κ σ (List Value) := (access cb).collectWithin depth p

def collect (p : Nat) : Run κ σ (List Value) := (access cb).collect p

/-- The remaining elements of an iterator, each of them pulled. -/
def drain (p : Nat) : Run κ σ (List Value) := drainWith cb (collect cb) p

end Run
end TypeLattice
