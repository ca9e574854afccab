import TypeLattice.New
/-!
# Scripted functions and sources

Functions on elements and sources of elements, given as data. A function can be told to fail or to
stop at one of its calls or on one of its arguments. Everything that is called or pulled is written
down in the order in which it happens.
-/

namespace TypeLattice

inductive Transform where
  | identity
  | add (n : Int64)
  | multiply (n : Int64)
  | constant (v : Value)
  | text
  | typeOf
  | wrap
  | iterate
  | make (t : Ty)
  | field (name : String)
  deriving DecidableEq

inductive Predicate where
  | constant (b : Bool)
  | equal (v : Value)
  | below (x : Binary64)
  | residue (n r : Int)
  | instance (t : Ty)
  | truth
  deriving DecidableEq

inductive Reducer where
  | sum | first | second | pair | max
  deriving DecidableEq, Repr

/-- When a function fails or stops: by the number of calls before, or by its last argument. -/
structure Limits where
  failAt : Option Nat := none
  stopAt : Option Nat := none
  failOn : Option Value := none
  stopOn : Option Value := none
  failure : Failure := .reported "boom"
  deriving DecidableEq

inductive Action where
  | transform (t : Transform)
  | test (p : Predicate)
  | reduce (r : Reducer)
  | consume
  deriving DecidableEq

structure Callback where
  label : String
  limits : Limits
  action : Action
  calls : Nat := 0

/-- What a source gives when it is pulled. -/
inductive Supply where
  | step (s : Step)
  | failure (f : Failure)
  deriving DecidableEq

/-- A source that gives what is listed, and after that nothing. -/
structure Supplier where
  steps : List Supply
  pulls : Nat := 0

inductive Event where
  | call (label : String) (arguments : List Value)
  | pull (k : Nat)
  | default
  deriving DecidableEq

/-- The functions and sources of the user, and what has happened. -/
structure Script where
  callbacks : Array Callback := #[]
  suppliers : Array Supplier := #[]
  trace : Array Event := #[]

abbrev ScriptWorld := World Nat Script

abbrev Scripted := Run Nat Script

namespace Scripted

variable {α : Type}

def record (e : Event) : Scripted Unit :=
  modify fun w => { w with user := { w.user with trace := w.user.trace.push e } }

/-- The value as a result, unless the function is told to fail or to stop. -/
def limited (s : Store) (l : Limits) (calls : Nat) (last : Value) (result : Scripted α) :
    Scripted (Flow α) := do
  if l.failAt = some calls then throw l.failure
  else if l.stopAt = some calls then return .stop
  else if l.failOn.any (s.valuesEqual last) then throw l.failure
  else if l.stopOn.any (s.valuesEqual last) then return .stop
  else return .go (← result)

/-- A call of the function with the given key: it is written down and counted. -/
def call (key : Nat) (arguments : List Value) (run : Action → Scripted α) :
    Scripted (Flow α) := do
  let w ← get
  match w.user.callbacks[key]? with
  | none => throw .outOfSteps
  | some c =>
    record (.call c.label arguments)
    modify fun w => { w with user := { w.user with
      callbacks := w.user.callbacks.setIfInBounds key { c with calls := c.calls + 1 } } }
    limited w.store c.limits c.calls (arguments.getLastD .undef) (run c.action)

def transformed (cb : Callbacks Nat Script) (t : Transform) (v : Value) : Scripted Value := do
  match t with
  | .identity => return v
  | .add n => return .integer ((← Run.ofExcept v.asInteger) + n)
  | .multiply n => return .integer ((← Run.ofExcept v.asInteger) * n)
  | .constant w => return w
  | .text => Run.written ((← get).store.renderValue? v)
  | .typeOf =>
    let s := (← get).store
    let mark ← Run.onStore id (modifyGet (·.freshMark))
    return .type ((s.typeOf v).remark mark)
  | .wrap => return .array [v]
  | .iterate => return (← Run.iterate? v).getD v
  | .make t => Run.new cb t [v]
  | .field name =>
    let (_, fields) ← Run.ofExcept v.asObject
    return (find? name fields).getD .undef

def tested (p : Predicate) (v : Value) : Scripted Bool := do
  let s := (← get).store
  match p with
  | .constant b => return b
  | .equal w => return s.valuesEqual v w
  | .below x => return (← Run.ofExcept v.asFloat).lt x
  | .residue n r => return (← Run.ofExcept v.asInteger).toInt % n = r
  | .instance t => return s.isInstance t v
  | .truth => Run.ofExcept v.asBool

def reduced (r : Reducer) (a b : Value) : Scripted Value := do
  match r with
  | .sum =>
    let x ← Run.ofExcept a.asInteger
    return .integer (x + (← Run.ofExcept b.asInteger))
  | .first => return a
  | .second => return b
  | .pair => return .array [a, b]
  | .max =>
    let y ← Run.ofExcept b.asFloat
    let x ← Run.ofExcept a.asFloat
    return if x.lt y then b else a

/-- A function that is asked for something else than what it does. -/
def misused : Scripted α := throw .outOfSteps

def transform (cb : Callbacks Nat Script) (key : Nat) (v : Value) : Scripted (Flow Value) :=
  call key [v] fun
    | .transform t => transformed cb t v
    | _ => misused

def test (key : Nat) (v : Value) : Scripted (Flow Bool) :=
  call key [v] fun
    | .test p => tested p v
    | _ => misused

def reduce (key : Nat) (a b : Value) : Scripted (Flow Value) :=
  call key [a, b] fun
    | .reduce r => reduced r a b
    | _ => misused

def consume (key : Nat) (arguments : List Value) : Scripted (Flow Unit) :=
  call key arguments fun _ => return ()

/-- The next thing that a source gives. -/
def produce (key : Nat) : Scripted Step := do
  let w ← get
  match w.user.suppliers[key]? with
  | none => return .done
  | some s =>
    record (.pull s.pulls)
    modify fun w => { w with user := { w.user with
      suppliers := w.user.suppliers.setIfInBounds key ⟨s.steps.tail, s.pulls + 1⟩ } }
    match s.steps with
    | [] => return .done
    | .step x :: _ => return x
    | .failure f :: _ => throw f

def supplyOf (key : Nat) (u : Script) : Nat :=
  ((u.suppliers[key]?).map fun s => s.steps.length).getD 0

/-- The meaning of keys. A function that makes values may collect iterators, which calls other
functions, down to a given depth. -/
def callbacksWithin : Nat → Callbacks Nat Script
  | 0 => { transform := fun _ _ => misused, test, produce, supply := supplyOf }
  | n + 1 => { transform := transform (callbacksWithin n), test, produce, supply := supplyOf }

def callbacks (w : ScriptWorld) : Callbacks Nat Script := callbacksWithin (w.pipelines.size + 2)

def addCallback (c : Callback) : Scripted Nat := modifyGet fun w =>
  (w.user.callbacks.size, { w with user := { w.user with callbacks := w.user.callbacks.push c } })

def addSupplier (steps : List Supply) : Scripted Nat := modifyGet fun w =>
  (w.user.suppliers.size,
    { w with user := { w.user with suppliers := w.user.suppliers.push { steps } } })

/-- What has happened since the last time, which is forgotten. -/
def takeTrace : Scripted (List Event) := modifyGet fun w =>
  (w.user.trace.toList, { w with user := { w.user with trace := #[] } })

end Scripted
end TypeLattice
