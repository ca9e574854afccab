import TypeLattice.Relation.Instance
import TypeLattice.Render
/-!
# Resolving object types

An object type gets its body once. A body is refused if its parent is not an object type, if the
type would inherit from itself, or if a default value has no literal form; a refused body leaves
everything as it was.
-/

namespace TypeLattice

/-- Computations that build types in a store. What was built before an error stays in the store,
where nothing refers to it. -/
abbrev Building := EStateM TypeError Store

namespace Store

/-- The parent that a body may have: an object type from which `o` is not reached. -/
def checkParent (s : Store) (o : ObjectId) : Option Ty → Except TypeError (Option ObjectId)
  | none => .ok none
  | some (.object p) =>
    if o ∈ s.line p then .error (.circularInheritance (s.label o)) else .ok (some p)
  | some t => .error (.withText (s.render? t) (.invalidParent (s.label o)))

/-- The first attribute with a default value that has no literal form. -/
def badDefault? (attributes : Table Attribute) : Option (String × Value) :=
  attributes.entries.findSome? fun e =>
    match e.2.default with
    | some v => if v.finite then none else some (e.1, v)
    | none => none

/-- The store in which `o` has the body. -/
def resolve (s : Store) (o : ObjectId) (b : Body Ty) : Except TypeError Store := do
  let parent ← s.checkParent o b.parent
  match badDefault? b.attributes with
  | some (field, v) => throw (.withText (s.renderValue? v) (.invalidDefault (s.label o) field))
  | none =>
    if s.isResolved o then throw (.alreadyResolved (s.label o))
    else return s.setBody o (b.withParent parent)

end Store

namespace Building

variable {α : Type}

/-- Runs a step that changes the store by a new node. -/
def adding (step : Store → α × Store) : Building α := modifyGet step

def newObject (name : Option String) : Building ObjectId := adding (·.newObject name)

def newSet (t : TypeSet) : Building SetId := adding (·.newSet t)

def newFormed (f : Former) (parameter : Ty) : Building Ty := adding (·.newFormed f parameter)

def resolve (o : ObjectId) (b : Body Ty) : Building Unit := do
  match (← get).resolve o b with
  | .ok s => set s
  | .error e => throw e

/-- An object type with its body. Without a name and with an empty body it is `Object`. -/
def newResolved (name : Option String) (b : Body Ty) : Building ObjectId := do
  if name.isNone ∧ b.isEmpty then return .default
  else
    let o ← newObject name
    resolve o b
    return o

/-- An argument that is not of the expected kind. -/
def illegalArgument (function : String) (index : Nat) (expected : String) (actual : Value) :
    Building α := do
  let s ← get
  throw (.withText (s.render? (s.typeOf actual)) (.illegalArgumentType function index expected))

/-- The type that the name of a variant stands for when it is given arguments. -/
def ofArguments (v : Variant) (args : List Value) : Building Ty := do
  match v, args with
  | v, [] => return Ty.ofVariant v
  | .former f, [.type t] => newFormed f t
  | .former f, [w] => illegalArgument (f.name ++ "[]") 0 "Type" w
  | .former f, args => throw (.illegalArgumentCount (f.name ++ "[]") "0 - 1" args.length)
  | v, args => throw (.illegalArgumentCount (v.name ++ "[]") "0" args.length)

end Building
end TypeLattice
