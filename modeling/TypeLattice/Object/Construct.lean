import TypeLattice.Object.Create
import TypeLattice.Expr.Resolve
/-!
# Constructors

An object type with a constructor leaves the making of its instances to it. The object types that
describe the variants build types: from the arguments that the name of the variant takes, and in
three cases from others.
-/

namespace TypeLattice

/-- Computations that make values in a store. -/
abbrev Making := EStateM Failure Store

namespace Building

/-- An argument that may be left out, and otherwise is undef or a string. -/
def optionalString (function : String) (args : List Value) (index : Nat) :
    Building (Option String) := do
  match args[index]? with
  | none | some .undef => return none
  | some (.string s) => return some s
  | some v => illegalArgument function index "Optional[String]" v

/-- An argument that may be left out, and otherwise is undef or a type. -/
def optionalType (function : String) (args : List Value) (index : Nat) :
    Building (Option Ty) := do
  match args[index]? with
  | none | some .undef => return none
  | some (.type t) => return some t
  | some v => illegalArgument function index "Optional[Type]" v

/-- An object type from a name and a parent, each of which may be left out. -/
def objectType (args : List Value) : Building Ty := do
  let function := "Pcore::ObjectType.new"
  if 2 < args.length then throw (.illegalArgumentCount function "0 - 2" args.length)
  else
    let name ← optionalString function args 0
    let parent ← optionalType function args 1
    return .object (← newResolved name { parent })

/-- A type set without members from a name and a version. A version needs a name. -/
def typeSetType (args : List Value) : Building Ty := do
  let function := "Pcore::TypeSetType.new"
  if 2 < args.length then throw (.illegalArgumentCount function "0 - 2" args.length)
  else
    let version ← optionalString function args 1
    let name ← optionalString function args 0
    match name, version with
    | none, none => return .typeSet .default
    | none, some _ => illegalArgument function 0 "String" .undef
    | some name, version => return .typeSet (← newSet { name := some name, version })

/-- The type that is described by an object type and arguments for it. `Type` also takes the text
of a type expression over the built-in names. -/
def described (v : Variant) (args : List Value) : Building Ty := do
  match v, args with
  | .former .type, [.string text] => TypeExpr.read Resolver.builtins text
  | .object, args => objectType args
  | .typeSet, args => typeSetType args
  | v, args => ofArguments v args

end Building

namespace Making

variable {α : Type}

def ofBuilding (x : Building α) : Making α := x.adaptExcept .type

def ofExcept {ε : Type} (failure : ε → Failure) : Except ε α → Making α
  | .ok a => return a
  | .error e => throw (failure e)

def create (o : ObjectId) (args : List Value) : Making Value := do
  match (← get).constructor? o with
  | some (.building v) => return .type (← ofBuilding (Building.described v args))
  | some (.custom run) => ofExcept id (run args)
  | none =>
    let fields ← ofExcept .type ((← get).fill o args)
    let mark ← modifyGet (·.freshMark)
    return .object mark o fields

end Making
end TypeLattice
