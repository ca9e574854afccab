import TypeLattice.Iterator.World
import TypeLattice.Object.Construct
import TypeLattice.Text.Blank
/-!
# New values of a type

How a type makes a value from arguments. Object types use their constructor or their attributes,
`Type[X]` the constructor of the type that describes `X`, and the other types convert their single
argument. What comes out has to be an instance of the type.
-/

namespace TypeLattice

variable {κ σ α : Type}

namespace Convert

/-- The nearest integer of 64 bits. -/
def clamp (i : Int) : Int64 :=
  if i < Int64.minValue.toInt then Int64.minValue
  else if Int64.maxValue.toInt < i then Int64.maxValue
  else Int64.ofInt i

def ofBool (b : Bool) : Int64 := if b then 1 else 0

/-- An argument, or what it is not. -/
abbrev Converted (α : Type) := Except String α

/-- An integer as it is, a number without its fraction, a truth value as 0 or 1, or the integer
that a string stands for. -/
def toInteger : Value → Converted Int64
  | .integer i => .ok i
  | .float x => if x.isFinite then .ok (clamp x.truncate) else .error "Convertible to Integer"
  | .bool b => .ok (ofBool b)
  | .string s =>
    match integer? (Text.trimmed s) with
    | some i => .ok i
    | none => .error "Integer string"
  | _ => .error "Convertible to Integer"

def toFloat : Value → Converted Binary64
  | .float x => .ok x
  | .integer i => .ok (.ofInt i.toInt)
  | .string s =>
    match Binary64.ofChars? (Text.trimmed s) with
    | some x => .ok x
    | none => .error "Float string"
  | _ => .error "Convertible to Float"

/-- A number as it is, a truth value as 0 or 1, or the number that a string stands for, an integer
if it can be one. -/
def toNumeric : Value → Converted Value
  | .integer i => .ok (.integer i)
  | .float x => .ok (.float x)
  | .bool b => .ok (.integer (ofBool b))
  | .string s =>
    match integer? (Text.trimmed s) with
    | some i => .ok (.integer i)
    | none =>
      match Binary64.ofChars? (Text.trimmed s) with
      | some x => .ok (.float x)
      | none => .error "Numeric string"
  | _ => .error "Convertible to Numeric"

/-- The words for truth and falsehood, in upper or lower case. -/
def word? (s : String) : Option Bool :=
  match String.ofList (s.toList.map Char.toLower) with
  | "true" | "yes" | "y" => some true
  | "false" | "no" | "n" | "" => some false
  | _ => none

def toBoolean : Value → Converted Bool
  | .bool b => .ok b
  | .integer i => .ok (i ≠ 0)
  | .float x => .ok (!x.isZero)
  | .string s =>
    match word? s with
    | some b => .ok b
    | none => .error "Boolean string"
  | _ => .error "Convertible to Boolean"

/-- A string as it is, and of any other value its text. -/
def toText (s : Store) : Value → Option String
  | .string t => some t
  | v => s.renderValue? v

end Convert

namespace Run

def illegalArgument (function : String) (index : Nat) (expected : String) (actual : Value) :
    Run κ σ α :=
  onStore .type (Building.illegalArgument function index expected actual)

/-- A text as a value. -/
def written : Option String → Run κ σ Value
  | some text => return .string text
  | none => throw (.type .endless)

def single (name : String) : List Value → Run κ σ Value
  | [v] => return v
  | args => throw (.type (.illegalArgumentCount (name ++ ".new") "1" args.length))

def converted (name : String) (convert : Value → Convert.Converted α) (args : List Value) :
    Run κ σ α := do
  let v ← single name args
  match convert v with
  | .ok a => return a
  | .error expected => illegalArgument (name ++ ".new") 0 expected v

def create (o : ObjectId) (args : List Value) : Run κ σ Value :=
  onStore id (Making.create o args)

/-- The elements of an array or an iterator, and any other value by itself. -/
def elements (collect : Nat → Run κ σ (List Value)) (v : Value) : Run κ σ (List Value) :=
  match v with
  | .array xs => return xs
  | .iterator p _ => collect p
  | v => return [v]

def notConstructible (t : Ty) : Run κ σ α := do
  throw (.type (.withText ((← get).store.render? t) .notConstructible))

/-- A value is given back if it is an instance of the type. -/
def instanceOf (t : Ty) (v : Value) : Run κ σ Value := do
  let s := (← get).store
  if s.isInstance t v then return v
  else throw (.type (.withText (s.render? t) fun expected =>
    .withText (s.render? (s.typeOf v)) (.typeMismatch expected)))

def newBasic (b : Basic) (args : List Value) : Run κ σ Value := do
  match b with
  | .integer => return .integer (← converted "Integer" Convert.toInteger args)
  | .float => return .float (← converted "Float" Convert.toFloat args)
  | .numeric => converted "Numeric" Convert.toNumeric args
  | .boolean => return .bool (← converted "Boolean" Convert.toBoolean args)
  | .string =>
    let v ← single "String" args
    written (Convert.toText (← get).store v)
  | b => notConstructible (.basic b)

/-- A new iterator over the only argument. -/
def newIterator (args : List Value) : Run κ σ Value := do
  let v ← single "Iterator" args
  match ← iterate? v with
  | some it => return it
  | none => illegalArgument "Iterator.new" 0 "Iterable" v

/-- A new value of a type, given how iterators are collected. -/
def newWith (collect : Nat → Run κ σ (List Value)) (t : Ty) (args : List Value) :
    Run κ σ Value := do
  match t with
  | .basic b => instanceOf t (← newBasic b args)
  | .former .optional u _ =>
    match args with
    | [] | [.undef] => instanceOf t .undef
    | args => instanceOf t (← newWith collect u args)
  | .former .array _ _ =>
    instanceOf t (.array (← elements collect (← single "Array" args)))
  | .former .iterator _ _ => instanceOf t (← newIterator args)
  | .former .type u _ =>
    let maker := if u = .basic .any then .describing (.former .type) else u.describer
    instanceOf t (← create maker args)
  | .object o =>
    if (← get).store.isDefault o then notConstructible t
    else instanceOf t (← create o args)
  | .typeSet _ => notConstructible t

/-- A new value of a type. -/
def new (cb : Callbacks κ σ) (t : Ty) (args : List Value) : Run κ σ Value :=
  newWith (collect cb) t args

end Run
end TypeLattice
