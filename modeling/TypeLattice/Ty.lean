/-!
# Types

A type is one of eight basic types, a type former applied to a parameter, an object type or a type
set. Object types and type sets may refer to each other and to themselves, so a type holds only the
identity of one; what it stands for is kept in a store.

Every type that is built from a former has a mark, given to it when it is built. Two types are the
same node exactly when they are the same data; comparisons of what types mean ignore the marks.
-/

namespace TypeLattice

inductive Basic where
  | any | undef | unit | boolean | numeric | integer | float | string
  deriving DecidableEq, Repr

/-- The type formers with one parameter. -/
inductive Former where
  | optional | array | type | iterator
  deriving DecidableEq, Repr

/-- The kinds of types. -/
inductive Variant where
  | basic (b : Basic)
  | former (f : Former)
  | object
  | typeSet
  deriving DecidableEq, Repr

/-- The identity of an object type: the unparameterized `Object`, the object type that describes a
variant, or one of the declared object types. -/
inductive ObjectId where
  | default
  | describing (v : Variant)
  | declared (n : Nat)
  deriving DecidableEq, Repr

/-- The identity of a type set: the unparameterized `TypeSet`, the set of the object types that
describe the variants, or one of the declared sets. -/
inductive SetId where
  | default
  | pcore
  | declared (n : Nat)
  deriving DecidableEq, Repr

inductive Ty where
  | basic (b : Basic)
  | former (f : Former) (parameter : Ty) (mark : Nat)
  | object (o : ObjectId)
  | typeSet (s : SetId)
  deriving DecidableEq, Repr

namespace Basic

def all : List Basic := [.any, .undef, .unit, .boolean, .numeric, .integer, .float, .string]

def name : Basic → String
  | .any => "Any"
  | .undef => "Undef"
  | .unit => "Unit"
  | .boolean => "Boolean"
  | .numeric => "Numeric"
  | .integer => "Integer"
  | .float => "Float"
  | .string => "String"

end Basic

namespace Former

def all : List Former := [.optional, .array, .type, .iterator]

def name : Former → String
  | .optional => "Optional"
  | .array => "Array"
  | .type => "Type"
  | .iterator => "Iterator"

end Former

namespace Variant

def all : List Variant := Basic.all.map .basic ++ Former.all.map .former ++ [.object, .typeSet]

def name : Variant → String
  | .basic b => b.name
  | .former f => f.name
  | .object => "Object"
  | .typeSet => "TypeSet"

theorem mem_all (v : Variant) : v ∈ all := by
  rcases v with b | f | _ | _
  · cases b <;> decide
  · cases f <;> decide
  all_goals decide

def ofName? (n : String) : Option Variant := all.find? (·.name = n)

theorem ofName?_name (v : Variant) : ofName? v.name = some v := by
  rcases v with b | f | _ | _
  · cases b <;> rfl
  · cases f <;> rfl
  all_goals rfl

def describerName (v : Variant) : String := v.name ++ "Type"

end Variant

namespace Ty

/-- A former on its parameter. On `Any` it is the unparameterized type, which has no mark of its
own. -/
def formed (f : Former) (parameter : Ty) (mark : Nat) : Ty :=
  if parameter = .basic .any then .former f parameter 0 else .former f parameter mark

def plain (f : Former) : Ty := .former f (.basic .any) 0

def variant : Ty → Variant
  | .basic b => .basic b
  | .former f _ _ => .former f
  | .object _ => .object
  | .typeSet _ => .typeSet

def ofVariant : Variant → Ty
  | .basic b => .basic b
  | .former f => plain f
  | .object => .object .default
  | .typeSet => .typeSet .default

/-- A type without its parameter. -/
def generic : Ty → Ty
  | .former f _ _ => plain f
  | t => t

/-- The unparameterized type of the same variant. -/
def unparameterized (t : Ty) : Ty := ofVariant t.variant

/-- The parameter of a type, unless it is the one that is left unwritten. -/
def parameters : Ty → List Ty
  | .former _ t _ => if t = .basic .any then [] else [t]
  | _ => []

def describer (t : Ty) : ObjectId := .describing t.variant

/-- The same type under another mark. -/
def remark (mark : Nat) : Ty → Ty
  | .former f t _ => formed f t mark
  | t => t

end Ty
end TypeLattice
