import TypeLattice.Relation.Assignable
/-!
# Instances

Which values belong to a type. An object belongs to its type and the ancestors of it. A type, as a
value, belongs to the object type that describes its variant and the ancestors of that one, but
not to `Object`. An iterator is judged by the element type that it was declared with.
-/

namespace TypeLattice

def Basic.holds : Basic → Value → Bool
  | .any, _ | .unit, _ => true
  | .undef, .undef => true
  | .boolean, .bool _ => true
  | .numeric, .integer _ | .numeric, .float _ => true
  | .integer, .integer _ => true
  | .float, .float _ => true
  | .string, .string _ => true
  | _, _ => false

namespace Store

def isInstanceWith (s : Store) : Ty → Value → Compare
  | .basic b, v => pure (b.holds v)
  | .former .optional t _, v => if v.isUndef then pure true else isInstanceWith s t v
  | .former .array t _, .array xs => xs.allM fun x => isInstanceWith s t x
  | .former .type t _, .type u => s.acceptsWith t u
  | .former .iterator t _, .iterator _ u => s.acceptsWith t u
  | .object o, .object _ p _ => s.acceptsWith (.object o) (.object p)
  | .object o, .type u =>
    if s.isDefault o then pure false else s.acceptsWith (.object o) (.object u.describer)
  | _, _ => pure false

/-- The value belongs to the type. -/
def isInstance (s : Store) (t : Ty) (v : Value) : Bool := ((s.isInstanceWith t v).run {}).1

mutual

/-- The most specific type of a value. An array has the type that all its elements share, or
`Any`. -/
def typeOf (s : Store) : Value → Ty
  | .undef => .basic .undef
  | .bool _ => .basic .boolean
  | .integer _ => .basic .integer
  | .float _ => .basic .float
  | .string _ => .basic .string
  | .array xs => .formed .array (elementType s xs) 0
  | .type t => .formed .type t 0
  | .iterator _ t => .formed .iterator t 0
  | .object _ o _ => .object o

/-- The type that all elements share, or `Any`. -/
def elementType (s : Store) : List Value → Ty
  | [] => .basic .any
  | x :: xs =>
    let t := typeOf s x
    if allOfType s t xs then t else .basic .any

def allOfType (s : Store) (t : Ty) : List Value → Bool
  | [] => true
  | x :: xs => s.equals (typeOf s x) t && allOfType s t xs

end

end Store
end TypeLattice
