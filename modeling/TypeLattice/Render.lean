import TypeLattice.Store
import TypeLattice.Text.Quoted
import TypeLattice.Decimal.Layout
/-!
# The text of types and values

A type is written by its name, with its parameter in brackets, and a nameless object type in full.
A nameless object type that is met again inside itself is written `Object`. The types inside a
default value are written afresh, without regard to what is around them, so a nameless type that
comes back to itself through a default value has no finite text.
-/

namespace TypeLattice

/-- Texts with a comma between each two. -/
def commaSeparated : List String → String
  | [] => ""
  | [x] => x
  | x :: xs => x ++ ", " ++ commaSeparated xs

def integerText (i : Int64) : String := toString i.toInt

/-- The text of a type, given the text of each object type. -/
def Ty.renderWith (s : Store) (object : ObjectId → Option String) : Ty → Option String
  | .basic b => some b.name
  | .former f t _ =>
    if t = .basic .any then some f.name
    else (renderWith s object t).map fun x => f.name ++ "[" ++ x ++ "]"
  | .object o => object o
  | .typeSet t => some (s.typeName (.typeSet t))

namespace Value

mutual

/-- The text of a value, given the text of each object type. -/
def renderWith (s : Store) (object : ObjectId → Option String) : Value → Option String
  | .undef => some "undef"
  | .bool b => some (if b then "true" else "false")
  | .integer i => some (integerText i)
  | .float x => some (valueLayout.text x)
  | .string t => some (Text.quoted t)
  | .array xs => (renderListWith s object xs).map fun ts => "[" ++ commaSeparated ts ++ "]"
  | .type t => t.renderWith s object
  | .iterator _ t =>
    if t = .basic .any then some "Iterator-Value"
    else (t.renderWith s object).map fun x => "Iterator[" ++ x ++ "]-Value"
  | .object _ o fs =>
    (renderFieldsWith s object fs).map fun ts =>
      s.label o ++ "(\x7b" ++ commaSeparated ts ++ "\x7d)"

def renderListWith (s : Store) (object : ObjectId → Option String) :
    List Value → Option (List String)
  | [] => some []
  | x :: xs => do return (← renderWith s object x) :: (← renderListWith s object xs)

def renderFieldsWith (s : Store) (object : ObjectId → Option String) :
    List (String × Value) → Option (List String)
  | [] => some []
  | (k, x) :: fs => do
    let text ← renderWith s object x
    return (Text.quoted k ++ " => " ++ text) :: (← renderFieldsWith s object fs)

end

end Value

/-- The text of an attribute: its type, and its default value if it has one. -/
def Attribute.renderWith (s : Store) (object fresh : ObjectId → Option String)
    (a : String × Attribute) : Option String := do
  let type ← a.2.type.renderWith s object
  match a.2.default with
  | none => return Text.quoted a.1 ++ " => " ++ type
  | some v =>
    let value ← v.renderWith s fresh
    return Text.quoted a.1 ++ " => \x7btype => " ++ type ++ ", value => " ++ value ++ "\x7d"

namespace Store

/-- A nameless object type written in full. `object` writes the object types inside it, `fresh`
those inside its default values. -/
def bodyTextWith (s : Store) (object fresh : ObjectId → Option String) (o : ObjectId) :
    Option String := do
  let parent ← match s.parent? o with
    | none => pure ""
    | some p => do pure ("parent => " ++ (← object p) ++ ", ")
  let attributes ← (s.ownAttributes o).entries.mapM (Attribute.renderWith s object fresh)
  return "Object[\x7b" ++ parent ++ "attributes => \x7b" ++ commaSeparated attributes ++ "\x7d\x7d]"

/-- The text of an object type inside those of `around`, down to a given depth. -/
def objectTextWithin (s : Store) : Nat → List ObjectId → ObjectId → Option String
  | 0, _, _ => none
  | n + 1, around, o =>
    match s.name? o with
    | some name => some name
    | none =>
      if s.isDefault o ∨ o ∈ around then some "Object"
      else s.bodyTextWith (s.objectTextWithin n (o :: around)) (s.objectTextWithin n []) o

/-- The text of an object type, if it is finite. -/
def objectText? (s : Store) (o : ObjectId) : Option String :=
  s.objectTextWithin (s.nodeCount + 1) [] o

def render? (s : Store) (t : Ty) : Option String := t.renderWith s s.objectText?

def renderValue? (s : Store) (v : Value) : Option String := v.renderWith s s.objectText?

/-- The text of a type, or its name where the text would not end. -/
def text (s : Store) (t : Ty) : String := (s.render? t).getD (s.typeName t)

end Store
end TypeLattice
