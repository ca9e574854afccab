import TypeLattice.Table
import TypeLattice.Error
import TypeLattice.Text.Qualified
/-!
# The store of object types and type sets

Object types are created with a name, or without one, and get a body at most once. A store keeps
the declared object types and type sets by number. The `Object` and `TypeSet` types and the object
types of the set `Pcore`, which describe the variants of types, are in every store.
-/

namespace TypeLattice

structure Attribute where
  type : Ty
  /-- The value of the attribute when none is given. -/
  default : Option Value := none
  deriving DecidableEq, Repr

/-- How an object type makes its instances, when not from its attributes. -/
inductive Constructor where
  /-- Builds the described type. -/
  | building (v : Variant)
  | custom (run : List Value → Except Failure Value)

/-- What resolution adds to an object type. `Parent` is any type in a body that is asked for, and
an object type in one that a type has. -/
structure Body (Parent : Type) where
  parent : Option Parent := none
  attributes : Table Attribute := .empty
  constructor : Option Constructor := none

namespace Body

variable {Parent Other : Type}

def isEmpty (b : Body Parent) : Bool :=
  b.parent.isNone && b.attributes.isEmpty && b.constructor.isNone

def withParent (b : Body Parent) (p : Option Other) : Body Other :=
  { parent := p, attributes := b.attributes, constructor := b.constructor }

end Body

/-- An object type: a name that never changes, and a body once it is resolved. -/
structure ObjectNode where
  name : Option String
  body : Option (Body ObjectId)

structure TypeSet where
  name : Option String := none
  version : Option String := none
  members : Table Ty := .empty
  deriving Inhabited

structure Store where
  objects : Array ObjectNode := #[]
  sets : Array TypeSet := #[]
  /-- The mark for the next node. Marks count from 1. -/
  nextMark : Nat := 1

namespace Variant

def describerParent : Variant → Option Variant
  | .basic .any => none
  | .basic .integer | .basic .float => some (.basic .numeric)
  | _ => some (.basic .any)

def optionalString : Attribute :=
  { type := .former .optional (.basic .string) 0, default := some .undef }

def optionalType (default : Value) : Attribute :=
  { type := .former .optional (.former .type (.basic .any) 0) 0, default := some default }

def describerAttributes : Variant → Table Attribute
  | .basic _ => .empty
  | .former _ => { entries := [("type", optionalType (.type (.basic .any)))] }
  | .object =>
    { entries := [("name", optionalString), ("parent", optionalType .undef)], nodup := by decide }
  | .typeSet =>
    { entries := [("name", optionalString), ("version", optionalString)], nodup := by decide }

def describerBody (v : Variant) : Body ObjectId where
  parent := v.describerParent.map .describing
  attributes := v.describerAttributes
  constructor := some (.building v)

end Variant

/-- The set of the object types that describe the variants of types. -/
def TypeSet.pcore : TypeSet where
  name := some "Pcore"
  version := some "1.0.0"
  members :=
    { entries := Variant.all.map fun v => (v.describerName, Ty.object (.describing v))
      nodup := by decide }

namespace TypeSet

/-- A member by its simple name, or by its name qualified with the name of the set. -/
def get? (s : TypeSet) (name : String) : Option Ty :=
  match Text.split? name with
  | none => s.members.get? name
  | some (qualifier, simple) =>
    if s.name = some qualifier then s.members.get? simple else none

end TypeSet

namespace Store

def name? (s : Store) : ObjectId → Option String
  | .default => none
  | .describing v => some (Text.qualify "Pcore" v.describerName)
  | .declared n => (s.objects[n]?).bind (·.name)

/-- The name of an object type in messages. -/
def label (s : Store) (o : ObjectId) : String := (s.name? o).getD "Object"

def body? (s : Store) : ObjectId → Option (Body ObjectId)
  | .default => some {}
  | .describing v => some v.describerBody
  | .declared n => (s.objects[n]?).bind (·.body)

def isResolved (s : Store) (o : ObjectId) : Bool := (s.body? o).isSome

def parent? (s : Store) (o : ObjectId) : Option ObjectId := (s.body? o).bind (·.parent)

/-- The attributes that an object type declares itself. -/
def ownAttributes (s : Store) (o : ObjectId) : Table Attribute :=
  ((s.body? o).map (·.attributes)).getD .empty

def constructor? (s : Store) (o : ObjectId) : Option Constructor :=
  (s.body? o).bind (·.constructor)

/-- `Object` itself, and what cannot be told from it: a resolved nameless type with an empty
body. -/
def isDefault (s : Store) (o : ObjectId) : Bool :=
  o = .default || ((s.name? o).isNone && ((s.body? o).map (·.isEmpty)).getD false)

def set (s : Store) : SetId → TypeSet
  | .default => {}
  | .pcore => .pcore
  | .declared n => (s.sets[n]?).getD {}

def objectCount (s : Store) : Nat := s.objects.size + 15

/-- A bound on the number of object types and type sets. -/
def nodeCount (s : Store) : Nat := s.objects.size + s.sets.size + 17

/-- The first types of the line of ancestors of an object type, itself the first. -/
def lineUpTo (s : Store) : Nat → ObjectId → List ObjectId
  | 0, _ => []
  | n + 1, o => o :: ((s.parent? o).map (s.lineUpTo n)).getD []

/-- An object type and its ancestors, nearest first. -/
def line (s : Store) (o : ObjectId) : List ObjectId := s.lineUpTo s.nodeCount o

def attribute? (s : Store) (o : ObjectId) (name : String) : Option Attribute :=
  (s.line o).findSome? fun p => (s.ownAttributes p).get? name

/-- All attributes, those of the farthest ancestor first. One that is declared again keeps its
place. -/
def allAttributes (s : Store) (o : ObjectId) : Table Attribute :=
  (s.line o).reverse.foldl
    (fun all p => (s.ownAttributes p).entries.foldl (fun all e => all.insert e.1 e.2) all) .empty

/-- The name that a type is known by. -/
def typeName (s : Store) : Ty → String
  | .object o => s.label o
  | .typeSet t => (s.set t).name.getD "TypeSet"
  | t => t.variant.name

/-- An attribute of the object type that describes a type, read off that type. -/
def get? (s : Store) (t : Ty) (key : String) : Option Value :=
  match t, key with
  | .former _ p _, "type" => some (.type p)
  | .object o, "name" => some (((s.name? o).map .string).getD .undef)
  | .object o, "parent" => some (((s.parent? o).map fun p => .type (.object p)).getD .undef)
  | .typeSet t, "name" => some (((s.set t).name.map .string).getD .undef)
  | .typeSet t, "version" => some (((s.set t).version.map .string).getD .undef)
  | _, _ => none

def freshMark (s : Store) : Nat × Store := (s.nextMark, { s with nextMark := s.nextMark + 1 })

def newObject (s : Store) (name : Option String) : ObjectId × Store :=
  (.declared s.objects.size, { s with objects := s.objects.push { name, body := none } })

def newSet (s : Store) (t : TypeSet) : SetId × Store :=
  (.declared s.sets.size, { s with sets := s.sets.push t })

def setBody (s : Store) (o : ObjectId) (b : Body ObjectId) : Store :=
  match o with
  | .declared n => { s with objects := s.objects.modify n fun node => { node with body := some b } }
  | _ => s

/-- A former on its parameter, as a node of its own unless the parameter is `Any`. -/
def newFormed (s : Store) (f : Former) (parameter : Ty) : Ty × Store :=
  if parameter = .basic .any then (Ty.plain f, s)
  else (.former f parameter s.nextMark, { s with nextMark := s.nextMark + 1 })

end Store
end TypeLattice
