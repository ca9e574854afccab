import TypeLattice.Store
import TypeLattice.Relation.Guard
/-!
# Equality

Types are equal when they have the same structure. Object types count as equal when their names,
parents and attributes do, type sets when their names, versions and members do. Values are equal
when their data are; objects are compared by type and by the attributes of each name.

A comparison of two object types is guarded, so it ends on types that refer back to themselves. One
of two type sets is not: only through an object type can a set refer back to itself.
-/

namespace TypeLattice

/-- What a store knows by number. -/
inductive Node where
  | object (o : ObjectId)
  | typeSet (s : SetId)
  deriving DecidableEq, Repr

/-- A comparison that may meet object types already being compared. -/
abbrev Compare := StateM (Guard ObjectId) Bool

open Guard (both)

/-- Equality of types, given equality of nodes. -/
def Ty.equalsWith (nodes : Node → Node → Compare) : Ty → Ty → Compare
  | .basic b, .basic c => pure (b = c)
  | .former f t _, .former g u _ => if f = g then equalsWith nodes t u else pure false
  | .object o, .object p => nodes (.object o) (.object p)
  | .typeSet s, .typeSet t => nodes (.typeSet s) (.typeSet t)
  | _, _ => pure false

namespace Value

mutual

/-- Equality of values, given equality of nodes. -/
def equalsWith (nodes : Node → Node → Compare) : Value → Value → Compare
  | .undef, .undef => pure true
  | .bool a, .bool b => pure (a = b)
  | .integer a, .integer b => pure (a = b)
  | .float a, .float b => pure (a.eq b)
  | .string a, .string b => pure (a = b)
  | .array xs, .array ys => equalListWith nodes xs ys
  | .type t, .type u => t.equalsWith nodes u
  | .iterator _ t, .iterator _ u => t.equalsWith nodes u
  | .object m o fs, .object n p gs =>
    if Value.object m o fs = .object n p gs then pure true
    else both (nodes (.object o) (.object p)) <|
      if fs.length = gs.length then equalFieldsWith nodes fs gs else pure false
  | _, _ => pure false

def equalListWith (nodes : Node → Node → Compare) : List Value → List Value → Compare
  | [], [] => pure true
  | x :: xs, y :: ys => both (equalsWith nodes x y) (equalListWith nodes xs ys)
  | _, _ => pure false

/-- Each attribute has an equal value among the others of its name. -/
def equalFieldsWith (nodes : Node → Node → Compare) :
    List (String × Value) → List (String × Value) → Compare
  | [], _ => pure true
  | (k, x) :: fs, gs =>
    match find? k gs with
    | some y => both (equalsWith nodes x y) (equalFieldsWith nodes fs gs)
    | none => pure false

end

end Value

namespace Attribute

def equalsWith (nodes : Node → Node → Compare) (a b : Attribute) : Compare :=
  both (a.type.equalsWith nodes b.type) <|
    match a.default, b.default with
    | none, none => pure true
    | some v, some w => v.equalsWith nodes w
    | _, _ => pure false

/-- The same names in the same order, with equal attributes. -/
def equalListWith (nodes : Node → Node → Compare) :
    List (String × Attribute) → List (String × Attribute) → Compare
  | [], [] => pure true
  | (k, a) :: as, (l, b) :: bs =>
    if k = l then both (a.equalsWith nodes b) (equalListWith nodes as bs) else pure false
  | _, _ => pure false

end Attribute

/-- Each member has an equal member of its name in the other set. -/
def TypeSet.membersEqualWith (nodes : Node → Node → Compare) (b : TypeSet) :
    List (String × Ty) → Compare
  | [] => pure true
  | (k, t) :: rest =>
    match b.members.get? k with
    | some u => both (t.equalsWith nodes u) (membersEqualWith nodes b rest)
    | none => pure false

namespace Store

def parentsEqualWith (s : Store) (nodes : Node → Node → Compare) (o p : ObjectId) : Compare :=
  match s.parent? o, s.parent? p with
  | none, none => pure true
  | some a, some b => nodes (.object a) (.object b)
  | _, _ => pure false

/-- What is compared of two nodes of the same names, given equality of nodes. -/
def contentsEqualWith (s : Store) (nodes : Node → Node → Compare) : Node → Node → Compare
  | .object o, .object p =>
    both (s.parentsEqualWith nodes o p)
      (Attribute.equalListWith nodes (s.ownAttributes o).entries (s.ownAttributes p).entries)
  | .typeSet a, .typeSet b => TypeSet.membersEqualWith nodes (s.set b) (s.set a).members.entries
  | _, _ => pure false

/-- What two nodes must share for their contents to be compared at all. -/
def labelsAgree (s : Store) : Node → Node → Bool
  | .object o, .object p => s.name? o = s.name? p
  | .typeSet a, .typeSet b =>
    (s.set a).name = (s.set b).name ∧ (s.set a).version = (s.set b).version ∧
      (s.set a).members.size = (s.set b).members.size
  | _, _ => false

/-- Compares two nodes, with the pair in progress if they are object types. -/
def guarded : Node → Node → Compare → Compare
  | .object o, .object p, compare => Guard.run o p compare
  | _, _, compare => compare

/-- Equality of nodes, down to a given number of nodes inside each other. What lies deeper is left
to `below`. -/
def nodesEqualWithin (s : Store) (below : Node → Node → Compare) : Nat → Node → Node → Compare
  | 0, a, b => below a b
  | n + 1, a, b =>
    if a = b then pure true
    else if s.labelsAgree a b then guarded a b (s.contentsEqualWith (s.nodesEqualWithin below n) a b)
    else pure false

/-- A number of nodes inside each other that no comparison reaches: no pair of object types is
entered twice, and between two such pairs each type set is an earlier one than the last. -/
def depthBound (s : Store) : Nat := (s.objectCount * s.objectCount + 1) * (s.sets.size + 2)

def nodesEqual (s : Store) : Node → Node → Compare :=
  s.nodesEqualWithin (fun _ _ => pure false) s.depthBound

def equalsWith (s : Store) (t u : Ty) : Compare := t.equalsWith s.nodesEqual u

def equals (s : Store) (t u : Ty) : Bool := ((s.equalsWith t u).run {}).1

def valuesEqualWith (s : Store) (v w : Value) : Compare := v.equalsWith s.nodesEqual w

def valuesEqual (s : Store) (v w : Value) : Bool := ((s.valuesEqualWith v w).run {}).1

end Store
end TypeLattice
