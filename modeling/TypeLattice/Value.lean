import TypeLattice.Ty
import TypeLattice.Decimal.Binary64
/-!
# Values

Values are immutable data. An iterator is the identity of a cursor together with the element type
it was declared with, and an object carries a mark that tells it from other objects with the same
attributes.
-/

namespace TypeLattice

inductive Value where
  | undef
  | bool (b : Bool)
  | integer (i : Int64)
  | float (x : Binary64)
  | string (s : String)
  | array (xs : List Value)
  | type (t : Ty)
  | iterator (cursor : Nat) (element : Ty)
  | object (mark : Nat) (o : ObjectId) (fields : List (String × Value))
  deriving Repr

namespace Value

instance : Inhabited Value := ⟨.undef⟩

mutual

def same : Value → Value → Bool
  | .undef, .undef => true
  | .bool a, .bool b => a = b
  | .integer a, .integer b => a = b
  | .float a, .float b => a = b
  | .string a, .string b => a = b
  | .array xs, .array ys => sameList xs ys
  | .type a, .type b => a = b
  | .iterator c t, .iterator d u => c = d ∧ t = u
  | .object m o fs, .object n p gs => m = n ∧ o = p ∧ sameFields fs gs
  | _, _ => false

def sameList : List Value → List Value → Bool
  | [], [] => true
  | x :: xs, y :: ys => same x y && sameList xs ys
  | _, _ => false

def sameFields : List (String × Value) → List (String × Value) → Bool
  | [], [] => true
  | (k, x) :: fs, (l, y) :: gs => k = l ∧ same x y && sameFields fs gs
  | _, _ => false

end

mutual

theorem same_iff : ∀ v w : Value, same v w = true ↔ v = w
  | .undef, w => by cases w <;> simp [same]
  | .bool a, w => by cases w <;> simp [same]
  | .integer a, w => by cases w <;> simp [same]
  | .float a, w => by cases w <;> simp [same]
  | .string a, w => by cases w <;> simp [same]
  | .array xs, w => by
    cases w <;> simp [same]
    exact sameList_iff xs _
  | .type a, w => by cases w <;> simp [same]
  | .iterator c t, w => by cases w <;> simp [same]
  | .object m o fs, w => by
    cases w <;> simp [same]
    exact fun _ _ => sameFields_iff fs _

theorem sameList_iff : ∀ xs ys : List Value, sameList xs ys = true ↔ xs = ys
  | [], ys => by cases ys <;> simp [sameList]
  | x :: xs, ys => by
    cases ys <;> simp [sameList]
    rw [same_iff x _, sameList_iff xs _]

theorem sameFields_iff : ∀ fs gs : List (String × Value), sameFields fs gs = true ↔ fs = gs
  | [], gs => by cases gs <;> simp [sameFields]
  | (k, x) :: fs, gs => by
    rcases gs with _ | ⟨⟨l, y⟩, gs⟩ <;> simp [sameFields]
    rw [same_iff x _, sameFields_iff fs _, and_assoc]

end

instance : DecidableEq Value := fun v w => decidable_of_iff _ (same_iff v w)

def isUndef : Value → Bool
  | .undef => true
  | _ => false

mutual

/-- No float that is not finite, neither the value itself nor an element at any depth. -/
def finite : Value → Bool
  | .float x => x.isFinite
  | .array xs => finiteList xs
  | _ => true

def finiteList : List Value → Bool
  | [] => true
  | x :: xs => finite x && finiteList xs

end

end Value
end TypeLattice
