import TypeLattice.Relation.Equality
/-!
# Assignability

A type accepts another when every value of the other is a value of it. An object type accepts its
equals and the types that inherit from one, and `Object` accepts every object type. A type set
accepts its equals, and `TypeSet` every set.
-/

namespace TypeLattice

def Basic.accepts : Basic → Ty → Bool
  | .any, _ | .unit, _ => true
  | .numeric, t => t = .basic .numeric ∨ t = .basic .integer ∨ t = .basic .float
  | b, t => t = .basic b

namespace Store

/-- Some type in the line of `p` equals `o`. -/
def inheritsWith (s : Store) (o : ObjectId) (p : ObjectId) : Compare :=
  (s.line p).anyM fun q => s.nodesEqual (.object o) (.object q)

def acceptsWith (s : Store) : Ty → Ty → Compare
  | .basic b, u => pure (b.accepts u)
  | .former .optional _ _, .basic .undef => pure true
  | .former .optional t _, .former .optional u _ => acceptsWith s t u
  | .former .optional t _, u => acceptsWith s t u
  | .former f t _, .former g u _ => if f = g then acceptsWith s t u else pure false
  | .object o, .object p => if s.isDefault o then pure true else s.inheritsWith o p
  | .typeSet a, .typeSet b =>
    if a = .default then pure true else s.nodesEqual (.typeSet a) (.typeSet b)
  | _, _ => pure false

/-- Every value of `u` is a value of `t`. -/
def accepts (s : Store) (t u : Ty) : Bool := ((s.acceptsWith t u).run {}).1

end Store
end TypeLattice
