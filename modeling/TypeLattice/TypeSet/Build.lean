import TypeLattice.Expr.Resolve
import TypeLattice.Text.Blank
/-!
# Building type sets

All members of a type set are created before any of them gets its body, so they may refer to each
other in any order. Inside the set a member is known by its simple name and by its qualified name;
other names are looked up outside.
-/

namespace TypeLattice

/-- The names inside a type set. -/
def Resolver.inside (setName : String) (members : Table ObjectId) (outer : Resolver) : Resolver :=
  fun name =>
    let member := match Text.split? name with
      | none => members.get? name
      | some (qualifier, simple) => if qualifier = setName then members.get? simple else none
    match member with
    | some o => some (.object o)
    | none => outer name

namespace Building

def checkName (name : String) : Building Unit :=
  if Text.allBlank name then throw (.invalidName name) else return ()

/-- A new object type for each member, in the order of declaration. -/
def newMembers (setName : String) : List (String × ObjectDecl) → Building (List (String × ObjectId))
  | [] => return []
  | (name, _) :: rest => do
    let o ← newObject (some (Text.qualify setName name))
    return (name, o) :: (← newMembers setName rest)

def resolveMembers (r : Resolver) (members : Table ObjectId) : List (String × ObjectDecl) →
    Building Unit
  | [] => return ()
  | (name, d) :: rest => do
    let b ← TypeExpr.resolveBody r d
    match members.get? name with
    | some o => resolve o b
    | none => pure ()
    resolveMembers r members rest

/-- Builds a declared type set, whose members have their bodies afterwards. -/
def typeSet (outer : Resolver) (d : TypeSetDecl) : Building SetId := do
  checkName d.name
  let members := Table.ofList (← newMembers d.name d.types.entries)
  resolveMembers (outer.inside d.name members) members d.types.entries
  newSet
    { name := some d.name, version := d.version, members := members.map fun _ o => .object o }

end Building
end TypeLattice
