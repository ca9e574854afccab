import TypeLattice.Expr.Parse
import TypeLattice.Object.Resolve
/-!
# Resolving type expressions

A resolver says which type a name stands for. The built-in names are those of the variants and,
with `Pcore::` before them, those of the object types that describe the variants. Only the names of
variants take parameters.
-/

namespace TypeLattice

abbrev Resolver := String → Option Ty

namespace Resolver

/-- The unparameterized type of each variant under its name. -/
def variants : Resolver := fun name => (Variant.ofName? name).map Ty.ofVariant

def builtins : Resolver := fun name =>
  variants name <|> (Text.after? "Pcore::" name).bind TypeSet.pcore.get?

theorem builtins_name (v : Variant) : builtins v.name = some (Ty.ofVariant v) := by
  simp [builtins, variants, Variant.ofName?_name]

end Resolver

namespace TypeExpr

mutual

/-- The type that an expression stands for. An object type that is written out becomes a new
one. -/
def resolve (r : Resolver) : TypeExpr → Building Ty
  | .named name [] =>
    match r name with
    | some t => return t
    | none => throw (.unresolvedReference name)
  | .named name (e :: es) =>
    match Variant.ofName? name with
    | some v => do
      let t ← resolve r e
      let ts ← resolveList r es
      Building.ofArguments v ((t :: ts).map .type)
    | none => throw (.unresolvedReference name)
  | .object d => do
    let b ← resolveBody r d
    return .object (← Building.newResolved d.name b)

def resolveList (r : Resolver) : List TypeExpr → Building (List Ty)
  | [] => return []
  | e :: es => do
    let t ← resolve r e
    return t :: (← resolveList r es)

/-- The body that a declaration asks for. -/
def resolveBody (r : Resolver) : Declaration TypeExpr → Building (Body Ty)
  | ⟨_, parent, attributes, constructor⟩ => do
    let parent ← resolveOption r parent
    let attributes ← resolveAttributes r attributes
    return { parent, attributes := Table.ofList attributes, constructor }

def resolveOption (r : Resolver) : Option TypeExpr → Building (Option Ty)
  | none => return none
  | some e => return some (← resolve r e)

def resolveAttributes (r : Resolver) :
    List (String × AttributeDecl TypeExpr) → Building (List (String × Attribute))
  | [] => return []
  | a :: as => do
    let b ← resolveNamed r a
    return b :: (← resolveAttributes r as)

def resolveNamed (r : Resolver) :
    String × AttributeDecl TypeExpr → Building (String × Attribute)
  | (name, d) => return (name, ← resolveAttribute r d)

def resolveAttribute (r : Resolver) : AttributeDecl TypeExpr → Building Attribute
  | ⟨type, default⟩ => do
    let type ← resolve r type
    return { type, default := ← resolveDefault r default }

def resolveDefault (r : Resolver) : Option (DefaultExpr TypeExpr) → Building (Option Value)
  | none => return none
  | some d => return some (← resolveValue r d)

def resolveValue (r : Resolver) : DefaultExpr TypeExpr → Building Value
  | .literal v => return v
  | .type e => return .type (← resolve r e)

end

/-- The type that a text stands for. -/
def read (r : Resolver) (text : String) : Building Ty :=
  match parse text with
  | .ok e => e.resolve r
  | .error e => throw e

end TypeExpr
end TypeLattice
