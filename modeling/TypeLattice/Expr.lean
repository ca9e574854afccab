import TypeLattice.Store
/-!
# Type expressions

Types as they are written, before their names are looked up. An expression is a name, perhaps with
parameters, or the declaration of an object type. A type set is declared by the declarations of its
members.
-/

namespace TypeLattice

/-- A declared default value: a value, or a type that is still an expression. -/
inductive DefaultExpr (Expr : Type) where
  | literal (v : Value)
  | type (e : Expr)

structure AttributeDecl (Expr : Type) where
  type : Expr
  default : Option (DefaultExpr Expr) := none

/-- The declaration of an object type over a given sort of expressions. -/
structure Declaration (Expr : Type) where
  name : Option String := none
  parent : Option Expr := none
  attributes : List (String × AttributeDecl Expr) := []
  constructor : Option Constructor := none

inductive TypeExpr where
  | named (name : String) (parameters : List TypeExpr)
  | object (declaration : Declaration TypeExpr)

abbrev ObjectDecl := Declaration TypeExpr

/-- The declaration of a type set. Its name is not yet checked. -/
structure TypeSetDecl where
  name : String
  version : Option String := none
  types : Table ObjectDecl := .empty

variable {Expr : Type}

def DefaultExpr.parts : DefaultExpr Expr → List Expr
  | .literal _ => []
  | .type e => [e]

def AttributeDecl.parts (a : AttributeDecl Expr) : List Expr :=
  a.type :: (a.default.map DefaultExpr.parts).getD []

namespace Declaration

def parts (d : Declaration Expr) : List Expr :=
  d.parent.toList ++ d.attributes.flatMap (·.2.parts)

/-- Declares an attribute, in place of an earlier one of that name. -/
def withAttribute (d : Declaration Expr) (name : String) (a : AttributeDecl Expr) :
    Declaration Expr :=
  { d with attributes := put name a d.attributes }

end Declaration

namespace TypeExpr

theorem sizeOf_lt_of_mem_parts {e : TypeExpr} {d : ObjectDecl} (h : e ∈ d.parts) :
    sizeOf e < sizeOf d := by
  obtain ⟨name, parent, attributes, constructor⟩ := d
  simp only [Declaration.parts, List.mem_append, Option.mem_toList, List.mem_flatMap] at h
  simp only [Declaration.mk.sizeOf_spec]
  rcases h with h | ⟨⟨k, a⟩, hmem, h⟩
  · subst h
    simp only [Option.some.sizeOf_spec]
    omega
  · have hlt := List.sizeOf_lt_of_mem hmem
    have hle : sizeOf e < sizeOf a := by
      obtain ⟨type, default⟩ := a
      simp only [AttributeDecl.parts, List.mem_cons] at h
      simp only [AttributeDecl.mk.sizeOf_spec]
      rcases h with rfl | h
      · omega
      · rcases default with _ | _ | t
        · simp at h
        · simp [DefaultExpr.parts] at h
        · obtain rfl : e = t := by simpa [DefaultExpr.parts] using h
          simp only [Option.some.sizeOf_spec, DefaultExpr.type.sizeOf_spec]
          omega
    simp only [Prod.mk.sizeOf_spec] at hlt
    omega

/-- What holds of an expression if it holds of its parameters, or of the expressions in its
declaration, holds of all. -/
@[induction_eliminator]
theorem induct {P : TypeExpr → Prop} (named : ∀ name es, (∀ e ∈ es, P e) → P (.named name es))
    (object : ∀ d : ObjectDecl, (∀ e ∈ d.parts, P e) → P (.object d)) : ∀ e, P e
  | .named name es => named name es fun e _ => induct named object e
  | .object d => object d fun e _ => induct named object e
termination_by e => sizeOf e
decreasing_by
  · have := List.sizeOf_lt_of_mem ‹_ ∈ es›
    simp only [TypeExpr.named.sizeOf_spec]
    omega
  · have := sizeOf_lt_of_mem_parts ‹_›
    simp only [TypeExpr.object.sizeOf_spec]
    omega

end TypeExpr
end TypeLattice
