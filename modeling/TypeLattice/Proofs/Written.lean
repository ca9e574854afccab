import TypeLattice.Expr.Resolve
import TypeLattice.Proofs.Alike
import TypeLattice.Proofs.Extension
import TypeLattice.Proofs.Literals

/-!
# Types in writing

How a type is written: its lexemes and the expression they are read as. A nameless object type is
written in full, from what is written for the types in it, so a type can be written if no nameless
object type in it comes back to itself.
-/
namespace TypeLattice

/-- What is written where a type is expected, read as this expression. -/
structure Writing where
  lexemes : List Lexeme
  expr : TypeExpr

namespace Writing

instance : Inhabited Writing := ⟨⟨[], .named "" []⟩⟩

def named (name : String) : Writing := ⟨[.name name], .named name []⟩

def former (f : Former) (w : Writing) : Writing :=
  ⟨.name f.name :: .symbol .openBracket :: (w.lexemes ++ [.symbol .closeBracket]),
    .named f.name [w.expr]⟩

end Writing

def braced (lss : List (List Lexeme)) : List Lexeme :=
  .symbol .openBrace :: (joined lss ++ [.symbol .closeBrace])

namespace Value

def written (write : Ty → Writing) : Value → List Lexeme
  | .type t => (write t).lexemes
  | v => v.lexemes

def expr (write : Ty → Writing) : Value → DefaultExpr TypeExpr
  | .type t => .type (write t).expr
  | v => .literal v

end Value

namespace Attribute

/-- The lexemes of an attribute after its name. -/
def written (write : Ty → Writing) (a : Attribute) : List Lexeme :=
  match a.default with
  | none => (write a.type).lexemes
  | some v =>
    braced [entry (.name "type") (write a.type).lexemes, entry (.name "value") (v.written write)]

def expr (write : Ty → Writing) (a : Attribute) : AttributeDecl TypeExpr :=
  { type := (write a.type).expr, default := a.default.map (Value.expr write) }

/-- The types in an attribute: its type, and its default value if that is a type. -/
def types (a : Attribute) : List Ty :=
  match a.default with
  | some (.type t) => [a.type, t]
  | _ => [a.type]

end Attribute

namespace Store

variable (s : Store) (write : Ty → Writing) (o : ObjectId)

/-- The types in the text of a nameless object type. -/
def parts : List Ty :=
  ((s.parent? o).map Ty.object).toList ++ (s.ownAttributes o).entries.flatMap (·.2.types)

def attributesWritten : List (List Lexeme) :=
  (s.ownAttributes o).entries.map fun e => entry (.string e.1) (e.2.written write)

/-- A nameless object type in full, given how the types in it are written. -/
def fullWriting : Writing where
  lexemes :=
    .name "Object" :: .symbol .openBracket ::
      (braced
        (((s.parent? o).map fun p => entry (.name "parent") (write (.object p)).lexemes).toList ++
          [entry (.name "attributes") (braced (s.attributesWritten write o))]) ++
        [.symbol .closeBracket])
  expr :=
    .object
      { parent := (s.parent? o).map fun p => (write (.object p)).expr
        attributes := (s.ownAttributes o).entries.map fun e => (e.1, e.2.expr write) }

end Store

namespace Store

/-- The default value can be written: a literal, or a type that is not mistaken for one. -/
def Writable (write : Ty → Writing) (v : Value) : Prop :=
  v.Literal ∨ ∃ t, v = .type t ∧ ∀ k ∈ keywords, (write t).lexemes.head? ≠ some (.name k)

/-- How types are written. A name stands for a type that equals the one that is written, and does so
in every store that is built on from here. -/
inductive Writes (s : Store) (r : Resolver) : Ty → Writing → Prop
  | named {t u : Ty} {name : String} (identifier : Identifier name) (resolved : r name = some u)
    (known : s.Has u) (equal : ∀ s', s.Extends s' → s'.Equal u t) : Writes s r t (.named name)
  | former {t : Ty} {w : Writing} (f : Former) (m : ℕ) (parameter : Writes s r t w) :
    Writes s r (.former f t m) (.former f w)
  | full {o : ObjectId} {write : Ty → Writing} (known : s.Knows (.object o))
    (nameless : s.name? o = none) (parts : ∀ t ∈ s.parts o, Writes s r t (write t))
    (defaults : ∀ e ∈ (s.ownAttributes o).entries, ∀ v, e.2.default = some v → Writable write v) :
    Writes s r (.object o) (s.fullWriting write o)

end Store

variable {key : Lexeme} {ls : List Lexeme} {lss : List (List Lexeme)}

theorem Spaced.entry (hk : key.Spelled) (h : Spaced ls) : Spaced (entry key ls) :=
  (Spaced.single hk).append h

theorem spaced_nil : Spaced [] := ⟨by simp, .nil⟩

theorem Spaced.braced (h : ∀ ls ∈ lss, Spaced ls) : Spaced (braced lss) :=
  ((Spaced.joined h).append spaced_nil).cons

theorem identifier_variant (v : Variant) : Identifier v.name := by
  refine identifier_of_letters ?_ ?_
  · rcases v with (_ | _ | _ | _ | _ | _ | _ | _) | (_ | _ | _ | _) | _ | _ <;> decide
  · rcases v with (_ | _ | _ | _ | _ | _ | _ | _) | (_ | _ | _ | _) | _ | _ <;> decide

theorem Value.Literal.written_eq {v : Value} (h : v.Literal) (write : Ty → Writing) :
    v.written write = v.lexemes := by
  cases h <;> rfl

theorem Value.Literal.expr_eq {v : Value} (h : v.Literal) (write : Ty → Writing) :
    v.expr write = .literal v := by
  cases h <;> rfl

namespace Attribute

variable {a : Attribute} {v : Value} {write : Ty → Writing}

theorem type_mem_types (a : Attribute) : a.type ∈ a.types := by
  unfold types
  split <;> simp

theorem mem_types_of_default {t : Ty} (h : a.default = some (.type t)) : t ∈ a.types := by
  simp [types, h]

theorem spaced_default (ht : ∀ t ∈ a.types, Spaced (write t).lexemes) (hv : a.default = some v)
    (hw : Store.Writable write v) : Spaced (v.written write) := by
  rcases hw with hl | ⟨t, rfl, _⟩
  · rw [hl.written_eq]
    exact hl.spaced
  · exact ht t (mem_types_of_default hv)

theorem spaced_written (ht : ∀ t ∈ a.types, Spaced (write t).lexemes)
    (hv : ∀ v, a.default = some v → Store.Writable write v) : Spaced (a.written write) := by
  have htype := ht _ a.type_mem_types
  unfold written
  cases hd : a.default with
  | none => exact htype
  | some v =>
    refine .braced fun ls hls => ?_
    simp only [List.mem_cons, List.not_mem_nil, or_false] at hls
    rcases hls with rfl | rfl
    · exact htype.entry (identifier_of_letters (by decide) (by decide))
    · exact (spaced_default ht hd (hv v hd)).entry (identifier_of_letters (by decide) (by decide))

end Attribute

namespace Store

variable {s : Store} {r : Resolver} {t : Ty} {w : Writing} {write : Ty → Writing} {o p : ObjectId}

theorem parent_mem_parts (h : s.parent? o = some p) : .object p ∈ s.parts o := by
  simp [parts, h]

theorem types_subset_parts {e : String × Attribute} (he : e ∈ (s.ownAttributes o).entries) :
    e.2.types ⊆ s.parts o := fun _ ht =>
  List.mem_append_right _ (List.mem_flatMap.2 ⟨e, he, ht⟩)

theorem spaced_attributesWritten (ht : ∀ t ∈ s.parts o, Spaced (write t).lexemes)
    (hv : ∀ e ∈ (s.ownAttributes o).entries, ∀ v, e.2.default = some v → Writable write v) :
    ∀ ls ∈ s.attributesWritten write o, Spaced ls := by
  intro ls hls
  obtain ⟨e, he, rfl⟩ := List.mem_map.1 hls
  exact (Attribute.spaced_written (fun t hte => ht t (types_subset_parts he hte)) (hv e he)).entry
    trivial

namespace Writes

/-- What is written can be told apart into its lexemes. -/
theorem spaced (h : s.Writes r t w) : Spaced w.lexemes := by
  induction h with
  | named identifier => exact .single identifier
  | former f m _ ih =>
    have hname : Spaced [.name f.name] := .single (identifier_variant (.former f))
    exact hname.append (ih.append spaced_nil)
  | @full o write _ _ _ defaults ih =>
    have hobject : Spaced [.name "Object"] := .single (identifier_variant .object)
    refine hobject.append ((Spaced.braced fun ls hls => ?_).append spaced_nil)
    rcases List.mem_append.1 hls with hls | hls
    · obtain ⟨p, hp, rfl⟩ := Option.map_eq_some_iff.1 (Option.mem_toList.1 hls)
      exact (ih _ (parent_mem_parts hp)).entry (identifier_of_letters (by decide) (by decide))
    · obtain rfl := List.mem_singleton.1 hls
      exact (Spaced.braced (spaced_attributesWritten ih defaults)).entry
        (identifier_of_letters (by decide) (by decide))

end Writes

end Store
end TypeLattice
