import TypeLattice.Proofs.Built
import TypeLattice.Proofs.Parsing

/-!
# Literals

The values that a type expression can contain, and their text.
-/
namespace TypeLattice

theorem commaList_joined {α γ : Type} {R : List Lexeme → α → Prop} {lexemesOf : γ → List Lexeme}
    {valueOf : γ → α} {xs : List γ} (h : ∀ x ∈ xs, R (lexemesOf x) (valueOf x)) :
    CommaList R (joined (xs.map lexemesOf)) (xs.map valueOf) := by
  induction xs with
  | nil => exact .nil
  | cons x xs ih =>
    have hx := h x List.mem_cons_self
    cases xs with
    | nil => exact .last hx
    | cons y ys => exact .cons hx (ih fun z hz => h z (List.mem_cons_of_mem _ hz))

namespace Value

/-- A value without types, iterators, objects and floats that are not finite. -/
inductive Literal : Value → Prop
  | undef : Literal .undef
  | bool (b : Bool) : Literal (.bool b)
  | integer (i : Int64) : Literal (.integer i)
  | float {x : Binary64} (finite : x.isFinite = true) : Literal (.float x)
  | string (t : String) : Literal (.string t)
  | array {xs : List Value} (elements : ∀ x ∈ xs, Literal x) : Literal (.array xs)

mutual

def lexemes : Value → List Lexeme
  | .undef => [.name "undef"]
  | .bool b => [.name (if b then "true" else "false")]
  | .integer i => [.number (integerText i).toList]
  | .float x => [.number (valueLayout.chars x)]
  | .string t => [.string t]
  | .array xs => .symbol .openBracket :: (joined (lexemesOfList xs) ++ [.symbol .closeBracket])
  | .type _ | .iterator .. | .object .. => []

def lexemesOfList : List Value → List (List Lexeme)
  | [] => []
  | x :: xs => lexemes x :: lexemesOfList xs

end

variable {v : Value} {xs : List Value} {s : Store} {object : ObjectId → Option String}

theorem lexemesOfList_eq (xs : List Value) : lexemesOfList xs = xs.map lexemes := by
  induction xs with
  | nil => rfl
  | cons x xs ih => rw [lexemesOfList, ih, List.map_cons]

theorem lexemes_array (xs : List Value) : (array xs).lexemes =
    .symbol .openBracket :: (joined (xs.map lexemes) ++ [.symbol .closeBracket]) := by
  rw [lexemes, lexemesOfList_eq]

theorem renderListWith_eq
    (h : ∀ x ∈ xs, x.renderWith s object = some (String.ofList (spell x.lexemes))) :
    renderListWith s object xs = some (xs.map fun x => String.ofList (spell x.lexemes)) := by
  induction xs with
  | nil => rfl
  | cons x xs ih =>
    have hx := h x List.mem_cons_self
    have hxs := ih fun y hy => h y (List.mem_cons_of_mem _ hy)
    simp [renderListWith, hx, hxs]

theorem finiteList_eq (xs : List Value) : finiteList xs = xs.all finite := by
  induction xs with
  | nil => rfl
  | cons x xs ih => rw [finiteList, ih, List.all_cons]

theorem nodesOfList_eq (xs : List Value) : nodesOfList xs = xs.flatMap nodes := by
  induction xs with
  | nil => rfl
  | cons x xs ih => rw [nodesOfList, ih, List.flatMap_cons]

theorem distinctList_iff : DistinctList xs ↔ ∀ x ∈ xs, x.Distinct := by
  induction xs with
  | nil => simp [DistinctList]
  | cons x xs ih => simp [DistinctList, ih]

namespace Literal

theorem spaced (h : v.Literal) : Spaced v.lexemes := by
  induction h with
  | undef => exact .single (identifier_of_letters (by decide) (by decide))
  | bool b =>
    cases b
    · exact .single (identifier_of_letters (by decide) (by decide))
    · exact .single (identifier_of_letters (by decide) (by decide))
  | integer i => exact .single ⟨_, Numeral.chars_ofInt i⟩
  | float finite =>
    obtain ⟨n, hn, _⟩ := Numeral.exists_float finite
    exact .single ⟨n, hn⟩
  | string t => exact .single trivial
  | @array xs _ ih =>
    have hxs : Spaced (joined (xs.map lexemes)) := by
      refine .joined fun ls hls => ?_
      obtain ⟨x, hx, rfl⟩ := List.mem_map.1 hls
      exact ih x hx
    rw [lexemes_array]
    exact (hxs.append ⟨by simp, .nil⟩).cons

theorem renderWith (h : v.Literal) :
    v.renderWith s object = some (String.ofList (spell v.lexemes)) := by
  induction h with
  | undef => rfl
  | bool b => cases b <;> rfl
  | integer i => simp [Value.renderWith, lexemes, Lexeme.spelling]
  | float => simp [Value.renderWith, lexemes, Lexeme.spelling, FloatLayout.text]
  | string t => simp [Value.renderWith, lexemes, Lexeme.spelling, Text.quoted]
  | @array xs _ ih =>
    have htexts : (xs.map fun x => String.ofList (spell x.lexemes)) =
        (xs.map lexemes).map fun ls => String.ofList (spell ls) := by
      rw [List.map_map]
      rfl
    rw [Value.renderWith, renderListWith_eq ih, Option.map_some, htexts, commaSeparated_spell,
      lexemes_array]
    apply congrArg some
    apply String.toList_inj.1
    simp [Lexeme.spelling, Symbol.text]

theorem finite (h : v.Literal) : v.finite = true := by
  induction h with
  | float finite => exact finite
  | array _ ih =>
    rw [Value.finite, finiteList_eq]
    exact List.all_eq_true.2 ih
  | _ => rfl

theorem nodes_eq_nil (h : v.Literal) : v.nodes = [] := by
  induction h with
  | array _ ih =>
    rw [Value.nodes, nodesOfList_eq]
    exact List.flatMap_eq_nil_iff.2 ih
  | _ => rfl

theorem distinct (h : v.Literal) : v.Distinct := by
  induction h with
  | array _ ih =>
    rw [Value.Distinct, distinctList_iff]
    exact ih
  | _ => trivial

/-- A literal is derived from its lexemes. -/
theorem rule (h : v.Literal) : LiteralRule v.lexemes v := by
  induction h with
  | undef => exact .undef
  | bool b => cases b <;> constructor
  | integer i =>
    refine .number (.integer ?_)
    rw [← Numeral.chars_ofInt, Numeral.integer?_chars_ofInt]
  | float finite =>
    obtain ⟨m, hm, hinteger, hfloat⟩ := Numeral.exists_float finite
    exact .number (.float (hm ▸ hinteger) (hm ▸ hfloat) finite)
  | string t => exact .string t
  | @array xs _ ih =>
    have helements := commaList_joined ih
    rw [List.map_id'] at helements
    rw [lexemes_array]
    exact .array helements

end Literal

end Value

theorem LiteralRule.literal {ls : List Lexeme} {v : Value} (h : LiteralRule ls v) : v.Literal := by
  have key : ∀ n, ImpliesUpTo n LiteralRule fun _ v => v.Literal := by
    intro n
    induction n with
    | zero =>
      intro ls v hn h
      cases h <;> cases hn
    | succ n ih =>
      intro ls v hn h
      cases h with
      | undef => exact .undef
      | true => exact .bool _
      | false => exact .bool _
      | number value =>
        cases value with
        | integer => exact .integer _
        | float _ _ finite => exact .float finite
      | string t => exact .string t
      | array elements =>
        rw [inBrackets, List.length_cons, List.length_append] at hn
        refine .array fun x hx => ?_
        exact ((ih.commaList _ _ (by omega) elements).exists_of_mem hx).choose_spec
  exact key ls.length ls v le_rfl h

end TypeLattice
