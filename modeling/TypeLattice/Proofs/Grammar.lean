import TypeLattice.Expr.Parse

/-!
# The grammar of type expressions

Which lexemes make a type expression, and which one, described apart from the reader. A rule for a
part of a type is given the rule for the types in it.
-/
namespace TypeLattice

open Reading

variable {α : Type} {n : Nat} {ls ms : List Lexeme} {as : List α} {es : List ObjectEntry}

/-- Items with commas between them, and perhaps one after the last. -/
inductive CommaList (R : List Lexeme → α → Prop) : List Lexeme → List α → Prop
  | nil : CommaList R [] []
  | last {ls : List Lexeme} {a : α} (item : R ls a) : CommaList R ls [a]
  | cons {ls ms : List Lexeme} {a : α} {as : List α} (item : R ls a) (rest : CommaList R ms as) :
      CommaList R (ls ++ .symbol .comma :: ms) (a :: as)

theorem CommaList.length_le {R : List Lexeme → α → Prop} (h : CommaList R ls as)
    (hne : ∀ ms a, R ms a → ms ≠ []) : as.length ≤ ls.length := by
  induction h with
  | nil => exact Nat.le_refl 0
  | last item => exact List.length_pos_iff.2 (hne _ _ item)
  | cons _ _ ih =>
    simp only [List.length_append, List.length_cons]
    omega

theorem CommaList.exists_of_mem {R : List Lexeme → α → Prop} (h : CommaList R ls as) {a : α}
    (ha : a ∈ as) : ∃ ms, R ms a := by
  induction h with
  | nil => cases ha
  | last item =>
    obtain rfl := List.mem_singleton.1 ha
    exact ⟨_, item⟩
  | cons item _ ih =>
    rcases List.mem_cons.1 ha with rfl | ha
    · exact ⟨_, item⟩
    · exact ih ha

def inBrackets (ls : List Lexeme) : List Lexeme :=
  .symbol .openBracket :: (ls ++ [.symbol .closeBracket])

def inBraces (ls : List Lexeme) : List Lexeme :=
  .symbol .openBrace :: (ls ++ [.symbol .closeBrace])

/-- What is written after a key and an arrow. -/
def entry (key : Lexeme) (ls : List Lexeme) : List Lexeme := key :: .symbol .arrow :: ls

/-- A key is a name or a string. -/
inductive IsKey (k : String) : Lexeme → Prop
  | name : IsKey k (.name k)
  | string : IsKey k (.string k)

/-- The value of a number: the integer of 64 bits if it is written like one and there is one,
otherwise the nearest float, which has to be finite. -/
inductive NumberValue (cs : List Char) : Value → Prop
  | integer {i : Int64} (read : integer? cs = some i) : NumberValue cs (.integer i)
  | float {x : Binary64} (other : integer? cs = none) (read : Binary64.ofChars? cs = some x)
      (finite : x.isFinite = true) : NumberValue cs (.float x)

inductive LiteralRule : List Lexeme → Value → Prop
  | undef : LiteralRule [.name "undef"] .undef
  | true : LiteralRule [.name "true"] (.bool true)
  | false : LiteralRule [.name "false"] (.bool false)
  | number {cs : List Char} {v : Value} (value : NumberValue cs v) : LiteralRule [.number cs] v
  | string (t : String) : LiteralRule [.string t] (.string t)
  | array {ls : List Lexeme} {vs : List Value} (elements : CommaList LiteralRule ls vs) :
      LiteralRule (inBrackets ls) (.array vs)

/-- Words that stand for values where a value is expected. -/
def keywords : List String := ["undef", "true", "false"]

/-- A literal or a type. The words that stand for values do not begin types here. -/
inductive ValueRule (D : List Lexeme → TypeExpr → Prop) :
    List Lexeme → DefaultExpr TypeExpr → Prop
  | literal {v : Value} {ls : List Lexeme} (literal : LiteralRule ls v) :
      ValueRule D ls (.literal v)
  | type {ls : List Lexeme} {e : TypeExpr} (type : D ls e)
      (word : ∀ k ∈ keywords, ls.head? ≠ some (.name k)) : ValueRule D ls (.type e)

namespace Reading

def AttributeEntry.type? : AttributeEntry → Option TypeExpr
  | .type e => some e
  | .value _ => none

def AttributeEntry.value? : AttributeEntry → Option (DefaultExpr TypeExpr)
  | .type _ => none
  | .value d => some d

end Reading

inductive AttributeEntryRule (D : List Lexeme → TypeExpr → Prop) :
    List Lexeme → AttributeEntry → Prop
  | type {k : Lexeme} {ls : List Lexeme} {e : TypeExpr} (key : IsKey "type" k) (type : D ls e) :
      AttributeEntryRule D (entry k ls) (.type e)
  | value {k : Lexeme} {ls : List Lexeme} {d : DefaultExpr TypeExpr} (key : IsKey "value" k)
      (value : ValueRule D ls d) : AttributeEntryRule D (entry k ls) (.value d)

/-- A type, or entries with a type among them. The last type and the last default value count. -/
inductive AttributeRule (D : List Lexeme → TypeExpr → Prop) :
    List Lexeme → AttributeDecl TypeExpr → Prop
  | type {ls : List Lexeme} {e : TypeExpr} (type : D ls e) : AttributeRule D ls { type := e }
  | entries {ls : List Lexeme} {es : List AttributeEntry} {e : TypeExpr}
      (entries : CommaList (AttributeEntryRule D) ls es)
      (typed : (es.filterMap AttributeEntry.type?).getLast? = some e) :
      AttributeRule D (inBraces ls)
        { type := e, default := (es.filterMap AttributeEntry.value?).getLast? }

inductive NamedAttributeRule (D : List Lexeme → TypeExpr → Prop) :
    List Lexeme → String × AttributeDecl TypeExpr → Prop
  | mk {k : Lexeme} {name : String} {ls : List Lexeme} {a : AttributeDecl TypeExpr}
      (key : IsKey name k) (rule : AttributeRule D ls a) :
      NamedAttributeRule D (entry k ls) (name, a)

namespace Reading.ObjectEntry

def name? : ObjectEntry → Option String
  | .name s => some s
  | _ => none

def parent? : ObjectEntry → Option TypeExpr
  | .parent e => some e
  | _ => none

def attributesOf : ObjectEntry → List (String × AttributeDecl TypeExpr)
  | .attributes as => as
  | _ => []

end Reading.ObjectEntry

inductive ObjectEntryRule (D : List Lexeme → TypeExpr → Prop) : List Lexeme → ObjectEntry → Prop
  | name {k : Lexeme} (key : IsKey "name" k) (s : String) :
      ObjectEntryRule D (entry k [.string s]) (.name s)
  | parent {k : Lexeme} {ls : List Lexeme} {e : TypeExpr} (key : IsKey "parent" k)
      (type : D ls e) : ObjectEntryRule D (entry k ls) (.parent e)
  | attributes {k : Lexeme} {ls : List Lexeme} {as : List (String × AttributeDecl TypeExpr)}
      (key : IsKey "attributes" k) (attributes : CommaList (NamedAttributeRule D) ls as) :
      ObjectEntryRule D (entry k (inBraces ls)) (.attributes as)

/-- What entries declare. The last name and the last parent count; of the attributes in all entries
the last one of each name counts, where the first one of that name stands. -/
def declared (es : List ObjectEntry) : ObjectDecl where
  name := (es.filterMap ObjectEntry.name?).getLast?
  parent := (es.filterMap ObjectEntry.parent?).getLast?
  attributes := (Table.ofList (es.flatMap ObjectEntry.attributesOf)).entries

/-- The lexemes derive the expression. -/
inductive Derives : List Lexeme → TypeExpr → Prop
  | name (s : String) : Derives [.name s] (.named s [])
  | parameterized (s : String) {ls : List Lexeme} {es : List TypeExpr}
      (parameters : CommaList Derives ls es) : Derives (.name s :: inBrackets ls) (.named s es)
  | object {ls : List Lexeme} {es : List ObjectEntry}
      (entries : CommaList (ObjectEntryRule Derives) ls es) :
      Derives (.name "Object" :: inBrackets (inBraces ls)) (.object (declared es))

variable {D D' : List Lexeme → TypeExpr → Prop} {R S : List Lexeme → α → Prop}

/-- `S` holds wherever `R` does, of at most so many lexemes. -/
def ImpliesUpTo (n : Nat) (R S : List Lexeme → α → Prop) : Prop :=
  ∀ ls a, ls.length ≤ n → R ls a → S ls a

theorem ImpliesUpTo.commaList (h : ImpliesUpTo n R S) :
    ImpliesUpTo n (CommaList R) (CommaList S) := by
  intro ls as hn hls
  induction hls with
  | nil => exact .nil
  | last item => exact .last (h _ _ hn item)
  | cons item _ ih =>
    rw [List.length_append, List.length_cons] at hn
    exact .cons (h _ _ (by omega) item) (ih (by omega))

theorem CommaList.imp (h : CommaList R ls as) (hRS : ∀ ls a, R ls a → S ls a) :
    CommaList S ls as :=
  ImpliesUpTo.commaList (fun _ _ _ => hRS _ _) ls as (Nat.le_refl _) h

namespace ImpliesUpTo

theorem valueRule (h : ImpliesUpTo n D D') : ImpliesUpTo n (ValueRule D) (ValueRule D') := by
  rintro ls _ hn (literal | ⟨type, word⟩)
  · exact .literal literal
  · exact .type (h _ _ hn type) word

theorem attributeEntryRule (h : ImpliesUpTo n D D') :
    ImpliesUpTo n (AttributeEntryRule D) (AttributeEntryRule D') := by
  rintro _ _ hn (⟨key, type⟩ | ⟨key, value⟩)
  · rw [entry, List.length_cons, List.length_cons] at hn
    exact .type key (h _ _ (by omega) type)
  · rw [entry, List.length_cons, List.length_cons] at hn
    exact .value key (h.valueRule _ _ (by omega) value)

theorem attributeRule (h : ImpliesUpTo n D D') :
    ImpliesUpTo n (AttributeRule D) (AttributeRule D') := by
  rintro _ _ hn (type | ⟨entries, typed⟩)
  · exact .type (h _ _ hn type)
  · rw [inBraces, List.length_cons, List.length_append] at hn
    exact .entries (h.attributeEntryRule.commaList _ _ (by omega) entries) typed

theorem namedAttributeRule (h : ImpliesUpTo n D D') :
    ImpliesUpTo n (NamedAttributeRule D) (NamedAttributeRule D') := by
  rintro _ _ hn ⟨key, rule⟩
  rw [entry, List.length_cons, List.length_cons] at hn
  exact .mk key (h.attributeRule _ _ (by omega) rule)

theorem objectEntryRule (h : ImpliesUpTo n D D') :
    ImpliesUpTo n (ObjectEntryRule D) (ObjectEntryRule D') := by
  rintro _ _ hn (⟨key, s⟩ | ⟨key, type⟩ | ⟨key, attributes⟩)
  · exact .name key s
  · rw [entry, List.length_cons, List.length_cons] at hn
    exact .parent key (h _ _ (by omega) type)
  · simp only [entry, inBraces, List.length_cons, List.length_append] at hn
    exact .attributes key (h.namedAttributeRule.commaList _ _ (by omega) attributes)

end ImpliesUpTo

/-- What each rule hands on from the types in a type to the type, holds of all types. -/
theorem Derives.induct {P : List Lexeme → TypeExpr → Prop} {e : TypeExpr}
    (name : ∀ s, P [.name s] (.named s []))
    (parameterized : ∀ s ls es, CommaList P ls es → P (.name s :: inBrackets ls) (.named s es))
    (object : ∀ ls es, CommaList (ObjectEntryRule P) ls es →
      P (.name "Object" :: inBrackets (inBraces ls)) (.object (declared es)))
    (h : Derives ls e) : P ls e := by
  have key : ∀ n, ImpliesUpTo n Derives P := by
    intro n
    induction n with
    | zero =>
      intro ls e hn h
      cases h <;> cases hn
    | succ n ih =>
      intro ls e hn h
      cases h with
      | name s => exact name s
      | parameterized s parameters =>
        simp only [inBrackets, List.length_cons, List.length_append] at hn
        exact parameterized s _ _ (ih.commaList _ _ (by omega) parameters)
      | object entries =>
        simp only [inBrackets, inBraces, List.length_cons, List.length_append] at hn
        exact object _ _ (ih.objectEntryRule.commaList _ _ (by omega) entries)
  exact key ls.length ls e (Nat.le_refl _) h

end TypeLattice
