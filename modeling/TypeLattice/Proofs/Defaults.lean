import TypeLattice.Proofs.EqualValues
import TypeLattice.Proofs.FiniteText
import TypeLattice.Proofs.Instances
import TypeLattice.Proofs.Loops
import TypeLattice.Proofs.RoundTrip

/-!
# Default values in the text of a type

A default value is written after its key in the text of the type that declares it. Of the values
that are accepted the literals are read back, and the types that are not mistaken for a literal.
Nothing else is: what an entry is read as is a literal or a type, and equal values are of one kind.
-/
namespace TypeLattice

open Reading

variable {s : Store} {r : Resolver} {o : ObjectId} {u : Ty} {v w : Value} {k x text : String}
  {R : Ty → Ty → Prop} {e : String × Attribute} {ls : List Lexeme} {d : DefaultExpr TypeExpr}
  {tail : List Char} {f g : ObjectId → Option String}

theorem Binary64.isFinite_of_eq {x y : Binary64} (hx : x.isFinite = true) (h : x.eq y = true) :
    y.isFinite = true := by
  cases x with
  | finite =>
    cases y with
    | finite => rfl
    | _ => cases h
  | _ => cases hx

theorem Value.Literal.of_related (hv : v.Literal) (h : v.Related R w) : w.Literal := by
  induction hv generalizing w with
  | undef =>
    cases w with
    | undef => exact .undef
    | _ => cases h
  | bool b =>
    cases w with
    | bool c => exact .bool c
    | _ => cases h
  | integer i =>
    cases w with
    | integer j => exact .integer j
    | _ => cases h
  | float finite =>
    cases w with
    | float y => exact .float (Binary64.isFinite_of_eq finite h)
    | _ => cases h
  | string a =>
    cases w with
    | string b => exact .string b
    | _ => cases h
  | @array xs _ ih =>
    cases w with
    | array ys =>
      have hall : List.Forall₂ (Value.Related R) xs ys := Value.relatedList_iff.1 h
      refine .array ?_
      clear h
      induction hall with
      | nil => simp
      | @cons x y xs ys hxy _ ihall =>
        have hrest := ihall (fun x hx => ‹∀ x ∈ _, Value.Literal x› x (List.mem_cons_of_mem _ hx))
          fun x hx => ih x (List.mem_cons_of_mem _ hx)
        exact List.forall_mem_cons.2 ⟨ih x List.mem_cons_self hxy, hrest⟩
    | _ => cases h

namespace Store

/-- Equal values are of one kind, whatever the types in them are. -/
theorem exists_related_of_valuesEqual (h : s.valuesEqual v w = true) :
    ∃ R, v.Related R w := by
  have hdecides := Value.decides_equalsWith (g := {}) v w fun a _ b _ =>
    (s.keeps_nodesEqual a b {}).decides
  exact ⟨_, hdecides.answer.1 h⟩

theorem render?_of_keyword (h : s.typeName u ∈ keywords) : s.render? u = some (s.typeName u) := by
  cases u with
  | basic b => rfl
  | former f t m =>
    have hname : ∀ f : Former, f.name ∉ keywords := by
      intro f
      cases f <;> decide
    exact absurd h (hname f)
  | object o =>
    cases hn : s.name? o with
    | none =>
      simp [typeName, label, hn, keywords] at h
    | some name =>
      simp [render?, Ty.renderWith, objectText?, objectTextWithin, typeName, label, hn]
  | typeSet a => rfl

theorem identifier_of_keyword (h : k ∈ keywords) : Identifier k := by
  simp only [keywords, List.mem_cons, List.not_mem_nil, or_false] at h
  rcases h with rfl | rfl | rfl <;> exact identifier_of_letters (by decide) (by decide)

/-- The entry of a default value with this text, and the brace after it. -/
def entryChars (text tail : List Char) : List Char :=
  "value => ".toList ++ (text ++ '\x7d' :: tail)

/-- In front of `tail` the entry with the text of the value is read up to the brace after it, and
what is read is resolved to an equal value. -/
def ReadsBack (s : Store) (r : Resolver) (tail : List Char) (v : Value) : Prop :=
  ∃ text d ts w s', s.renderValue? v = some text ∧
    (attributeEntry typeExpr).run (Token.scan (entryChars text.toList tail)) =
      .ok (.value d, ts) ∧
    ts.map (·.lexeme) = lexemes ('\x7d' :: tail) ∧
    TypeExpr.resolveValue r d s = .ok w s' ∧ s'.valuesEqual w v = true

/-- The form of the values that are read back: a literal, or a type that does not have the name of
one. -/
def HasForm (s : Store) (v : Value) : Prop :=
  v.Literal ∨ ∃ u, v = .type u ∧ s.typeName u ∉ keywords

theorem spelled_valueKey : (Lexeme.name "value").Spelled :=
  identifier_of_letters (by decide) (by decide)

theorem toList_valueKey : "value => ".toList =
    (Lexeme.name "value").spelling ++ (Lexeme.symbol .arrow).spelling := by decide

theorem spelling_closeBrace : (Lexeme.symbol .closeBrace).spelling = ['\x7d'] := rfl

/-- The entry of what is spelled splits into its lexemes. -/
theorem lexemes_entryChars (h : Spaced ls) (tail : List Char) :
    lexemes (entryChars (spell ls) tail) =
      entry (.name "value") ls ++ .symbol .closeBrace :: lexemes tail := by
  have hspaced : Spaced (entry (.name "value") ls ++ [.symbol .closeBrace]) :=
    (h.entry spelled_valueKey).append spaced_nil
  have hchars : entryChars (spell ls) tail =
      spell (entry (.name "value") ls ++ [.symbol .closeBrace]) ++ tail := by
    unfold entryChars
    simp only [toList_valueKey, entry, List.cons_append, spell_append, spell_cons, spell_nil,
      spelling_closeBrace, List.append_assoc, List.append_nil, List.nil_append]
  rw [hchars, lexemes_spell_append hspaced (by simp [Lexeme.isSymbol])]
  simp

theorem renderValue?_type (s : Store) (u : Ty) : s.renderValue? (.type u) = s.render? u := rfl

/-- A type with the name of a literal is read as the literal. -/
theorem head_of_keyword {ts : List Token} {l : Lexeme} (hkeyword : s.typeName u ∈ keywords)
    (htext : s.renderValue? (.type u) = some text)
    (hls : Consumes (Token.scan (entryChars text.toList tail)) (entry l ls) ts)
    (hne : ls ≠ []) : ls.head? = some (.name (s.typeName u)) := by
  rw [renderValue?_type, render?_of_keyword hkeyword] at htext
  have hspaced : Spaced [.name (s.typeName u)] := .single (identifier_of_keyword hkeyword)
  have hchars : text.toList = spell [.name (s.typeName u)] := by
    rw [← Option.some.inj htext]
    simp [Lexeme.spelling]
  have happend := hls.append
  rw [hchars] at happend
  obtain ⟨m, ms, rfl⟩ := List.exists_cons_of_ne_nil hne
  have hlexemes := (lexemes_entryChars hspaced tail).symm.trans happend
  simp only [entry, List.cons_append, List.cons.injEq] at hlexemes
  simp [hlexemes.2.2.1]

theorem hasForm_of_readsBack (h : s.ReadsBack r tail v) : s.HasForm v := by
  obtain ⟨text, d, ts, w, s', htext, hrun, -, hresolve, hequal⟩ := h
  obtain ⟨R, hrelated⟩ := exists_related_of_valuesEqual hequal
  obtain ⟨ls, hls, hrule⟩ := takes_attributeEntry takes_typeExpr _ _ _ _ rfl hrun
  cases hrule with
  | value key hvalue =>
    cases hvalue with
    | literal literal =>
      rw [TypeExpr.resolveValue] at hresolve
      cases hresolve
      exact .inl (literal.literal.of_related hrelated)
    | type type word =>
      rw [TypeExpr.resolveValue] at hresolve
      obtain ⟨u', s₁, -, hresolve⟩ := Runs.of_bind_ok hresolve
      cases hresolve
      cases v with
      | type u =>
        refine .inr ⟨u, rfl, fun hkeyword => ?_⟩
        exact word _ hkeyword (head_of_keyword hkeyword htext hls (progresses_derives _ _ type))
      | _ => cases hrelated

/-- What is spelled and derived is read, and what is resolved from it equals the value. -/
theorem readsBack_of_rule (hb : s.Built) (htext : s.renderValue? v = some text)
    (hspell : text.toList = spell ls) (hls : Spaced ls) (hrule : ValueRule Derives ls d)
    (hgives : s.Ends (TypeExpr.resolveValue r d) (MeansValue v) False)
    (htail : ∀ l ∈ lexemes tail, l.isFault = false) : s.ReadsBack r tail v := by
  have htype : ImpliesUpTo ls.length Derives (ReadsType typeExpr) :=
    fun _ _ _ h => readsType_typeExpr h
  have hentry : AttributeEntryRule (ReadsType typeExpr) (entry (.name "value") ls) (.value d) :=
    .value .name (htype.valueRule _ _ le_rfl hrule)
  have hlexemes := lexemes_entryChars hls tail
  rw [← hspell] at hlexemes
  have hshows : Shows (Token.scan (entryChars text.toList tail))
      (entry (.name "value") ls ++ .symbol .closeBrace :: lexemes tail) := by
    have hkeyed : Spaced (entry (.name "value") ls) := hls.entry spelled_valueKey
    refine ⟨hlexemes, fun l hl => ?_⟩
    rcases List.mem_append.1 hl with hl | hl
    · exact (hkeyed.spelled l hl).not_isFault
    · rcases List.mem_cons.1 hl with rfl | hl
      · rfl
      · exact htail l hl
  obtain ⟨ts, hrun, hts⟩ := hentry.reads.reads .closeBrace (lexemes tail) (.inr rfl) _ hshows
  obtain ⟨w, s', hresolve, -, hb', hmeans⟩ := hgives.exists_ok hb
  refine ⟨text, d, ts, w, s', htext, hrun, ?_, hresolve, ?_⟩
  · rw [hts.1]
    exact (lexemes_symbol .closeBrace tail).symm
  · exact (valuesEqual_iff hb'.wellFormed).2 (hmeans.related s' (.refl s'))

theorem readsBack_of_hasForm (hb : s.Built) (hv : ∀ a ∈ v.nodes, s.Knows a)
    (hl : ∀ u, v = .type u → s.Legible r u) (h : s.HasForm v)
    (htail : ∀ l ∈ lexemes tail, l.isFault = false) : s.ReadsBack r tail v := by
  rcases h with hliteral | ⟨u, rfl, hword⟩
  · have hgives : s.Ends (TypeExpr.resolveValue r (v.expr fun _ => default)) (MeansValue v)
        False := by
      refine gives_default (.inl hliteral) ?_
      rintro t rfl
      cases hliteral
    rw [hliteral.expr_eq] at hgives
    exact readsBack_of_rule hb hliteral.renderWith String.toList_ofList hliteral.spaced
      (.literal hliteral.rule) hgives htail
  · obtain ⟨w, hw⟩ := (hl u rfl).exists_written hb.wellFormed hv
    have hhead : ∀ k ∈ keywords, w.lexemes.head? ≠ some (.name k) := by
      rintro k hk hhead
      rw [hw.head, Option.some.injEq, Lexeme.name.injEq] at hhead
      exact hword (hhead ▸ hk)
    have hgives : s.Ends (TypeExpr.resolveValue r ((Value.type u).expr fun _ => w))
        (MeansValue (.type u)) False := by
      refine gives_default (.inr ⟨u, rfl, hhead⟩) ?_
      rintro t ⟨⟩
      exact hw.writes.gives
    exact readsBack_of_rule hb hw.render?_eq String.toList_ofList hw.writes.spaced
      (.type hw.writes.derives hhead) hgives htail

theorem exists_of_mem_mapM {α β : Type} {f : α → Option β} {xs : List α} {ys : List β}
    (h : xs.mapM f = some ys) {x : α} (hx : x ∈ xs) : ∃ y ∈ ys, f x = some y := by
  induction xs generalizing ys with
  | nil => cases hx
  | cons x' xs ih =>
    rw [List.mapM_cons] at h
    obtain ⟨y', hy', h⟩ := Option.bind_eq_some_iff.1 h
    obtain ⟨ys', hys', h⟩ := Option.bind_eq_some_iff.1 h
    cases h
    rcases List.mem_cons.1 hx with rfl | hx
    · exact ⟨y', List.mem_cons_self, hy'⟩
    · obtain ⟨y, hy, hf⟩ := ih hys' hx
      exact ⟨y, List.mem_cons_of_mem _ hy, hf⟩

/-- Each text is a part of the list. -/
theorem exists_commaSeparated_eq {xs : List String} (h : x ∈ xs) :
    ∃ before after, (commaSeparated xs).toList = before ++ (x.toList ++ after) := by
  induction xs with
  | nil => cases h
  | cons y ys ih =>
    cases ys with
    | nil =>
      obtain rfl := List.mem_singleton.1 h
      exact ⟨[], [], by simp [commaSeparated]⟩
    | cons z zs =>
      rcases List.mem_cons.1 h with rfl | h
      · exact ⟨[], (", " ++ commaSeparated (z :: zs)).toList, by simp [commaSeparated]⟩
      · obtain ⟨before, after, heq⟩ := ih h
        refine ⟨(y ++ ", ").toList ++ before, after, ?_⟩
        rw [commaSeparated, String.toList_append, heq, List.append_assoc]
        simp

theorem toList_valueSeparator :
    ", value => ".toList = ", ".toList ++ "value => ".toList := by decide

theorem entryChars_append (value tail : List Char) :
    entryChars value [] ++ tail = entryChars value tail := by
  unfold entryChars
  simp only [List.append_assoc, List.cons_append, List.nil_append]

/-- The text of an attribute ends with the entry of its default value. -/
theorem exists_of_renderWith_attribute (hv : e.2.default = some v)
    (h : Attribute.renderWith s f g e = some x) :
    ∃ before value, v.renderWith s g = some value ∧
      x.toList = before ++ entryChars value.toList [] := by
  unfold Attribute.renderWith at h
  rw [hv] at h
  obtain ⟨type, -, h⟩ := Option.bind_eq_some_iff.1 h
  obtain ⟨value, hvalue, h⟩ := Option.bind_eq_some_iff.1 h
  have hbrace : "\x7d".toList = ['\x7d'] := by decide
  refine ⟨(Text.quoted e.1 ++ " => \x7btype => " ++ type ++ ", ").toList, value, hvalue, ?_⟩
  rw [← Option.some.inj h]
  unfold entryChars
  simp only [String.toList_append, toList_valueSeparator, hbrace, List.append_assoc]

theorem exists_of_bodyTextWith (h : s.bodyTextWith f g o = some x) :
    ∃ parent xs, (s.ownAttributes o).entries.mapM (Attribute.renderWith s f g) = some xs ∧
      "Object[\x7b" ++ parent ++ "attributes => \x7b" ++ commaSeparated xs ++ "\x7d\x7d]" = x := by
  unfold bodyTextWith at h
  cases hp : s.parent? o with
  | none =>
    simp only [hp, Option.bind_eq_bind, Option.pure_def, Option.bind_some] at h
    obtain ⟨xs, hxs, h⟩ := Option.bind_eq_some_iff.1 h
    exact ⟨_, xs, hxs, Option.some.inj h⟩
  | some p =>
    simp only [hp, Option.bind_eq_bind, Option.pure_def, Option.bind_some] at h
    obtain ⟨y, -, h⟩ := Option.bind_eq_some_iff.1 h
    obtain ⟨xs, hxs, h⟩ := Option.bind_eq_some_iff.1 h
    exact ⟨_, xs, hxs, Option.some.inj h⟩

/-- A nameless object type is written with the entries of its default values. -/
theorem exists_of_render?_object (ho : s.WrittenFully o)
    (he : e ∈ (s.ownAttributes o).entries) (hv : e.2.default = some v)
    (htext : s.render? (.object o) = some text) :
    ∃ before value tail, s.renderValue? v = some value ∧
      text.toList = before ++ entryChars value.toList tail := by
  have hnot : ¬(s.isDefault o = true ∨ o ∈ ([] : List ObjectId)) := by simp [ho.2]
  have hbody : s.bodyTextWith (s.objectTextWithin s.nodeCount [o])
      (s.objectTextWithin s.nodeCount []) o = some text := by
    change s.objectTextWithin (s.nodeCount + 1) [] o = some text at htext
    rw [objectTextWithin, ho.1] at htext
    dsimp only at htext
    rwa [if_neg hnot] at htext
  obtain ⟨parent, xs, hxs, rfl⟩ := exists_of_bodyTextWith hbody
  obtain ⟨x, hx, hrender⟩ := exists_of_mem_mapM hxs he
  obtain ⟨before, value, hvalue, hentry⟩ := exists_of_renderWith_attribute hv hrender
  obtain ⟨front, back, hlist⟩ := exists_commaSeparated_eq hx
  have hmono : s.renderValue? v = some value :=
    Value.renderWith_mono (fun p y => objectTextWithin_mono (Nat.le_succ _)) v hvalue
  refine ⟨("Object[\x7b" ++ parent ++ "attributes => \x7b").toList ++ (front ++ before), value,
    back ++ "\x7d\x7d]".toList, hmono, ?_⟩
  rw [← entryChars_append]
  simp only [String.toList_append, hlist, hentry, List.append_assoc]

/-- A default value is written as an entry in the text of its type. In front of whatever has no
fault that entry is read back exactly if the value is a literal, or a type that does not have the
name of one. -/
theorem default_readsBack_iff (hb : s.Built) (he : e ∈ (s.ownAttributes o).entries)
    (hv : e.2.default = some v) (hl : ∀ u, v = .type u → s.Legible r u) :
    (∀ text, s.WrittenFully o → s.render? (.object o) = some text →
      ∃ before value tail, s.renderValue? v = some value ∧
        text.toList = before ++ entryChars value.toList tail) ∧
    ∀ tail, (∀ l ∈ lexemes tail, l.isFault = false) → (s.ReadsBack r tail v ↔ s.HasForm v) := by
  refine ⟨fun text ho htext => exists_of_render?_object ho he hv htext, fun tail htail => ?_⟩
  refine ⟨hasForm_of_readsBack, fun h => readsBack_of_hasForm hb (fun a ha => ?_) hl h htail⟩
  have hchild : a ∈ s.children (.object o) := by
    refine List.mem_append_right _ (List.mem_flatMap.2 ⟨e, he, List.mem_append_right _ ?_⟩)
    rwa [hv]
  exact hb.wellFormed.known _ _ hchild

/-- The second default value of the nameless type is a type with a name. -/
theorem family_default_readsBack : family.Built ∧
    family.Legible familyResolver (.object (.declared 0)) ∧
    family.ReadsBack familyResolver "\x7d\x7d]".toList (.type (.object (.declared 0))) := by
  have hshown : ∀ a ∈ (Ty.object (.declared 0)).nodes, family.Shown leaves a := by
    intro a ha
    obtain rfl := List.mem_singleton.1 ha
    have hleaf : family.Shown leaves (.object (.declared 1)) :=
      .leaf (by simp [leaves, Ty.nodes])
    exact .inside hleaf rfl (by decide +kernel)
  have hl : family.Legible familyResolver (.object (.declared 0)) := legible_leaves.of_nodes hshown
  have htail : ∀ l ∈ lexemes "\x7d\x7d]".toList, l.isFault = false := by decide +kernel
  have hiff := (default_readsBack_iff (r := familyResolver) (o := .declared 1) built_family
    (List.mem_cons_of_mem _ List.mem_cons_self) rfl fun u hu => by cases hu; exact hl).2 _ htail
  exact ⟨built_family, hl, hiff.2 (.inr ⟨_, rfl, by decide⟩)⟩

/-- A body with an array of types as default value. -/
def typesBody (Parent : Type) : Body Parent where
  attributes :=
    { entries :=
        [("a", { type := .plain .array, default := some (.array [.type (.basic .integer)]) })] }

def listing : Store where
  objects := #[⟨none, some (typesBody _)⟩]

def listingText : String :=
  "Object[\x7battributes => \x7b'a' => \x7btype => Array, value => [Integer]\x7d\x7d\x7d]"

/-- The default value is accepted, and the text of the type is not read. -/
theorem listing_not_read :
    Building.newResolved none (typesBody Ty) {} = .ok (.declared 0) listing ∧
    Resolver.builtins "Integer" = some (.basic .integer) ∧
    listing.render? (.object (.declared 0)) = some listingText ∧
    TypeExpr.read Resolver.builtins listingText listing = .error (.parse 63 .typeInArray) listing ∧
    ∀ r tail, ¬listing.ReadsBack r tail (.array [.type (.basic .integer)]) := by
  have hparse : TypeExpr.parse listingText = .error (.parse 63 .typeInArray) := by
    have herror : (match TypeExpr.parse listingText with
        | .error e => some e
        | .ok _ => none) = some (.parse 63 .typeInArray) := by decide +kernel
    generalize TypeExpr.parse listingText = result at herror
    cases result with
    | error e => rw [Option.some.inj herror]
    | ok => cases herror
  refine ⟨rfl, by decide +kernel, by decide +kernel, ?_, fun r tail h => ?_⟩
  · rw [TypeExpr.read, hparse]
    rfl
  · rcases hasForm_of_readsBack h with hliteral | ⟨u, hu, -⟩
    · cases hliteral with
      | array elements => cases elements _ List.mem_cons_self
    · cases hu

end Store

end TypeLattice
