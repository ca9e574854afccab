import TypeLattice.Proofs.Declared
import TypeLattice.Proofs.Literals

/-!
# What texts mean

A text that is read means a type that its expression denotes. Expressions from texts hold literal
values only, which refer to nothing, so a text keeps its meaning while names keep theirs.
-/
namespace TypeLattice

open Reading Store

variable {ls : List Lexeme} {e : TypeExpr} {d : DefaultExpr TypeExpr} {a : AttributeDecl TypeExpr}
  {s s' s₁ s₂ : Store} {r r' : Resolver} {t : Ty} {text : String}

/-- All values in the expression are literals. -/
def OnlyLiterals (e : TypeExpr) : Prop := ∀ v, e.HasLiteral v → v.Literal

/-- All values among these and in these expressions are literals. -/
structure LiteralParts (es : List TypeExpr) (vs : List Value) : Prop where
  parts : ∀ e ∈ es, OnlyLiterals e
  values : ∀ v ∈ vs, v.Literal

theorem ValueRule.literalParts (h : ValueRule (fun _ => OnlyLiterals) ls d) :
    LiteralParts d.parts d.literals := by
  cases h with
  | literal literal =>
    exact ⟨by simp [DefaultExpr.parts], by simpa [DefaultExpr.literals] using literal.literal⟩
  | type type => exact ⟨by simpa [DefaultExpr.parts] using type, by simp [DefaultExpr.literals]⟩

/-- The values that an attribute holds itself. -/
def AttributeDecl.literals {Expr : Type} (a : AttributeDecl Expr) : List Value :=
  (a.default.map DefaultExpr.literals).getD []

theorem AttributeRule.literalParts (h : AttributeRule (fun _ => OnlyLiterals) ls a) :
    LiteralParts a.parts a.literals := by
  cases h with
  | type type =>
    exact ⟨by simpa [AttributeDecl.parts] using type, by simp [AttributeDecl.literals]⟩
  | @entries ls es e entries typed =>
    have htype : OnlyLiterals e := by
      obtain ⟨x, hx, hxe⟩ := List.mem_filterMap.1 (List.mem_of_getLast? typed)
      obtain ⟨ms, hrule⟩ := entries.exists_of_mem hx
      cases hrule with
      | type _ type => exact Option.some.inj hxe ▸ type
      | value => cases hxe
    have hvalue : ∀ d, (es.filterMap AttributeEntry.value?).getLast? = some d →
        LiteralParts d.parts d.literals := by
      intro d hd
      obtain ⟨x, hx, hxd⟩ := List.mem_filterMap.1 (List.mem_of_getLast? hd)
      obtain ⟨ms, hrule⟩ := entries.exists_of_mem hx
      cases hrule with
      | type => cases hxd
      | value _ value => exact Option.some.inj hxd ▸ value.literalParts
    simp only [AttributeDecl.parts, AttributeDecl.literals]
    cases hd : (es.filterMap AttributeEntry.value?).getLast? with
    | none => exact ⟨by simpa using htype, by simp⟩
    | some d =>
      obtain ⟨parts, values⟩ := hvalue d hd
      exact ⟨by simpa using ⟨htype, parts⟩, values⟩

/-- What entries declare holds literal values only if the entries do. -/
theorem literalParts_declared {es : List ObjectEntry}
    (h : CommaList (ObjectEntryRule fun _ => OnlyLiterals) ls es) :
    LiteralParts (declared es).parts (declared es).literals := by
  have hattribute : ∀ b ∈ (declared es).attributes, LiteralParts b.2.parts b.2.literals := by
    intro b hb
    obtain ⟨x, hx, hbx⟩ := List.mem_flatMap.1 (Table.mem_of_mem_ofList hb)
    obtain ⟨ms, hrule⟩ := h.exists_of_mem hx
    cases hrule with
    | name | parent => cases hbx
    | attributes _ attributes =>
      obtain ⟨ms, ⟨_, rule⟩⟩ := attributes.exists_of_mem hbx
      exact rule.literalParts
  constructor
  · intro e he
    rcases List.mem_append.1 he with he | he
    · obtain ⟨x, hx, hxe⟩ := List.mem_filterMap.1 (List.mem_of_getLast? (Option.mem_toList.1 he))
      obtain ⟨ms, hrule⟩ := h.exists_of_mem hx
      cases hrule with
      | parent _ type => exact Option.some.inj hxe ▸ type
      | name | attributes => cases hxe
    · obtain ⟨b, hb, he⟩ := List.mem_flatMap.1 he
      exact (hattribute b hb).parts e he
  · intro v hv
    obtain ⟨b, hb, hv⟩ := List.mem_flatMap.1 hv
    exact (hattribute b hb).values v hv

theorem Derives.onlyLiterals (h : Derives ls e) : OnlyLiterals e := by
  refine h.induct (P := fun _ => OnlyLiterals) ?_ ?_ ?_
  · intro s v hv
    simp at hv
  · intro s ls es hes v hv
    obtain ⟨e, he, hv⟩ := TypeExpr.hasLiteral_named.1 hv
    obtain ⟨ms, hliteral⟩ := hes.exists_of_mem he
    exact hliteral v hv
  · intro ls es hes v hv
    obtain ⟨parts, values⟩ := literalParts_declared hes
    rcases TypeExpr.hasLiteral_object.1 hv with hv | ⟨e, he, hv⟩
    · exact values v hv
    · exact parts e he v hv

namespace TypeExpr

theorem onlyLiterals_of_parse (h : parse text = .ok e) : OnlyLiterals e := by
  obtain ⟨ls, -, hderives⟩ := derives_of_parseChars (parse_eq_ok_iff.1 h)
  exact hderives.onlyLiterals

theorem hasValue_of_literal {v : Value} (h : v.Literal) (s : Store) : s.HasValue v :=
  ⟨by simp [h.nodes_eq_nil], h.distinct⟩

/-- A text of this expression is read as a type that the expression denotes, if it denotes any. -/
theorem ends_read (hr : ∀ n t, r n = some t → s.Has t) (he : parse text = .ok e) :
    s.Ends (read r text) (fun s' => Found r s' e) (¬∃ t, s.Denotes r e t) := by
  have hread : read r text = e.resolve r := by
    rw [read, he]
  rw [hread]
  exact finds (fun n => Option.Rel.refl (fun t => Eq.refl t.variant) (r n)) hr
    fun v hv => hasValue_of_literal (onlyLiterals_of_parse he v hv) s

theorem found_of_read (hs : s.Built) (hr : ∀ n t, r n = some t → s.Has t)
    (h : read r text s = .ok t s') :
    ∃ e, parse text = .ok e ∧ s.Extends s' ∧ s'.Built ∧ Found r s' e t := by
  obtain ⟨e, he⟩ : ∃ e, parse text = .ok e := by
    unfold read at h
    cases hp : parse text with
    | error e =>
      rw [hp] at h
      cases h
    | ok e => exact ⟨e, rfl⟩
  have hends := ends_read hr he s (.refl s) hs
  rw [h] at hends
  exact ⟨e, he, hends⟩

/-- Where more is built and more names have types, a text that could be read is read as an equal
type. -/
theorem read_again (hs : s.Built) (hr : ∀ n t, r n = some t → s.Has t)
    (h : read r text s = .ok t s₁) (hs₂ : s₂.Built) (hgrows : s₁.Grows s₂)
    (hr' : ∀ n t, r' n = some t → s₂.Has t) (hnames : ∀ n t, r n = some t → r' n = some t) :
    ∃ t' s', read r' text s₂ = .ok t' s' ∧ s'.equals t t' = true := by
  obtain ⟨e, he, -, -, -, hdenotes⟩ := found_of_read hs hr h
  have hlater : s₂.Denotes r' e t := (hdenotes.later hgrows).of_names hnames
  have hends := ends_read hr' he s₂ (.refl s₂) hs₂
  cases hread : read r' text s₂ with
  | error err s' =>
    rw [hread] at hends
    exact absurd ⟨t, hlater⟩ hends.2.2
  | ok t' s' =>
    rw [hread] at hends
    obtain ⟨hext, hs', -, hdenotes'⟩ := hends
    have hequal : s'.Equal t t' := (hlater.later hext.grows).equal hdenotes'
      fun n => Option.Rel.refl (Equal.refl s') (r' n)
    exact ⟨t', s', rfl, (equals_iff hs'.wellFormed).2 hequal⟩

end TypeExpr
end TypeLattice
