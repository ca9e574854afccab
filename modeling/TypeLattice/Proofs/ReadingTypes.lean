import TypeLattice.Proofs.Written

/-!
# Types are read from writing

The grammar derives from what is written for a type the expression that was written.
-/
namespace TypeLattice

open Reading

variable {s : Store} {r : Resolver} {t : Ty} {w : Writing} {write : Ty → Writing} {o : ObjectId}

theorem rule_default {v : Value} (hw : Store.Writable write v)
    (ht : ∀ t, v = .type t → Derives (write t).lexemes (write t).expr) :
    ValueRule Derives (v.written write) (v.expr write) := by
  rcases hw with hliteral | ⟨t, rfl, hword⟩
  · rw [hliteral.written_eq, hliteral.expr_eq]
    exact .literal hliteral.rule
  · exact .type (ht t rfl) hword

theorem rule_attribute {a : Attribute}
    (ht : ∀ t ∈ a.types, Derives (write t).lexemes (write t).expr)
    (hv : ∀ v, a.default = some v → Store.Writable write v) :
    AttributeRule Derives (a.written write) (a.expr write) := by
  have htype := ht _ a.type_mem_types
  unfold Attribute.written Attribute.expr
  cases hd : a.default with
  | none => exact .type htype
  | some v =>
    have hvalue := rule_default (hv v hd) fun t h => ht t (a.mem_types_of_default (h ▸ hd))
    exact .entries (.cons (.type .name htype) (.last (.value .name hvalue))) rfl

theorem rule_attributes
    (ht : ∀ t ∈ s.parts o, Derives (write t).lexemes (write t).expr)
    (hv : ∀ e ∈ (s.ownAttributes o).entries, ∀ v, e.2.default = some v → Store.Writable write v) :
    ObjectEntryRule Derives (entry (.name "attributes") (braced (s.attributesWritten write o)))
      (.attributes ((s.ownAttributes o).entries.map fun e => (e.1, e.2.expr write))) := by
  have hattribute : ∀ e ∈ (s.ownAttributes o).entries,
      NamedAttributeRule Derives (entry (.string e.1) (e.2.written write))
        (e.1, e.2.expr write) := fun e he =>
    .mk .string (rule_attribute (fun t hte => ht t (Store.types_subset_parts he hte)) (hv e he))
  exact .attributes .name (commaList_joined hattribute)

theorem declared_attributes {as : List (String × AttributeDecl TypeExpr)}
    (hn : (as.map (·.1)).Nodup) (parent : Option TypeExpr) :
    declared ((parent.map ObjectEntry.parent).toList ++ [.attributes as]) =
      { parent := parent, attributes := as } := by
  have hentries : (Table.ofList (as ++ [])).entries = as := by
    rw [List.append_nil, Table.entries_ofList hn]
  cases parent with
  | none => exact congrArg (fun es => ({ attributes := es } : ObjectDecl)) hentries
  | some e =>
    exact congrArg (fun es => ({ parent := some e, attributes := es } : ObjectDecl)) hentries

theorem derives_full (ht : ∀ t ∈ s.parts o, Derives (write t).lexemes (write t).expr)
    (hv : ∀ e ∈ (s.ownAttributes o).entries, ∀ v, e.2.default = some v → Store.Writable write v) :
    Derives (s.fullWriting write o).lexemes (s.fullWriting write o).expr := by
  have hattributes := rule_attributes ht hv
  have hnodup :
      (((s.ownAttributes o).entries.map fun e => (e.1, e.2.expr write)).map (·.1)).Nodup := by
    rw [List.map_map]
    exact (s.ownAttributes o).nodup
  unfold Store.fullWriting
  rw [← declared_attributes hnodup]
  cases hp : s.parent? o with
  | none => exact .object (.last hattributes)
  | some p =>
    have hparent := ht _ (Store.parent_mem_parts hp)
    exact .object (.cons (.parent .name hparent) (.last hattributes))

theorem Store.Writes.derives (h : s.Writes r t w) : Derives w.lexemes w.expr := by
  induction h with
  | named => exact .name _
  | former f m _ ih => exact .parameterized f.name (.last ih)
  | full _ _ _ defaults ih => exact derives_full ih defaults

/-- The text of a type is read as the expression that was written. -/
theorem Store.Writes.parse (h : s.Writes r t w) :
    TypeExpr.parse (String.ofList (spell w.lexemes)) = .ok w.expr := by
  rw [TypeExpr.parse_eq_ok_iff, String.toList_ofList]
  exact TypeExpr.parseChars_of_derives (lexemes_spell h.spaced)
    (fun l hl => (h.spaced.spelled l hl).not_isFault) h.derives

end TypeLattice
