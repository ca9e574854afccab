import TypeLattice.Proofs.Lookups

/-!
# Qualified names in texts

A name with the name of a set before it is a name again if it begins with a letter. A name may also
begin with an underscore, but after `::` no name goes on with one: the name of the set ends there,
and nothing can be read at the colons.
-/
namespace TypeLattice

open Store Token

variable {c : Char} {cs ds rest here : List Char} {s setName k : String} {f : ParseFault}

/-- A text is read as one name without parameters, itself, exactly if it is a name. -/
theorem TypeExpr.parse_eq_named_iff : parse s = .ok (.named s []) ↔ IsName s.toList := by
  constructor
  · intro h
    obtain ⟨ls, hsplits, hderives⟩ := derives_of_parseChars (parse_eq_ok_iff.1 h)
    cases hderives with
    | name => exact hsplits.isName
    | parameterized => exact hsplits.isName
  · intro h
    have hlexemes : lexemes s.toList = [.name s] ++ [.stop] := h.identifier
    exact parse_eq_ok_iff.2 (parseChars_of_derives hlexemes (by simp [Lexeme.isFault]) (.name s))

theorem IsName.qualify (hset : IsName setName.toList) (h : IsName k.toList)
    (hk : k.toList.head? ≠ some '_') : IsName (Text.qualify setName k).toList := by
  obtain ⟨c, ds, hcs, -, htail⟩ := h.exists_tail
  rw [hcs] at h hk
  have hletter : c.isAlpha = true := h.isAlpha_or.resolve_right fun hc => hk (congrArg some hc)
  rw [Text.toList_qualify, hcs]
  exact hset.append_tail (.colons hletter htail)

theorem lexemes_colon (cs : List Char) :
    lexemes (':' :: cs) = [.fault (.invalidCharacter ':') (':' :: cs)] := by
  have hdrop : (':' :: cs).dropWhile Text.isBlank = ':' :: cs :=
    List.dropWhile_cons_of_neg (by decide)
  have hnext : next ':' cs = (.fault (.invalidCharacter ':') (':' :: cs), cs) := by
    unfold next
    simp [isNameStart]
  rw [lexemes, scan]
  split
  · simp_all
  · simp_all [Lexeme.isFault]

/-- Before an underscore the name of the set is read alone, and at the colons nothing is. -/
theorem lexemes_qualify (hset : IsName setName.toList) (hk : k.toList.head? = some '_') :
    lexemes (Text.qualify setName k).toList =
      [.name setName, .fault (.invalidCharacter ':') (':' :: ':' :: k.toList)] := by
  obtain ⟨c, ds, hcs, hc, htail⟩ := hset.exists_tail
  obtain ⟨es, hes⟩ : ∃ es, k.toList = '_' :: es := List.head?_eq_some_iff.1 hk
  have hname : String.ofList (c :: ds) = setName := by rw [← hcs, String.ofList_toList]
  have hnext : next c (ds ++ ':' :: ':' :: k.toList) = (.name setName, ':' :: ':' :: k.toList) := by
    rw [next_of_isNameStart hc, hes, htail.takeName_append_colons (by decide), hname]
  rw [Text.toList_qualify, hcs, List.cons_append,
    lexemes_cons (not_isBlank_of_isNameStart hc) hnext rfl, lexemes_colon]

namespace TypeExpr

theorem parseChars_of_fault (h : lexemes cs = [.name s, .fault f here]) :
    parseChars cs = .error ⟨f, here⟩ := by
  obtain ⟨t, ts, hscan, ht, hts⟩ := List.map_eq_cons_iff.1 h
  obtain ⟨u, us, rfl, hu, hus⟩ := List.map_eq_cons_iff.1 hts
  obtain rfl := List.map_eq_nil_iff.1 hus
  obtain ⟨l, h₁⟩ := t
  obtain ⟨m, h₂⟩ := u
  cases ht
  cases hu
  unfold parseChars
  rw [hscan]
  rfl

/-- Of two names the qualified one is a name again, unless the second begins with an underscore. -/
theorem parse_qualify (hset : parse setName = .ok (.named setName []))
    (h : parse k = .ok (.named k [])) :
    parse (Text.qualify setName k) =
      if k.toList.head? = some '_' then
        .error (.parse (Text.byteCount setName.toList) (.invalidCharacter ':'))
      else .ok (.named (Text.qualify setName k) []) := by
  rw [parse_eq_named_iff] at hset h
  split_ifs with hk
  · have hfault := parseChars_of_fault (lexemes_qualify hset hk)
    unfold parse
    rw [hfault, Text.toList_qualify, Text.byteCount_append]
    simp
  · exact parse_eq_named_iff.2 (hset.qualify h hk)

end TypeExpr

namespace Catalogue

variable {c c' c'' : Catalogue} {d : TypeSetDecl} {t : SetId}

/-- If the name of a registered set and the one of a member are each read as one name, then the text
of the member, which is its qualified name, is read as the member, now and later, unless the name of
the member begins with an underscore. Then the first colon is refused. -/
theorem read_qualified (hc : c.Reached) (hd : d.LiteralsIn c.store)
    (h : Registering.typeSet d c = .ok t c') (hlater : c'.Gains c'')
    (hset : TypeExpr.parse d.name = .ok (.named d.name [])) (hk : k ∈ d.types.keys)
    (hmember : TypeExpr.parse k = .ok (.named k [])) :
    ∃ o, (c'.store.set t).members.get? k = some (.object o) ∧
      c''.store.render? (.object o) = some (Text.qualify d.name k) ∧
      TypeExpr.read c''.registry.resolver (Text.qualify d.name k) c''.store =
        if k.toList.head? = some '_' then
          .error (.parse (Text.byteCount d.name.toList) (.invalidCharacter ':')) c''.store
        else .ok (.object o) c''.store := by
  have hinstalled := installed_of_typeSet hc.proper hd h
  obtain ⟨members, hdeclares⟩ := hinstalled.declares
  obtain ⟨o, ho⟩ := hdeclares.mem_keys_iff.1 hk
  have hnode := hdeclares.get?_members ho
  have hname : c''.store.name? o = some (Text.qualify d.name k) :=
    (hdeclares.later hlater.store).name k o ho
  have hentry : c'.registry.resolver (Text.qualify d.name k) = some (.object o) := by
    simp [Registry.resolver, hinstalled.get?_qualify hnode]
  refine ⟨o, hnode, ?_, ?_⟩
  · simp only [render?, Ty.renderWith, objectText?, objectTextWithin, hname]
  · unfold TypeExpr.read
    rw [TypeExpr.parse_qualify hset hmember]
    split_ifs with hunderscore
    · rfl
    · simp only [TypeExpr.resolve, hlater.names _ _ hentry]
      rfl

theorem read_pair : ∃ t c' o, Registering.typeSet Building.pairs numbered = .ok t c' ∧
    (c'.store.set t).members.get? "Pair" = some (.object o) ∧
    c'.store.render? (.object o) = some "Pairs::Pair" ∧
    TypeExpr.read c'.registry.resolver "Pairs::Pair" c'.store = .ok (.object o) c'.store := by
  obtain ⟨t, c', h⟩ : ∃ t c', Registering.typeSet Building.pairs numbered = .ok t c' := ⟨_, _, rfl⟩
  have hset : TypeExpr.parse Building.pairs.name = .ok (.named Building.pairs.name []) :=
    TypeExpr.parse_eq_named_iff.2 (show IsName ['P', 'a', 'i', 'r', 's'] from .simple rfl rfl)
  have hmember : TypeExpr.parse "Pair" = .ok (.named "Pair" []) :=
    TypeExpr.parse_eq_named_iff.2 (show IsName ['P', 'a', 'i', 'r'] from .simple rfl rfl)
  obtain ⟨o, hnode, htext, hread⟩ := read_qualified reached_numbered
    (Building.grounded_pairs _ 0).literals h (.refl c') hset (by decide) hmember
  exact ⟨t, c', o, h, hnode, htext, hread⟩

/-- A set with a member whose name begins with an underscore. -/
def underscored : TypeSetDecl where
  name := "Geo"
  types := { entries := [("_m", {})] }

/-- Both names are read, but not the text of the member. -/
theorem underscored_not_read : TypeExpr.parse "Geo" = .ok (.named "Geo" []) ∧
    TypeExpr.parse "_m" = .ok (.named "_m" []) ∧
    ∃ t c' o, Registering.typeSet underscored {} = .ok t c' ∧
      (c'.store.set t).members.get? "_m" = some (.object o) ∧
      c'.store.render? (.object o) = some "Geo::_m" ∧
      TypeExpr.read c'.registry.resolver "Geo::_m" c'.store =
        .error (.parse 3 (.invalidCharacter ':')) c'.store := by
  have hset : TypeExpr.parse "Geo" = .ok (.named "Geo" []) :=
    TypeExpr.parse_eq_named_iff.2 (show IsName ['G', 'e', 'o'] from .simple rfl rfl)
  have hmember : TypeExpr.parse "_m" = .ok (.named "_m" []) :=
    TypeExpr.parse_eq_named_iff.2 (show IsName ['_', 'm'] from .simple rfl rfl)
  have hfault : TypeExpr.parse "Geo::_m" = .error (.parse 3 (.invalidCharacter ':')) := by
    have htext : Text.qualify "Geo" "_m" = "Geo::_m" := by decide +kernel
    have hcount : Text.byteCount "Geo".toList = 3 := by decide +kernel
    rw [← htext, TypeExpr.parse_qualify hset hmember, if_pos (by decide), hcount]
  have hread : ∀ r s, TypeExpr.read r "Geo::_m" s =
      .error (.parse 3 (.invalidCharacter ':')) s := by
    intro r s
    rw [TypeExpr.read, hfault]
    rfl
  obtain ⟨t, c', o, h, hnode, htext⟩ : ∃ t c' o, Registering.typeSet underscored {} = .ok t c' ∧
      (c'.store.set t).members.get? "_m" = some (.object o) ∧
      c'.store.render? (.object o) = some "Geo::_m" :=
    ⟨.declared 0, _, .declared 0, rfl, by decide +kernel, by decide +kernel⟩
  exact ⟨hset, hmember, t, c', o, h, hnode, htext, hread _ _⟩

end Catalogue
end TypeLattice
