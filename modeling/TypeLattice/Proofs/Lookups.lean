import TypeLattice.Proofs.Independent

/-!
# Looking up members

The members of a registered type set can be looked up in the registry, in the set and inside the
declarations of the set. The registry has each of them under its qualified name. The other two split
a name at its first `::` before they look for a member. So they know a member by its simple name
exactly if that has no `::` in it, and by its qualified name exactly if the first `::` there is the
one that the name was put together with.
-/
namespace TypeLattice

open Store

theorem TypeSet.get?_eq {a : TypeSet} {setName : String} (h : a.name = some setName) (n : String) :
    a.get? n = (Resolver.memberName? setName n).bind a.members.get? := by
  unfold TypeSet.get? Resolver.memberName?
  cases Text.split? n with
  | none => rfl
  | some q =>
    by_cases hq : q.1 = setName
    · simp [h, hq]
    · simp [h, hq, Ne.symm hq]

variable {s : Store} {r outer : Resolver} {d : TypeSetDecl} {t : SetId} {members : Table ObjectId}
  {k l : String} {o : ObjectId} {c c' : Catalogue}

namespace Store

theorem Declares.get?_eq_member_iff (h : s.Declares r d members t) (ho : members.get? k = some o)
    {n : String} : (s.set t).get? n = some (.object o) ↔
      Resolver.memberName? d.name n = some k := by
  rw [TypeSet.get?_eq (congrArg TypeSet.name h.set), Option.bind_eq_some_iff]
  constructor
  · rintro ⟨l, hl, hmember⟩
    rw [h.set, Table.get?_map] at hmember
    obtain ⟨p, hp, he⟩ := Option.map_eq_some_iff.1 hmember
    obtain rfl := Ty.object.inj he
    rw [hl, h.name_unique ho hp]
  · intro hn
    exact ⟨k, hn, h.get?_members ho⟩

end Store

namespace Catalogue

/-- The members of a set that is registered were not there before. -/
theorem not_has_member (h : Registering.typeSet d c = .ok t c') :
    ∀ e ∈ (c'.store.set t).members.entries, ¬c.store.Has e.2 := by
  obtain ⟨e, s, hbuild, hrun⟩ | ⟨t, s, name, hbuild, hrun⟩ | ⟨t, s, R, hbuild, hrun, -⟩ :=
    Registering.typeSet_cases c d
  · cases h.symm.trans hrun
  · cases h.symm.trans hrun
  · cases h.symm.trans hrun
    exact (Building.new_of_typeSet hbuild).2

theorem Installed.get?_qualify (h : c.Installed c' d t) {u : Ty}
    (hk : (c'.store.set t).members.get? k = some u) :
    c'.registry.get? (Text.qualify d.name k) = some u := by
  refine Table.get?_of_mem (e := (Text.qualify d.name k, u)) ?_
  rw [h.entries]
  refine List.mem_append_right _ (List.mem_cons_of_mem _ ?_)
  exact List.mem_map.2 ⟨(k, u), Table.mem_of_get? hk, rfl⟩

/-- Each member of a registered set is the entry under its qualified name. The set, and the names
inside its declarations, give it for its simple name exactly if that has no `::` in it, and for its
qualified name exactly if the name of the set has no `::` in it and does not end in a colon. -/
theorem lookups_iff (hc : c.Reached) (hd : d.LiteralsIn c.store)
    (h : Registering.typeSet d c = .ok t c') :
    ∃ members, c'.store.Declares (c.registry.resolver.inside d.name members) d members t ∧
      ∀ k ∈ d.types.keys, ∃ o, members.get? k = some o ∧
        c'.registry.get? (Text.qualify d.name k) = some (.object o) ∧
        ((c'.store.set t).get? k = some (.object o) ↔ Text.split? k = none) ∧
        (c.registry.resolver.inside d.name members k = some (.object o) ↔
          Text.split? k = none) ∧
        ((c'.store.set t).get? (Text.qualify d.name k) = some (.object o) ↔
          Text.split? d.name = none ∧ ¬Text.EndsInColon d.name) ∧
        (c.registry.resolver.inside d.name members (Text.qualify d.name k) = some (.object o) ↔
          Text.split? d.name = none ∧ ¬Text.EndsInColon d.name) := by
  have hinstalled := installed_of_typeSet hc.proper hd h
  obtain ⟨members, hdeclares⟩ := hinstalled.declares
  refine ⟨members, hdeclares, fun k hk => ?_⟩
  obtain ⟨o, ho⟩ := hdeclares.mem_keys_iff.1 hk
  have hmember := hdeclares.get?_members ho
  have hnew : ¬c.store.Has (.object o) := not_has_member h _ (Table.mem_of_get? hmember)
  have houter : ∀ n, c.registry.resolver n ≠ some (.object o) := fun n hn =>
    hnew (hc.proper.registry.has_of_resolver hn)
  have hinside : ∀ n, c.registry.resolver.inside d.name members n = some (.object o) ↔
      Resolver.memberName? d.name n = some k := fun n =>
    Resolver.inside_eq_member_iff ho (houter n) fun l hl => hdeclares.name_unique ho hl
  refine ⟨o, ho, hinstalled.get?_qualify hmember, ?_⟩
  rw [hdeclares.get?_eq_member_iff ho, hdeclares.get?_eq_member_iff ho, hinside, hinside,
    Resolver.memberName?_self_iff, Resolver.memberName?_qualify_iff]
  exact ⟨Iff.rfl, Iff.rfl, Iff.rfl, Iff.rfl⟩

/-- In `pairs`, with a member that refers to itself by its qualified name, all lookups agree. -/
theorem lookups_of_pairs : numbered.Reached ∧ Building.pairs.LiteralsIn numbered.store ∧
    ∃ t c' o, Registering.typeSet Building.pairs numbered = .ok t c' ∧
      c'.registry.get? "Pairs::Pair" = some (.object o) ∧
      (c'.store.set t).get? "Pair" = some (.object o) ∧
      (c'.store.set t).get? "Pairs::Pair" = some (.object o) := by
  have hliterals : Building.pairs.LiteralsIn numbered.store :=
    (Building.grounded_pairs _ 0).literals
  obtain ⟨t, c', h⟩ : ∃ t c', Registering.typeSet Building.pairs numbered = .ok t c' := ⟨_, _, rfl⟩
  obtain ⟨members, -, hlookups⟩ := lookups_iff reached_numbered hliterals h
  obtain ⟨o, -, hregistry, hsimple, -, hqualified, -⟩ := hlookups "Pair" (by decide)
  refine ⟨reached_numbered, hliterals, t, c', o, h, hregistry, hsimple.2 ?_, hqualified.2 ?_⟩
  · decide +kernel
  · refine ⟨by decide +kernel, ?_⟩
    unfold Text.EndsInColon
    decide +kernel

/-- A set with a qualified name. -/
def geometry : TypeSetDecl where
  name := "My::Geo"
  types := { entries := [("Point", {})] }

/-- Its member has an entry in the registry that the set itself does not find. -/
theorem geometry_not_found : ∃ t c' o, Registering.typeSet geometry {} = .ok t c' ∧
    c'.registry.get? "My::Geo::Point" = some (.object o) ∧
    (c'.store.set t).get? "Point" = some (.object o) ∧
    (c'.store.set t).get? "My::Geo::Point" = none :=
  ⟨.declared 0, _, .declared 0, rfl, by decide +kernel, by decide +kernel, by decide +kernel⟩

end Catalogue
end TypeLattice
