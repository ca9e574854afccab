import TypeLattice.Proofs.Lookups

/-!
# Names of the built-in types

Each built-in type is found under its text. What a name has after `Pcore::` is looked up in the set
`Pcore`, and there a member may be qualified with the name of the set. So each object type that
describes a variant has a second name, with `Pcore::` twice. There are no other names, and these are
the names that nothing can be registered under as built-in ones.
-/
namespace TypeLattice

open Store

variable {n m : String} {v : Variant} {t : Ty} {s : Store}

theorem Variant.name_of_ofName? (h : ofName? n = some v) : v.name = n := by
  simpa using List.find?_some h

theorem Variant.split?_name (v : Variant) : Text.split? v.name = none := by
  have key : ∀ v ∈ all, Text.split? v.name = none := by decide
  exact key v (mem_all v)

theorem Variant.split?_describerName (v : Variant) : Text.split? v.describerName = none := by
  have key : ∀ v ∈ all, Text.split? v.describerName = none := by decide
  exact key v (mem_all v)

namespace Resolver

theorem variants_eq_some_iff :
    variants n = some t ↔ ∃ v : Variant, n = v.name ∧ t = .ofVariant v := by
  constructor
  · intro h
    obtain ⟨v, hv, rfl⟩ := Option.map_eq_some_iff.1 h
    exact ⟨v, (Variant.name_of_ofName? hv).symm, rfl⟩
  · rintro ⟨v, rfl, rfl⟩
    simp [variants, Variant.ofName?_name]

/-- A member of `Pcore` is looked up by its simple or by its qualified name. -/
theorem memberName?_pcore_iff (v : Variant) : memberName? "Pcore" n = some v.describerName ↔
    n = v.describerName ∨ n = Text.qualify "Pcore" v.describerName := by
  constructor
  · intro h
    exact (eq_of_memberName? h).imp_right And.left
  · rintro (rfl | rfl)
    · exact memberName?_of_split? v.split?_describerName
    · exact memberName?_qualify (by decide) (by simp [Text.EndsInColon]) _

theorem get?_pcore_iff : TypeSet.pcore.get? n = some t ↔
    ∃ v : Variant, (n = v.describerName ∨ n = Text.qualify "Pcore" v.describerName) ∧
      t = .object (.describing v) := by
  rw [TypeSet.get?_eq rfl, Option.bind_eq_some_iff]
  constructor
  · rintro ⟨k, hk, hmember⟩
    obtain ⟨v, -, he⟩ := List.mem_map.1 (Table.mem_of_get? hmember)
    obtain ⟨rfl, rfl⟩ := Prod.mk.inj he
    exact ⟨v, (memberName?_pcore_iff v).1 hk, rfl⟩
  · rintro ⟨v, hn, rfl⟩
    have hmem : (v.describerName, Ty.object (.describing v)) ∈ TypeSet.pcore.members.entries :=
      List.mem_map.2 ⟨v, v.mem_all, rfl⟩
    exact ⟨_, (memberName?_pcore_iff v).2 hn, Table.get?_of_mem hmem⟩

theorem after?_pcore_iff : Text.after? "Pcore::" n = some m ↔ n = Text.qualify "Pcore" m := by
  have hchars : "Pcore::".toList ++ m.toList = (Text.qualify "Pcore" m).toList := by
    simp [Text.toList_qualify]
  constructor
  · intro h
    obtain ⟨cs, hcs, rfl⟩ := Option.map_eq_some_iff.1 h
    rw [Text.afterChars_eq_some_iff] at hcs
    apply String.toList_inj.1
    simp [hcs, Text.toList_qualify]
  · rintro rfl
    have hrest : Text.afterChars "Pcore::".toList (Text.qualify "Pcore" m).toList = some m.toList :=
      Text.afterChars_eq_some_iff.2 hchars.symm
    rw [Text.after?, hrest, Option.map_some, String.ofList_toList]

/-- The names that stand for built-in types. -/
theorem builtins_eq_some_iff : builtins n = some t ↔ ∃ v : Variant,
    n = v.name ∧ t = .ofVariant v ∨
    (n = Text.qualify "Pcore" v.describerName ∨
        n = Text.qualify "Pcore" (Text.qualify "Pcore" v.describerName)) ∧
      t = .object (.describing v) := by
  have hpcore : (Text.after? "Pcore::" n).bind TypeSet.pcore.get? = some t ↔ ∃ v : Variant,
      (n = Text.qualify "Pcore" v.describerName ∨
        n = Text.qualify "Pcore" (Text.qualify "Pcore" v.describerName)) ∧
      t = .object (.describing v) := by
    simp only [Option.bind_eq_some_iff, after?_pcore_iff, get?_pcore_iff]
    constructor
    · rintro ⟨m, rfl, v, rfl | rfl, rfl⟩
      · exact ⟨v, .inl rfl, rfl⟩
      · exact ⟨v, .inr rfl, rfl⟩
    · rintro ⟨v, rfl | rfl, rfl⟩
      · exact ⟨_, rfl, v, .inl rfl, rfl⟩
      · exact ⟨_, rfl, v, .inr rfl, rfl⟩
  have hor : builtins n = some t ↔ variants n = some t ∨
      variants n = none ∧ (Text.after? "Pcore::" n).bind TypeSet.pcore.get? = some t := by
    rw [builtins]
    cases variants n <;> simp
  rw [hor, hpcore, variants_eq_some_iff]
  constructor
  · rintro (⟨v, hv⟩ | ⟨-, v, hv⟩)
    · exact ⟨v, .inl hv⟩
    · exact ⟨v, .inr hv⟩
  · rintro ⟨v, hv | hv⟩
    · exact .inl ⟨v, hv⟩
    · refine .inr ⟨?_, v, hv⟩
      -- the name of a variant has no `::` in it
      refine Option.eq_none_iff_forall_ne_some.2 fun u hu => ?_
      obtain ⟨w, hw, -⟩ := variants_eq_some_iff.1 hu
      have hsplit := w.split?_name
      rw [← hw] at hsplit
      rcases hv.1 with rfl | rfl
      · exact Text.split?_qualify_ne_none _ _ hsplit
      · exact Text.split?_qualify_ne_none _ _ hsplit

end Resolver

/-- The type of a variant, or the object type that describes one. -/
inductive Ty.BuiltIn : Ty → Prop
  | variant (v : Variant) : BuiltIn (.ofVariant v)
  | describer (v : Variant) : BuiltIn (.object (.describing v))

namespace Store

theorem render?_ofVariant (s : Store) (v : Variant) : s.render? (.ofVariant v) = some v.name := by
  rcases v with b | f | _ | _
  · rfl
  · simp [Ty.ofVariant, Ty.plain, render?, Ty.renderWith, Variant.name]
  · rfl
  · rfl

theorem render?_describing (s : Store) (v : Variant) :
    s.render? (.object (.describing v)) = some (Text.qualify "Pcore" v.describerName) := rfl

/-- The name is the text of the type, or that of an object type that describes a variant, with
`Pcore::` before it. -/
inductive NamedBy (s : Store) (t : Ty) (n : String) : Prop
  | text (text : s.render? t = some n)
  | doubled {v : Variant} {k : String} (describer : t = .object (.describing v))
      (text : s.render? t = some k) (double : n = Text.qualify "Pcore" k)

theorem builtins_iff_namedBy : Resolver.builtins n = some t ↔ t.BuiltIn ∧ s.NamedBy t n := by
  rw [Resolver.builtins_eq_some_iff]
  constructor
  · rintro ⟨v, ⟨rfl, rfl⟩ | ⟨rfl | rfl, rfl⟩⟩
    · exact ⟨.variant v, .text (s.render?_ofVariant v)⟩
    · exact ⟨.describer v, .text (s.render?_describing v)⟩
    · exact ⟨.describer v, .doubled rfl (s.render?_describing v) rfl⟩
  · rintro ⟨v | v, text | ⟨hd, text, rfl⟩⟩
    · rw [render?_ofVariant] at text
      exact ⟨v, .inl ⟨(Option.some.inj text).symm, rfl⟩⟩
    · rw [hd, render?_describing] at text
      obtain rfl := Option.some.inj text
      exact ⟨_, .inr ⟨.inr rfl, hd⟩⟩
    · rw [render?_describing] at text
      exact ⟨v, .inr ⟨.inl (Option.some.inj text).symm, rfl⟩⟩
    · obtain rfl := ObjectId.describing.inj (Ty.object.inj hd)
      rw [render?_describing] at text
      obtain rfl := Option.some.inj text
      exact ⟨v, .inr ⟨.inr rfl, rfl⟩⟩

end Store

/-- Of two names of one type either is the text of it. -/
theorem Store.NamedBy.eq_or (h : s.NamedBy t m) (h' : s.NamedBy t n) :
    m = n ∨ m = Text.qualify "Pcore" n ∨ n = Text.qualify "Pcore" m := by
  rcases h with text | ⟨-, text, rfl⟩ <;> rcases h' with text' | ⟨-, text', rfl⟩
  all_goals
    obtain rfl := Option.some.inj (text.symm.trans text')
    simp

theorem Resolver.allBlank_of_builtins (h : Resolver.builtins n = some t) :
    Text.allBlank n = false := by
  obtain ⟨v, ⟨rfl, -⟩ | ⟨rfl | rfl, -⟩⟩ := Resolver.builtins_eq_some_iff.1 h
  · have key : ∀ v ∈ Variant.all, Text.allBlank v.name = false := by decide
    exact key v v.mem_all
  · exact Text.allBlank_qualify _ _
  · exact Text.allBlank_qualify _ _

theorem Registry.register_eq_alreadyExists_iff {r : Registry} (hr : r.contains n = false) :
    r.register n t = .error (.alreadyExists n) ↔ ∃ u, Resolver.builtins n = some u := by
  rw [← Option.isSome_iff_exists]
  simp only [Registry.register, Registry.isTaken, hr, Bool.or_false]
  split_ifs with hblank hbuiltin
  · refine iff_of_false (by rintro ⟨⟩) fun hbuiltin => ?_
    obtain ⟨u, hu⟩ := Option.isSome_iff_exists.1 hbuiltin
    rw [Resolver.allBlank_of_builtins hu] at hblank
    cases hblank
  · exact iff_of_true rfl hbuiltin
  · exact iff_of_false (by rintro ⟨⟩) hbuiltin

/-- The names of a built-in type are its text and, if it describes a variant, `Pcore::` and its
text. Those are the names that a registry refuses although it has no entry of that name. -/
theorem Resolver.builtins_iff_text (s : Store) :
    (∀ n t, builtins n = some t ↔ t.BuiltIn ∧ s.NamedBy t n) ∧
    (∀ m n t, builtins m = some t → builtins n = some t →
      m = n ∨ m = Text.qualify "Pcore" n ∨ n = Text.qualify "Pcore" m) ∧
    ∀ (r : Registry) n t, r.contains n = false →
      (r.register n t = .error (.alreadyExists n) ↔ ∃ u : Ty, u.BuiltIn ∧ s.NamedBy u n) := by
  refine ⟨fun n t => builtins_iff_namedBy, fun m n t hm hn => ?_, fun r n t hr => ?_⟩
  · exact (builtins_iff_namedBy.1 hm).2.eq_or (s := s) (builtins_iff_namedBy.1 hn).2
  · rw [Registry.register_eq_alreadyExists_iff hr]
    exact exists_congr fun u => builtins_iff_namedBy

/-- The object type that describes `Any` is found under a name that is not its text, and a registry
without entries refuses that name. -/
theorem Resolver.builtins_pcore_twice : ∃ t, builtins "Pcore::Pcore::AnyType" = some t ∧
    builtins "Pcore::AnyType" = some t ∧
    (∀ s : Store, s.render? t = some "Pcore::AnyType" ∧
      s.render? t ≠ some "Pcore::Pcore::AnyType") ∧
    Registry.register {} "Pcore::Pcore::AnyType" (.basic .integer) =
      .error (.alreadyExists "Pcore::Pcore::AnyType") := by
  have htext : Text.qualify "Pcore" (Variant.describerName (.basic .any)) = "Pcore::AnyType" := by
    decide +kernel
  have htwice : Text.qualify "Pcore" "Pcore::AnyType" = "Pcore::Pcore::AnyType" := by
    decide +kernel
  have hname : ∀ n, n = "Pcore::AnyType" ∨ n = "Pcore::Pcore::AnyType" →
      builtins n = some (.object (.describing (.basic .any))) := by
    intro n hn
    refine builtins_eq_some_iff.2 ⟨.basic .any, .inr ⟨?_, rfl⟩⟩
    rwa [htext, htwice]
  refine ⟨_, hname _ (.inr rfl), hname _ (.inl rfl), fun s => ?_, ?_⟩
  · rw [render?_describing, htext]
    exact ⟨rfl, by decide⟩
  · exact (Registry.register_eq_alreadyExists_iff rfl).2 ⟨_, hname _ (.inr rfl)⟩

end TypeLattice
