import TypeLattice.Object.Construct
import TypeLattice.Proofs.Instances
import TypeLattice.Proofs.Persistence

/-!
# Types that describe types

The attributes of the object type that describes a type are what can be read off the type, and each
has a value of its declared type. From these values the constructor of the describing type makes an
equal type, unless the type has parts that are not among them: attributes of its own or members.
-/
namespace TypeLattice

theorem Table.ext_entries {α : Type} {t u : Table α} (h : t.entries = u.entries) : t = u := by
  cases t
  cases u
  simp_all

theorem Variant.exists_basic_of_describerParent {v w : Variant} (h : v.describerParent = some w) :
    ∃ b, w = .basic b := by
  rcases v with b | f | _ | _
  · cases b <;> cases h <;> exact ⟨_, rfl⟩
  all_goals cases h; exact ⟨_, rfl⟩

namespace Store

variable {s : Store} {o q : ObjectId} {t u : Ty} {v w : Variant} {k : String}

/-- Above a describing type there are only those that describe basic types. -/
theorem exists_basic_of_mem_line (hs : s.Rooted) {p : ObjectId}
    (hp : s.parent? (.describing v) = some p) (hq : q ∈ s.line p) :
    ∃ b, q = .describing (.basic b) := by
  have hline := hs.line p
  generalize s.line p = l at hline hq
  induction hline generalizing v with
  | root last =>
    obtain rfl := List.mem_singleton.1 hq
    obtain ⟨w, hw, rfl⟩ := Option.map_eq_some_iff.1 hp
    obtain ⟨b, rfl⟩ := Variant.exists_basic_of_describerParent hw
    exact ⟨b, rfl⟩
  | @link p p' l parent _ ih =>
    obtain ⟨w, hw, rfl⟩ := Option.map_eq_some_iff.1 hp
    rcases List.mem_cons.1 hq with rfl | hq
    · obtain ⟨b, rfl⟩ := Variant.exists_basic_of_describerParent hw
      exact ⟨b, rfl⟩
    · exact ih parent hq

theorem exists_describing_of_mem_line (hs : s.Rooted) (hq : q ∈ s.line (.describing v)) :
    ∃ w, q = .describing w := by
  cases hp : s.parent? (.describing v) with
  | none =>
    rw [Rooted.line_of_root hp, List.mem_singleton] at hq
    exact ⟨v, hq⟩
  | some p =>
    rw [hs.line_of_parent hp, List.mem_cons] at hq
    rcases hq with rfl | hq
    · exact ⟨v, rfl⟩
    · obtain ⟨b, rfl⟩ := exists_basic_of_mem_line hs hp hq
      exact ⟨_, rfl⟩

/-- A describing type inherits no attributes. -/
theorem allAttributes_describing (hs : s.Rooted) (v : Variant) :
    s.allAttributes (.describing v) = v.describerAttributes := by
  obtain ⟨l, hl, hempty⟩ : ∃ l, s.line (.describing v) = .describing v :: l ∧
      ∀ q ∈ l, (s.ownAttributes q).entries = [] := by
    cases hp : s.parent? (.describing v) with
    | none => exact ⟨[], Rooted.line_of_root hp, by simp⟩
    | some p =>
      refine ⟨s.line p, hs.line_of_parent hp, fun q hq => ?_⟩
      obtain ⟨b, rfl⟩ := exists_basic_of_mem_line hs hp hq
      rfl
  have hfold : ∀ ps : List ObjectId, (∀ q ∈ ps, (s.ownAttributes q).entries = []) →
      ps.foldl (fun all p => (s.ownAttributes p).entries.foldl
        (fun all e => all.insert e.1 e.2) all) .empty = Table.empty := by
    intro ps hps
    induction ps with
    | nil => rfl
    | cons p ps ih =>
      rw [List.foldl_cons, hps p List.mem_cons_self, List.foldl_nil]
      exact ih fun q hq => hps q (List.mem_cons_of_mem p hq)
  refine Table.ext_entries ?_
  rw [allAttributes, hl, List.reverse_cons, List.foldl_append,
    hfold _ fun q hq => hempty q (List.mem_reverse.1 hq)]
  exact Table.entries_ofList v.describerAttributes.nodup

/-- What can be read off a type is what its describing type declares. -/
theorem get?_isSome_iff : (s.get? t k).isSome ↔ k ∈ t.variant.describerAttributes.keys := by
  rcases t with b | ⟨f, p, m⟩ | o | a
  · simp [get?, Ty.variant, Variant.describerAttributes, Table.keys]
  · by_cases hk : k = "type" <;>
      simp [get?, Ty.variant, Variant.describerAttributes, Table.keys, hk]
  · by_cases hk : k = "name" <;> by_cases hk' : k = "parent" <;>
      simp [get?, Ty.variant, Variant.describerAttributes, Table.keys, hk, hk']
  · by_cases hk : k = "name" <;> by_cases hk' : k = "version" <;>
      simp [get?, Ty.variant, Variant.describerAttributes, Table.keys, hk, hk']

theorem isInstance_optionalString (x : Option String) :
    s.isInstance Variant.optionalString.type ((x.map .string).getD .undef) = true := by
  cases x <;> rfl

theorem isInstance_optionalType (d : Value) (x : Option Ty) :
    s.isInstance (Variant.optionalType d).type ((x.map .type).getD .undef) = true := by
  cases x <;> rfl

/-- Each attribute has a value of its declared type. -/
theorem isInstance_of_get? {a : Attribute} {x : Value}
    (ha : (k, a) ∈ t.variant.describerAttributes.entries) (hx : s.get? t k = some x) :
    s.isInstance a.type x = true := by
  rcases t with b | ⟨f, p, m⟩ | o | c
  · simp [Ty.variant, Variant.describerAttributes] at ha
  · obtain ⟨rfl, rfl⟩ : k = "type" ∧ a = Variant.optionalType (.type (.basic .any)) := by
      simpa [Ty.variant, Variant.describerAttributes] using ha
    obtain rfl : .type p = x := by simpa [get?] using hx
    exact isInstance_optionalType _ (some p)
  · obtain ⟨rfl, rfl⟩ | ⟨rfl, rfl⟩ : k = "name" ∧ a = Variant.optionalString ∨
        k = "parent" ∧ a = Variant.optionalType .undef := by
      simpa [Ty.variant, Variant.describerAttributes] using ha
    · obtain rfl : ((s.name? o).map .string).getD .undef = x := by simpa [get?] using hx
      exact isInstance_optionalString _
    · obtain rfl : ((s.parent? o).map fun p => .type (.object p)).getD .undef = x := by
        simpa [get?] using hx
      have hparent := isInstance_optionalType (s := s) .undef ((s.parent? o).map .object)
      rwa [Option.map_map] at hparent
  · obtain ⟨rfl, rfl⟩ | ⟨rfl, rfl⟩ : k = "name" ∧ a = Variant.optionalString ∨
        k = "version" ∧ a = Variant.optionalString := by
      simpa [Ty.variant, Variant.describerAttributes] using ha
    · obtain rfl : ((s.set c).name.map .string).getD .undef = x := by simpa [get?] using hx
      exact isInstance_optionalString _
    · obtain rfl : ((s.set c).version.map .string).getD .undef = x := by simpa [get?] using hx
      exact isInstance_optionalString _

/-- A type, as a value, belongs to its describing type and to the ancestors of that one. -/
theorem isInstance_of_mem_line (hs : s.WellFormed) (hq : q ∈ s.line t.describer) :
    s.isInstance (.object q) (.type t) = true := by
  have hd : s.isDefault q = false := by
    obtain ⟨w, rfl⟩ := exists_describing_of_mem_line hs.rooted hq
    simp [isDefault, name?]
  refine isInstance_object_iff.2 (.inr ⟨t, rfl, hd, ?_⟩)
  exact (accepts_object_iff hs).2 ⟨_, rfl, .inr ⟨q, hq, Equal.refl s _⟩⟩

/-- What can be read off a type, in the order in which its describing type declares it. -/
def attributeValues (s : Store) (t : Ty) : List Value :=
  (s.allAttributes t.describer).keys.filterMap (s.get? t)

/-- The type has neither attributes of its own nor members. -/
def Bare (s : Store) : Ty → Prop
  | .object o => (s.ownAttributes o).entries = []
  | .typeSet a => (s.set a).members.entries = []
  | _ => True

theorem attributeValues_former (hs : s.Rooted) (f : Former) (p : Ty) (m : ℕ) :
    s.attributeValues (.former f p m) = [.type p] := by
  rw [attributeValues, Ty.describer, allAttributes_describing hs]
  rfl

theorem attributeValues_object (hs : s.Rooted) (o : ObjectId) :
    s.attributeValues (.object o) = [((s.name? o).map .string).getD .undef,
      ((s.parent? o).map fun p => .type (.object p)).getD .undef] := by
  rw [attributeValues, Ty.describer, allAttributes_describing hs]
  rfl

theorem attributeValues_typeSet (hs : s.Rooted) (a : SetId) :
    s.attributeValues (.typeSet a) = [((s.set a).name.map .string).getD .undef,
      ((s.set a).version.map .string).getD .undef] := by
  rw [attributeValues, Ty.describer, allAttributes_describing hs]
  rfl

theorem attributeValues_basic (hs : s.Rooted) (b : Basic) : s.attributeValues (.basic b) = [] := by
  rw [attributeValues, Ty.describer, allAttributes_describing hs]
  rfl

/-- The constructor makes an equal type in the store, the very same one if it is unparameterized,
and leaves what was there alone. -/
def Rebuilds (s : Store) (t : Ty) (x : Building Ty) : Prop :=
  ∃ u s', x s = .ok u s' ∧ s'.Built ∧ s.Untouched s' ∧ s'.Equal u t ∧
    (t = t.unparameterized → u = t)

theorem rebuilds_basic (hb : s.Built) (b : Basic) :
    s.Rebuilds (.basic b) (Building.described (.basic b) []) :=
  ⟨_, s, rfl, hb, (Extends.refl s).untouched, Equal.refl s _, fun _ => rfl⟩

theorem described_former (f : Former) (p : Ty) :
    Building.described (.former f) [.type p] = Building.newFormed f p := by
  cases f <;> rfl

theorem rebuilds_former (hb : s.Built) (f : Former) (p : Ty) (m : ℕ) :
    s.Rebuilds (.former f p m) (Building.described (.former f) [.type p]) := by
  rw [described_former]
  have hrun : Building.newFormed f p s = .ok (s.newFormed f p).1 (s.newFormed f p).2 := rfl
  by_cases hp : p = .basic .any
  · have hsame : s.newFormed f p = (Ty.plain f, s) := by simp [newFormed, hp]
    rw [hsame] at hrun
    refine ⟨Ty.plain f, s, hrun, hb, (Extends.refl s).untouched, ?_, Eq.symm⟩
    exact Equal.of_alike (.former (hp ▸ Equal.refl s p))
  · have hnew : s.newFormed f p = (.former f p s.nextMark, s.freshMark.2) := by
      simp [newFormed, freshMark, hp]
    rw [hnew] at hrun
    refine ⟨.former f p s.nextMark, s.freshMark.2, hrun, hb.mark, (Extends.mark s).untouched, ?_,
      fun ht => ?_⟩
    · exact Equal.of_alike (.former (Equal.refl _ p))
    · exact absurd (Ty.former.inj ht).2.1 hp

/-- The new type has the name and the parent of the old one, except that without both of them it
is `Object`. -/
theorem rebuilds_object (hb : s.Built) (ho : s.Has (.object o)) (hbare : s.Bare (.object o)) :
    s.Rebuilds (.object o) (Building.objectType [((s.name? o).map .string).getD .undef,
      ((s.parent? o).map fun p => .type (.object p)).getD .undef]) := by
  have hs := hb.wellFormed
  have hargs : ∀ (name : Option String) (parent : Option ObjectId),
      Building.objectType [(name.map .string).getD .undef,
        (parent.map fun p => .type (.object p)).getD .undef] =
        (do return .object (← Building.newResolved name { parent := parent.map .object })) := by
    intro name parent
    cases name <;> cases parent <;> rfl
  rw [hargs]
  have hdefault : (s.name? o).isNone ∧
      ({ parent := (s.parent? o).map .object } : Body Ty).isEmpty = true ↔
      s.name? o = none ∧ s.parent? o = none := by
    simp [Body.isEmpty, Table.isEmpty]
  have hrun := run_newResolved s (s.name? o) { parent := (s.parent? o).map .object }
  by_cases hd : s.name? o = none ∧ s.parent? o = none
  · rw [if_pos (hdefault.2 hd)] at hrun
    refine ⟨.object .default, s, Runs.bind_of_ok hrun, hb, (Extends.refl s).untouched, ?_, Eq.symm⟩
    refine Equal.of_alike (.object hd.1.symm ?_ ?_)
    · rw [hd.2]
      exact .none
    · rw [hbare]
      exact .nil
  · rw [if_neg (hdefault.not.2 hd)] at hrun
    have hfresh : s.Fresh { parent := (s.parent? o).map .object } := by
      refine ⟨fun t ht => ?_, fun a ha => ?_, by simp [Table.empty], by simp [Table.empty]⟩
      · obtain ⟨p, _, rfl⟩ := Option.map_eq_some_iff.1 ht
        exact ⟨p, rfl⟩
      · cases hp : s.parent? o with
        | none => simp [Body.nodes, Table.empty, hp] at ha
        | some p =>
          obtain rfl : a = .object p := by simpa [Body.nodes, Table.empty, Ty.nodes, hp] using ha
          exact has_object.1 (hs.has_parent hp)
    obtain ⟨parent, s', hparent, hb', hextends, hresolve, _, hname, hbody⟩ :=
      hb.newResolved hfresh (s.name? o)
    have hok : (s.newObject (s.name? o)).2.resolve (s.newObject (s.name? o)).1
        { parent := (s.parent? o).map .object } = .ok s' := hresolve
    rw [hok] at hrun
    refine ⟨.object (.declared s.objects.size), s', Runs.bind_of_ok hrun, hb', hextends.untouched,
      ?_, fun ht => ?_⟩
    · refine Equal.of_alike (.object ?_ ?_ ?_)
      · rw [hname, hextends.name o (has_object.1 ho)]
      · obtain rfl : s.parent? o = parent := by
          refine Option.map_injective (fun p q h => Ty.object.inj h) hparent
        rw [hextends.parent? (has_object.1 ho), Store.parent?, hbody]
        exact Option.Rel.refl (fun p => Equal.refl s' (.object p)) _
      · rw [hextends.ownAttributes (has_object.1 ho), hbare, Store.ownAttributes, hbody]
        exact .nil
    · obtain rfl : o = .default := Ty.object.inj ht
      exact absurd ⟨rfl, rfl⟩ hd

/-- The new set has the name and the version of the old one. Only `TypeSet` has no name. -/
theorem rebuilds_typeSet (hb : s.Built) {a : SetId} (ha : s.Has (.typeSet a))
    (hbare : s.Bare (.typeSet a)) :
    s.Rebuilds (.typeSet a) (Building.typeSetType [((s.set a).name.map .string).getD .undef,
      ((s.set a).version.map .string).getD .undef]) := by
  rcases a with _ | _ | n
  · exact ⟨_, s, rfl, hb, (Extends.refl s).untouched, Equal.refl s _, fun _ => rfl⟩
  · cases hbare
  · have hknown : n < s.sets.size := has_typeSet.1 ha
    obtain ⟨name, hname⟩ := Option.isSome_iff_exists.1 (hb.wellFormed.named n hknown)
    have hrun : ∀ version : Option String,
        Building.typeSetType [.string name, (version.map .string).getD .undef] s =
          .ok (.typeSet (.declared s.sets.size)) (s.newSet { name := some name, version }).2 := by
      intro version
      cases version <;> rfl
    rw [hname]
    refine ⟨.typeSet (.declared s.sets.size), _, hrun _,
      hb.typeSet name _ .empty (by simp [Table.empty]), (Extends.refl s).untouched_newSet _, ?_, ?_⟩
    · refine Equal.of_alike (.typeSet ?_ ?_ fun k => ?_)
      · rw [set_newSet_self, set_newSet_of_lt _ hknown, hname]
      · rw [set_newSet_self, set_newSet_of_lt _ hknown]
      · rw [set_newSet_self, set_newSet_of_lt _ hknown, Table.get?, Table.get?, hbare]
        exact .none
    · intro ht
      cases ht

theorem rebuilds_described (hb : s.Built) (ht : s.Has t) (hbare : s.Bare t) :
    s.Rebuilds t (Building.described t.variant (s.attributeValues t)) := by
  have hs := hb.wellFormed.rooted
  rcases t with b | ⟨f, p, m⟩ | o | a
  · rw [attributeValues_basic hs]
    exact rebuilds_basic hb b
  · rw [attributeValues_former hs]
    exact rebuilds_former hb f p m
  · rw [attributeValues_object hs]
    exact rebuilds_object hb ht hbare
  · rw [attributeValues_typeSet hs]
    exact rebuilds_typeSet hb ht hbare

/-- Describing types make their instances by building the described type. -/
theorem create_describing {s' : Store} {args : List Value}
    (h : Building.described v args s = .ok u s') :
    Making.create (.describing v) args s = .ok (.type u) s' := by
  have hrun : Making.create (.describing v) args s =
      (do return .type (← Making.ofBuilding (Building.described v args)) : Making Value) s := rfl
  have hok : Making.ofBuilding (Building.described v args) s = .ok u s' := by
    simp only [Making.ofBuilding, EStateM.adaptExcept, h]
  rw [hrun, Runs.bind_of_ok hok]
  rfl

/-- The object type that describes a type declares exactly what can be read off the type, and what
is read has the declared type; the type, as a value, belongs to the describing type and its
ancestors; and from what is read off it an equal type is made, the very same one if it is
unparameterized. -/
theorem describer_describes_and_rebuilds (hb : s.Built) (ht : s.Has t) :
    (∀ k, (s.get? t k).isSome ↔ k ∈ (s.allAttributes t.describer).keys) ∧
    (∀ k a x, (s.allAttributes t.describer).get? k = some a → s.get? t k = some x →
      s.isInstance a.type x = true) ∧
    (∀ q ∈ s.line t.describer, s.isInstance (.object q) (.type t) = true) ∧
    (s.Bare t → ∃ u s', Making.create t.describer (s.attributeValues t) s = .ok (.type u) s' ∧
      s'.Built ∧ s.Untouched s' ∧ s'.equals u t = true ∧ (t = t.unparameterized → u = t)) := by
  have hs := hb.wellFormed
  have hall : s.allAttributes t.describer = t.variant.describerAttributes :=
    allAttributes_describing hs.rooted t.variant
  refine ⟨fun k => ?_, fun k a x ha hx => ?_, fun q hq => isInstance_of_mem_line hs hq,
    fun hbare => ?_⟩
  · rw [hall]
    exact get?_isSome_iff
  · rw [hall] at ha
    exact isInstance_of_get? (Table.mem_of_get? ha) hx
  · obtain ⟨u, s', hrun, hb', huntouched, hequal, hsame⟩ := rebuilds_described hb ht hbare
    exact ⟨u, s', create_describing hrun, hb', huntouched, (equals_iff hb'.wellFormed).2 hequal,
      hsame⟩

/-- A type of the same name and parent is made next to one that is there. -/
theorem lineage_rebuilds : lineage.Built ∧ ∃ u s',
    Making.create (.describing .object) [.string "Top", .type (.object (.declared 1))] lineage =
      .ok (.type u) s' ∧ s'.equals u (.object (.declared 2)) = true := by
  have ht : lineage.Has (.object (.declared 2)) := by simp [Knows, lineage]
  have hbare : lineage.Bare (.object (.declared 2)) := rfl
  obtain ⟨u, s', hrun, _, _, hequal, _⟩ :=
    (describer_describes_and_rebuilds built_lineage ht).2.2.2 hbare
  rw [attributeValues_object built_lineage.wellFormed.rooted] at hrun
  exact ⟨built_lineage, u, s', hrun, hequal⟩

end Store
end TypeLattice
