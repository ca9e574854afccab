import TypeLattice.Proofs.Frames

/-!
# What lasts

Equality looks at nothing but what its two types refer to, and what that refers to. In a store where
all of it is as it was, types are equal exactly if they were equal before.
-/
namespace TypeLattice.Store

variable {s s' s'' : Store} {R : Ty → Ty → Prop} {t u : Ty} {o p : ObjectId}

theorem WellFormed.has_parent (hs : s.WellFormed) (h : s.parent? o = some p) :
    s.Has (.object p) := by
  rw [has_object]
  exact hs.known (.object o) _ (by simp [children, h])

theorem WellFormed.knows_attribute (hs : s.WellFormed) {e : String × Attribute}
    (he : e ∈ (s.ownAttributes o).entries) : ∀ a ∈ e.2.nodes, s.Knows a := by
  intro a ha
  refine hs.known (.object o) a ?_
  simp only [children, List.mem_append, List.mem_flatMap]
  exact .inr ⟨e, he, ha⟩

theorem WellFormed.has_member (hs : s.WellFormed) {a : SetId} {k : String}
    (h : (s.set a).members.get? k = some t) : s.Has t := by
  intro b hb
  refine hs.known (.typeSet a) b ?_
  simp only [children, List.mem_flatMap]
  exact ⟨(k, t), Table.mem_of_get? h, hb⟩

theorem alike_object_iff : s.Alike R (.object o) (.object p) ↔ s.name? o = s.name? p ∧
    Option.Rel (fun a b => R (.object a) (.object b)) (s.parent? o) (s.parent? p) ∧
      AttributesRelated R (s.ownAttributes o).entries (s.ownAttributes p).entries :=
  ⟨fun | .object name parent attributes => ⟨name, parent, attributes⟩,
    fun ⟨name, parent, attributes⟩ => .object name parent attributes⟩

theorem alike_typeSet_iff {a b : SetId} : s.Alike R (.typeSet a) (.typeSet b) ↔
    (s.set a).name = (s.set b).name ∧ (s.set a).version = (s.set b).version ∧
      ∀ k, Option.Rel R ((s.set a).members.get? k) ((s.set b).members.get? k) :=
  ⟨fun | .typeSet name version members => ⟨name, version, members⟩,
    fun ⟨name, version, members⟩ => .typeSet name version members⟩

/-- The types are related and refer to what is there. -/
structure Present (s : Store) (R : Ty → Ty → Prop) (t u : Ty) : Prop where
  left : s.Has t
  right : s.Has u
  related : R t u

theorem related_present {v w : Value} (hv : ∀ a ∈ v.nodes, s.Knows a)
    (hw : ∀ a ∈ w.nodes, s.Knows a) (h : v.Related R w) : v.Related (s.Present R) w :=
  Value.Related.imp (fun _ _ ht hu h => ⟨ht, hu, h⟩) v w hv hw h

theorem attributesRelated_present {as bs : List (String × Attribute)}
    (ha : ∀ e ∈ as, ∀ a ∈ e.2.nodes, s.Knows a) (hb : ∀ e ∈ bs, ∀ a ∈ e.2.nodes, s.Knows a)
    (h : AttributesRelated R as bs) : AttributesRelated (s.Present R) as bs := by
  induction h with
  | nil => exact .nil
  | @cons a b as bs hab _ ih =>
    rw [List.forall_mem_cons] at ha hb
    have hta := List.forall_mem_append.1 ha.1
    have htb := List.forall_mem_append.1 hb.1
    refine .cons ⟨hab.1, ⟨hta.1, htb.1, hab.2.1⟩, ?_⟩ (ih ha.2 hb.2)
    refine Option.Rel.imp hab.2.2 fun v hv w hw hvw => related_present ?_ ?_ hvw
    · simpa [hv] using hta.2
    · simpa [hw] using htb.2

/-- What known types look alike up to is among known types. -/
theorem Alike.present (hs : s.WellFormed) (ht : s.Has t) (hu : s.Has u) (h : s.Alike R t u) :
    s.Alike (s.Present R) t u := by
  cases h with
  | basic b => exact .basic b
  | former parameter => exact .former ⟨ht, hu, parameter⟩
  | object name parent attributes =>
    refine .object name ?_ ?_
    · exact Option.Rel.imp parent fun _ ha _ hb h => ⟨hs.has_parent ha, hs.has_parent hb, h⟩
    · exact attributesRelated_present (fun _ => hs.knows_attribute) (fun _ => hs.knows_attribute)
        attributes
  | typeSet name version members =>
    refine .typeSet name version fun k => ?_
    exact Option.Rel.imp (members k) fun _ ha _ hb h => ⟨hs.has_member ha, hs.has_member hb, h⟩

namespace Untouched

theorem parent? (h : s.Untouched s') (ho : s.Knows (.object o)) : s'.parent? o = s.parent? o :=
  parent?_congr (h.body o ho)

theorem ownAttributes (h : s.Untouched s') (ho : s.Knows (.object o)) :
    s'.ownAttributes o = s.ownAttributes o := ownAttributes_congr (h.body o ho)

theorem alike_iff (h : s.Untouched s') (ht : s.Has t) (hu : s.Has u) :
    s'.Alike R t u ↔ s.Alike R t u := by
  cases t <;> cases u
  case object.object o p =>
    rw [has_object] at ht hu
    rw [alike_object_iff, alike_object_iff, h.name o ht, h.name p hu, h.parent? ht, h.parent? hu,
      h.ownAttributes ht, h.ownAttributes hu]
  case typeSet.typeSet a b =>
    rw [has_typeSet] at ht hu
    rw [alike_typeSet_iff, alike_typeSet_iff, h.set a ht, h.set b hu]
  all_goals constructor <;> intro ha <;> cases ha <;> constructor <;> assumption

/-- Known types are equal exactly if they were equal before. -/
theorem equal_iff (h : s.Untouched s') (hs : s.WellFormed) (ht : s.Has t) (hu : s.Has u) :
    s'.Equal t u ↔ s.Equal t u := by
  constructor
  · intro he
    refine ⟨s.Present s'.Equal, fun t u hp => ?_, ht, hu, he⟩
    have hstep := s'.equal_bisimulation t u hp.related
    exact hstep.imp_right fun ha =>
      ((h.alike_iff hp.left hp.right).1 ha).present hs hp.left hp.right
  · intro he
    refine ⟨s.Present s.Equal, fun t u hp => ?_, ht, hu, he⟩
    have hstep := s.equal_bisimulation t u hp.related
    exact hstep.imp_right fun ha =>
      (h.alike_iff hp.left hp.right).2 (ha.present hs hp.left hp.right)

theorem equals_eq (h : s.Untouched s') (hs : s.WellFormed) (hs' : s'.WellFormed) (ht : s.Has t)
    (hu : s.Has u) : s'.equals t u = s.equals t u := by
  rw [Bool.eq_iff_iff, equals_iff hs, equals_iff hs']
  exact h.equal_iff hs ht hu

theorem of_typeSet {outer : Resolver} {d : TypeSetDecl} {a : SetId}
    (h : Building.typeSet outer d s = .ok a s') : s.Untouched s' := by
  have huntouched := Building.untouched_typeSet outer d s
  rwa [Building.storeAfter, h] at huntouched

end Untouched
end TypeLattice.Store
