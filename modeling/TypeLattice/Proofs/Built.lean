import TypeLattice.Proofs.Inheritance

/-!
# Stores that are built

The stores that come about by making object types, type sets and other types, and by resolving.
What a call refers to exists before the call, so type sets only refer to earlier sets; object types
refer to whatever was there when they were resolved, themselves included.
-/
namespace TypeLattice

namespace Ty

/-- What a type refers to, through its parameters. -/
def nodes : Ty → List Node
  | .basic _ => []
  | .former _ t _ => t.nodes
  | .object o => [.object o]
  | .typeSet a => [.typeSet a]

end Ty

namespace Value

mutual

/-- What a value refers to, at any depth. -/
def nodes : Value → List Node
  | .array xs => nodesOfList xs
  | .type t | .iterator _ t => t.nodes
  | .object _ o fs => .object o :: nodesOfFields fs
  | _ => []

def nodesOfList : List Value → List Node
  | [] => []
  | x :: xs => nodes x ++ nodesOfList xs

def nodesOfFields : List (String × Value) → List Node
  | [] => []
  | (_, x) :: fs => nodes x ++ nodesOfFields fs

end

mutual

/-- No object in the value, at any depth, has two attributes of one name. -/
def Distinct : Value → Prop
  | .array xs => DistinctList xs
  | .object _ _ fs => (fs.map (·.1)).Nodup ∧ DistinctFields fs
  | _ => True

def DistinctList : List Value → Prop
  | [] => True
  | x :: xs => Distinct x ∧ DistinctList xs

def DistinctFields : List (String × Value) → Prop
  | [] => True
  | (_, x) :: fs => Distinct x ∧ DistinctFields fs

end

end Value

namespace Attribute

def nodes (a : Attribute) : List Node := a.type.nodes ++ (a.default.map Value.nodes).getD []

def Distinct (a : Attribute) : Prop := ∀ v, a.default = some v → v.Distinct

end Attribute

/-- What a body that is asked for refers to. -/
def Body.nodes (b : Body Ty) : List Node :=
  (b.parent.map Ty.nodes).getD [] ++ b.attributes.entries.flatMap (·.2.nodes)

namespace Store

variable {s s' : Store} {o p : ObjectId} {a c : Node} {b : Body Ty}

/-- What a node refers to. -/
def children (s : Store) : Node → List Node
  | .object o =>
    ((s.parent? o).map Node.object).toList ++ (s.ownAttributes o).entries.flatMap (·.2.nodes)
  | .typeSet t => (s.set t).members.entries.flatMap (·.2.nodes)

/-- The node is there. -/
def Knows (s : Store) : Node → Prop
  | .object (.declared n) => n < s.objects.size
  | .typeSet (.declared n) => n < s.sets.size
  | _ => True

/-- The type refers to what is there. -/
def Has (s : Store) (t : Ty) : Prop := ∀ a ∈ t.nodes, s.Knows a

@[simp] theorem has_object : s.Has (.object o) ↔ s.Knows (.object o) := by
  simp [Has, Ty.nodes]

@[simp] theorem has_typeSet {t : SetId} : s.Has (.typeSet t) ↔ s.Knows (.typeSet t) := by
  simp [Has, Ty.nodes]

theorem has_ofVariant (v : Variant) : s.Has (.ofVariant v) := by
  cases v <;> simp [Ty.ofVariant, Ty.plain, Has, Ty.nodes, Knows]

/-- The stores that operations build, each on what is there before. A type set that is built has a
name: the only one without is the default one, and copies of that, which have no name, version or
members either, are left out. -/
inductive Built : Store → Prop
  | empty : Built {}
  | mark {s : Store} (prior : Built s) : Built s.freshMark.2
  | object {s : Store} (prior : Built s) (name : Option String) : Built (s.newObject name).2
  | body {s s' : Store} {o : ObjectId} {b : Body Ty} (prior : Built s)
      (known : ∀ a ∈ b.nodes, s.Knows a) (distinct : ∀ e ∈ b.attributes.entries, e.2.Distinct)
      (resolved : s.resolve o b = .ok s') : Built s'
  | typeSet {s : Store} (prior : Built s) (name : String) (version : Option String)
      (members : Table Ty) (known : ∀ e ∈ members.entries, ∀ a ∈ e.2.nodes, s.Knows a) :
      Built (s.newSet { name := some name, version, members }).2

/-- What holds of every store that is built. -/
structure WellFormed (s : Store) : Prop where
  rooted : s.Rooted
  known : ∀ a, ∀ c ∈ s.children a, s.Knows c
  earlier : ∀ m n, .typeSet (.declared m) ∈ s.children (.typeSet (.declared n)) → m < n
  named : ∀ n, n < s.sets.size → (s.set (.declared n)).name.isSome
  distinct : ∀ o, ∀ e ∈ (s.ownAttributes o).entries, e.2.Distinct

theorem Knows.mono (hk : s.Knows a) (ho : s.objects.size ≤ s'.objects.size)
    (ht : s.sets.size ≤ s'.sets.size) : s'.Knows a := by
  rcases a with (_ | _ | n) | (_ | _ | n) <;> simp only [Knows] at hk ⊢ <;> omega

theorem knows_of_body? {b : Body ObjectId} (h : s.body? o = some b) : s.Knows (.object o) := by
  rcases o with _ | v | n
  · trivial
  · trivial
  · obtain ⟨node, hnode, _⟩ := Option.bind_eq_some_iff.1 h
    exact (Array.getElem?_eq_some_iff.1 hnode).1

theorem distinct_describerAttributes (v : Variant) :
    ∀ e ∈ v.describerAttributes.entries, e.2.Distinct := by
  rcases v with b | f | _ | _ <;>
    simp [Variant.describerAttributes, Variant.optionalType, Variant.optionalString,
      Attribute.Distinct, Value.Distinct]

theorem knows_children_describing (s : Store) (v : Variant) :
    ∀ c ∈ s.children (.object (.describing v)), s.Knows c := by
  have hattr : v.describerAttributes.entries.flatMap (·.2.nodes) = [] := by
    rcases v with b | f | _ | _ <;>
      simp [Variant.describerAttributes, Variant.optionalType, Variant.optionalString,
        Attribute.nodes, Ty.nodes, Value.nodes]
  intro c hc
  simp only [children, parent?, ownAttributes, body?, Variant.describerBody, Option.map_some,
    Option.bind_some, Option.getD_some, hattr, List.append_nil, Option.map_map] at hc
  obtain ⟨w, _, rfl⟩ := Option.map_eq_some_iff.1 (Option.mem_toList.1 hc)
  trivial

theorem knows_children_pcore (s : Store) : ∀ c ∈ s.children (.typeSet .pcore), s.Knows c := by
  intro c hc
  simp only [children, set, TypeSet.pcore, List.flatMap_map, List.mem_flatMap, Ty.nodes,
    List.mem_singleton] at hc
  obtain ⟨v, _, rfl⟩ := hc
  trivial

theorem children_of_body?_none (h : s.body? o = none) : s.children (.object o) = [] := by
  simp [children, parent?, ownAttributes, h, Table.empty]

theorem mem_objectIds_of_mem_children (h : a ∈ s.children (.object o)) : o ∈ s.objectIds := by
  cases hb : s.body? o with
  | none => simp [children_of_body?_none hb] at h
  | some b => exact mem_objectIds_of_body? hb

theorem wellFormed_empty : WellFormed {} where
  rooted := rooted_empty
  known := by
    rintro ((_ | v | n) | (_ | _ | n))
    · simp [children, parent?, ownAttributes, body?, Table.empty]
    · exact knows_children_describing {} v
    · simp [children, parent?, ownAttributes, body?, Table.empty]
    · simp [children, set, Table.empty]
    · exact knows_children_pcore {}
    · simp [children, set, Table.empty]
  earlier := by simp [children, set, Table.empty]
  named := by simp
  distinct := by
    rintro (_ | v | n)
    · simp [ownAttributes, body?, Table.empty]
    · exact distinct_describerAttributes v
    · simp [ownAttributes, body?, Table.empty]

theorem WellFormed.mark (h : s.WellFormed) : s.freshMark.2.WellFormed where
  rooted o := (h.rooted o).imp fun _ hl => hl.congr fun q _ => parent?_congr (by cases q <;> rfl)
  known a c hc := by
    have : s.children a = s.freshMark.2.children a := by
      rcases a with (_ | _ | _) | (_ | _ | _) <;> rfl
    exact (h.known a c (this ▸ hc)).mono le_rfl le_rfl
  earlier := h.earlier
  named := h.named
  distinct o := by
    have : s.ownAttributes o = s.freshMark.2.ownAttributes o := by cases o <;> rfl
    exact this ▸ h.distinct o

theorem ownAttributes_congr (h : s'.body? o = s.body? o) :
    s'.ownAttributes o = s.ownAttributes o := by
  simp [ownAttributes, h]

theorem children_object_congr (h : s'.body? o = s.body? o) :
    s'.children (.object o) = s.children (.object o) := by
  simp [children, parent?, ownAttributes, h]

theorem WellFormed.newObject (h : s.WellFormed) (name : Option String) :
    (s.newObject name).2.WellFormed where
  rooted := h.rooted.newObject name
  known a c hc := by
    have hchildren : (s.newObject name).2.children a = s.children a := by
      cases a with
      | object o => exact children_object_congr (body?_newObject s name o)
      | typeSet t => cases t <;> rfl
    exact (h.known a c (hchildren ▸ hc)).mono (by simp [Store.newObject]) le_rfl
  earlier := h.earlier
  named := h.named
  distinct o := by
    rw [ownAttributes_congr (body?_newObject s name o)]
    exact h.distinct o

/-- A resolved type refers to what its body refers to. -/
theorem children_setBody {parent : Option ObjectId} (hp : b.parent = parent.map .object)
    (ho : s.body? o = none) :
    ∀ c ∈ (s.setBody o (b.withParent parent)).children (.object o), c ∈ b.nodes := by
  rcases body?_setBody_self_cases (c := b.withParent parent) ho with hb | hb
  · intro c hc
    simp only [children, parent?, ownAttributes, hb, Option.bind_some, Option.map_some,
      Option.getD_some, List.mem_append] at hc
    refine List.mem_append.2 (hc.imp ?_ id)
    cases parent <;> simp [hp, Ty.nodes, Body.withParent]
  · simp [children_of_body?_none hb]

theorem sets_setBody (s : Store) (o : ObjectId) (c : Body ObjectId) :
    (s.setBody o c).sets = s.sets := by
  cases o <;> rfl

theorem size_objects_setBody (s : Store) (o : ObjectId) (c : Body ObjectId) :
    (s.setBody o c).objects.size = s.objects.size := by
  cases o <;> simp [Store.setBody]

theorem set_congr (h : s'.sets = s.sets) (t : SetId) : s'.set t = s.set t := by
  cases t <;> simp [set, h]

theorem WellFormed.resolve (h : s.WellFormed) (known : ∀ a ∈ b.nodes, s.Knows a)
    (distinct : ∀ e ∈ b.attributes.entries, e.2.Distinct) (hr : s.resolve o b = .ok s') :
    s'.WellFormed := by
  have hrooted := h.rooted.resolve hr
  obtain ⟨parent, hc, _, ho, rfl⟩ := resolve_eq_ok_iff.1 hr
  have hp := (checkParent_eq_ok_iff.1 hc).1
  have hsets := set_congr (sets_setBody s o (b.withParent parent))
  refine ⟨hrooted, ?_, ?_, ?_, ?_⟩
  · intro a c ha
    have hk : s.Knows c := by
      cases a with
      | object q =>
        by_cases hq : q = o
        · subst hq
          exact known c (children_setBody hp ho c ha)
        · rw [children_object_congr (body?_setBody_of_ne hq)] at ha
          exact h.known _ c ha
      | typeSet t =>
        simp only [children, hsets] at ha
        exact h.known (.typeSet t) c ha
    exact hk.mono (size_objects_setBody _ _ _).ge (congrArg _ (sets_setBody _ _ _)).ge
  · intro m n hm
    simp only [children, hsets] at hm
    exact h.earlier m n hm
  · intro n hn
    rw [sets_setBody] at hn
    rw [hsets]
    exact h.named n hn
  · intro q
    by_cases hq : q = o
    · subst hq
      rcases body?_setBody_self_cases (c := b.withParent parent) ho with hb | hb
      · simp only [ownAttributes, hb, Option.map_some, Option.getD_some]
        exact distinct
      · simp [ownAttributes, hb, Table.empty]
    · rw [ownAttributes_congr (body?_setBody_of_ne hq)]
      exact h.distinct q

theorem set_newSet_of_lt (t : TypeSet) {n : ℕ} (h : n < s.sets.size) :
    (s.newSet t).2.set (.declared n) = s.set (.declared n) := by
  simp [newSet, set, Array.getElem?_push, h.ne]

theorem set_newSet_self (s : Store) (t : TypeSet) :
    (s.newSet t).2.set (.declared s.sets.size) = t := by
  simp [newSet, set]

theorem set_newSet_of_gt (t : TypeSet) {n : ℕ} (h : s.sets.size < n) :
    (s.newSet t).2.set (.declared n) = {} := by
  simp [newSet, set, Array.getElem?_push, h.ne', h.le]

/-- Only the new set refers to something new. -/
theorem mem_children_newSet {t : TypeSet} (hc : c ∈ (s.newSet t).2.children a) :
    c ∈ s.children a ∨
      a = .typeSet (.declared s.sets.size) ∧ ∃ e ∈ t.members.entries, c ∈ e.2.nodes := by
  rcases a with o | _ | _ | n
  · rw [children_object_congr (s := s) (by cases o <;> rfl)] at hc
    exact .inl hc
  · exact .inl hc
  · exact .inl hc
  · rcases Nat.lt_trichotomy n s.sets.size with hn | rfl | hn
    · simp only [children, set_newSet_of_lt t hn] at hc
      exact .inl hc
    · simp only [children, set_newSet_self, List.mem_flatMap] at hc
      exact .inr ⟨rfl, hc⟩
    · simp [children, set_newSet_of_gt t hn, Table.empty] at hc

theorem WellFormed.newSet (h : s.WellFormed) {t : TypeSet} (named : t.name.isSome)
    (known : ∀ e ∈ t.members.entries, ∀ a ∈ e.2.nodes, s.Knows a) :
    (s.newSet t).2.WellFormed where
  rooted o := (h.rooted o).imp fun _ hl => hl.congr fun q _ => parent?_congr (by cases q <;> rfl)
  known a c hc := by
    have hk : s.Knows c := by
      rcases mem_children_newSet hc with hc | ⟨_, e, he, hc⟩
      · exact h.known a c hc
      · exact known e he c hc
    exact hk.mono le_rfl (by simp [Store.newSet])
  earlier m n hm := by
    rcases mem_children_newSet hm with hc | ⟨hn, e, he, hc⟩
    · exact h.earlier m n hc
    · obtain rfl : n = s.sets.size := by simpa using hn
      exact known e he _ hc
  named n hn := by
    rcases Nat.lt_or_ge n s.sets.size with hlt | hge
    · rw [set_newSet_of_lt t hlt]
      exact h.named n hlt
    · obtain rfl : n = s.sets.size := by
        simp only [Store.newSet, Array.size_push] at hn
        omega
      rwa [set_newSet_self]
  distinct o := by
    have : s.ownAttributes o = (s.newSet t).2.ownAttributes o := by cases o <;> rfl
    exact this ▸ h.distinct o

theorem Built.wellFormed (h : s.Built) : s.WellFormed := by
  induction h with
  | empty => exact wellFormed_empty
  | mark _ ih => exact ih.mark
  | object _ name ih => exact ih.newObject name
  | body _ known distinct resolved ih => exact ih.resolve known distinct resolved
  | typeSet _ name version members known ih => exact ih.newSet rfl known

end Store
end TypeLattice
