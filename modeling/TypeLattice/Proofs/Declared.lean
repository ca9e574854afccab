import TypeLattice.Proofs.Members

/-!
# What type sets declare

A type set that is built has the members that it declares, in that order, and in all their bodies
a name means what it means inside the set. All orders of the declarations give a set or none does,
and the sets that they give have equal members.
-/
namespace TypeLattice

namespace Value

variable {R : Ty → Ty → Prop}

mutual

/-- Only a float that is not finite is different from itself. -/
theorem related_self (hR : ∀ t, R t t) : ∀ v, finite v = true → Related R v v
  | .undef, _ | .bool _, _ | .integer _, _ | .string _, _ | .object _ _ _, _ => by simp [Related]
  | .float x, h => by
    cases x with
    | finite s m => simp [Related, Binary64.eq]
    | _ => simp [finite, Binary64.isFinite] at h
  | .array xs, h => by
    simp only [Related]
    exact relatedList_self hR xs h
  | .type t, _ | .iterator _ t, _ => by
    simp only [Related]
    exact hR t

theorem relatedList_self (hR : ∀ t, R t t) : ∀ xs, finiteList xs = true → RelatedList R xs xs
  | [], _ => trivial
  | x :: xs, h => by
    simp only [finiteList, Bool.and_eq_true] at h
    exact ⟨related_self hR x h.1, relatedList_self hR xs h.2⟩

end

theorem Matched.related {v w : Value} (hR : ∀ t, R t t) (h : v.Matched R w) (hv : v.finite = true) :
    v.Related R w := by
  cases h with
  | same => exact related_self hR v hv
  | type h =>
    simp only [Related]
    exact h

end Value

namespace Store

variable {s S : Store} {R : Ty → Ty → Prop} {r r' outer outer' : Resolver} {d : ObjectDecl}
  {o p : ObjectId} {b c : Body ObjectId} {t u : Ty} {members members' : Table ObjectId}

/-- Bodies that match look alike, if their values are equal to themselves. -/
theorem attributesRelated_of_matched {as bs : List (String × Attribute)} (hR : ∀ t, R t t)
    (h : EntriesRelated (Attribute.Matched R) as bs)
    (hfinite : ∀ e ∈ as, ∀ v, e.2.default = some v → v.finite = true) :
    AttributesRelated R as bs := by
  refine ((List.forall₂_and_left as bs).2 ⟨hfinite, h⟩).imp ?_
  rintro ⟨k, a⟩ ⟨l, b⟩ ⟨hv, hkl, htype, hdefault⟩
  exact ⟨hkl, htype, Option.Rel.imp hdefault fun v ha w _ h => h.related hR (hv v ha)⟩

theorem Realizes.parent? (h : s.Realizes r d o b) : s.parent? o = b.parent := by
  simp [Store.parent?, h.body]

theorem Realizes.ownAttributes (h : s.Realizes r d o b) : s.ownAttributes o = b.attributes := by
  simp [Store.ownAttributes, h.body]

/-- Two object types of one name and one declaration look alike. -/
theorem Realizes.alike (h : s.Realizes r d o b) (h' : s.Realizes r' d p c)
    (name : s.name? o = s.name? p) (hR : ∀ t, R t t)
    (hparts : ∀ e t u, s.Denotes r e t → s.Denotes r' e u → R t u) :
    s.Alike R (.object o) (.object p) := by
  have hmatched := h.stands.matched h'.stands fun e _ => hparts e
  refine .object name ?_ ?_
  · rw [h.parent?, h'.parent?]
    exact Option.Rel.map_iff.1 hmatched.parent
  · rw [h.ownAttributes, h'.ownAttributes]
    exact attributesRelated_of_matched hR hmatched.attributes (badDefault?_eq_none_iff.1 h.literal)

/-- Members of one name, types that one expression denotes, or equal types. -/
def Corresponding (s : Store) (r r' : Resolver) (members members' : Table ObjectId) (t u : Ty) :
    Prop :=
  SameMember members members' t u ∨ (∃ e, s.Denotes r e t ∧ s.Denotes r' e u) ∨ s.Equal t u

theorem bisimulation_corresponding
    (hnames : ∀ n, Option.Rel (fun t u => SameMember members members' t u ∨ s.Equal t u)
      (r n) (r' n))
    (hmembers : ∀ k o p, members.get? k = some o → members'.get? k = some p →
      s.name? o = s.name? p ∧ ∃ d b c, s.Realizes r d o b ∧ s.Realizes r' d p c) :
    s.Bisimulation (s.Corresponding r r' members members') := by
  have hrefl : ∀ t, s.Corresponding r r' members members' t t :=
    fun t => .inr (.inr (Equal.refl s t))
  have hparts : ∀ e t u, s.Denotes r e t → s.Denotes r' e u →
      s.Corresponding r r' members members' t u := fun e t u ht hu => .inr (.inl ⟨e, ht, hu⟩)
  have hsame : ∀ t u, SameMember members members' t u ∨ s.Equal t u →
      t = u ∨ s.Alike (s.Corresponding r r' members members') t u := by
    rintro t u (⟨k, o, p, ho, hp, rfl, rfl⟩ | heq)
    · obtain ⟨hname, d, b, c, hb, hc⟩ := hmembers k o p ho hp
      exact .inr (hb.alike hc hname hrefl hparts)
    · exact (s.equal_bisimulation t u heq).imp_right (Alike.mono fun _ _ h => .inr (.inr h))
  rintro t u (hmember | ⟨e, ht, hu⟩ | heq)
  · exact hsame t u (.inl hmember)
  · cases ht with
    | @name n t resolved =>
      cases hu with
      | name resolved' =>
        have hrel := hnames n
        rw [resolved, resolved', Option.rel_some_some] at hrel
        exact hsame t u hrel
    | @former n f e t m variant parameter =>
      cases hu with
      | @former _ g _ u m' variant' parameter' =>
        obtain rfl : f = g := by simpa using variant.symm.trans variant'
        obtain ⟨i, hi⟩ := Ty.formed_eq f t m
        obtain ⟨j, hj⟩ := Ty.formed_eq f u m'
        rw [hi, hj]
        exact .inr (.former (hparts e t u parameter parameter'))
    | @object d o b name body stands literal =>
      cases hu with
      | @object _ p c name' body' stands' literal' =>
        have hb : s.Realizes r d o b := ⟨body, stands, literal⟩
        have hc : s.Realizes r' d p c := ⟨body', stands', literal'⟩
        exact .inr (hb.alike hc (name.trans name'.symm) hrefl hparts)
  · exact hsame t u (.inr heq)

/-- Types that one expression denotes are equal if names mean equal types. -/
theorem Denotes.equal {e : TypeExpr} (h : s.Denotes r e t) (h' : s.Denotes r' e u)
    (hr : ∀ n, Option.Rel s.Equal (r n) (r' n)) : s.Equal t u := by
  have hbisimulation : s.Bisimulation (s.Corresponding r r' .empty .empty) :=
    bisimulation_corresponding (fun n => Option.Rel.mono (fun _ _ => .inr) (hr n)) (by simp)
  exact ⟨_, hbisimulation, .inr (.inl ⟨e, h, h'⟩)⟩

/-- The built-in names give types that are in every store. -/
theorem has_of_builtins {n : String} (h : Resolver.builtins n = some t) : s.Has t := by
  rw [Resolver.builtins, Resolver.variants] at h
  cases hv : Variant.ofName? n with
  | some v =>
    obtain rfl : Ty.ofVariant v = t := by simpa [hv] using h
    exact has_ofVariant v
  | none =>
    obtain ⟨m, _, hm⟩ : ∃ m, Text.after? "Pcore::" n = some m ∧ TypeSet.pcore.get? m = some t := by
      simpa [hv, Option.bind_eq_some_iff] using h
    have hmember : ∃ k, TypeSet.pcore.members.get? k = some t := by
      unfold TypeSet.get? at hm
      split at hm
      · exact ⟨_, hm⟩
      · split_ifs at hm
        exact ⟨_, hm⟩
    obtain ⟨k, hk⟩ := hmember
    obtain ⟨w, _, hw⟩ := List.mem_map.1 (Table.mem_of_get? hk)
    obtain rfl := (Prod.mk.inj hw).2
    simp [Knows]

theorem knows_of_set_name {a : SetId} {name : String} (h : (s.set a).name = some name) :
    s.Knows (.typeSet a) := by
  rcases a with _ | _ | n
  · trivial
  · trivial
  · by_contra hn
    have hnone : s.sets[n]? = none := Array.getElem?_eq_none (Nat.le_of_not_lt hn)
    simp [set, hnone] at h

theorem Grows.newSet (s : Store) (t : TypeSet) : s.Grows (s.newSet t).2 := by
  have h := (Extends.refl s).untouched_newSet t
  exact ⟨fun a ha => ha.mono le_rfl (by simp [Store.newSet]), h.name,
    fun o b hb => (h.body o (knows_of_body? hb)).trans hb, h.set⟩

/-- The set has the declared members in the order of their declarations, under their qualified names
and with bodies in which names mean what `r` says. -/
structure Declares (s : Store) (r : Resolver) (d : TypeSetDecl) (members : Table ObjectId)
    (t : SetId) : Prop where
  set : s.set t =
    { name := some d.name, version := d.version, members := members.map fun _ o => .object o }
  keys : members.keys = d.types.keys
  name : ∀ k o, members.get? k = some o → s.name? o = some (Text.qualify d.name k)
  realized : ∀ e ∈ d.types.entries, ∃ o b, members.get? e.1 = some o ∧ s.Realizes r e.2 o b

section Declares

variable {d d' : TypeSetDecl} {t t' : SetId} {s' : Store} {k l : String}

theorem Declares.mem_keys_iff (h : s.Declares r d members t) :
    k ∈ d.types.keys ↔ ∃ o, members.get? k = some o := by
  rw [← h.keys, Table.mem_keys_iff]

theorem Declares.exists_declaration (h : s.Declares r d members t)
    (ho : members.get? k = some o) : ∃ e b, (k, e) ∈ d.types.entries ∧ s.Realizes r e o b := by
  obtain ⟨e, he, rfl⟩ := List.mem_map.1 (h.mem_keys_iff.2 ⟨o, ho⟩)
  obtain ⟨o', b, ho', hb⟩ := h.realized e he
  obtain rfl := Option.some.inj (ho.symm.trans ho')
  exact ⟨e.2, b, he, hb⟩

theorem Declares.later (h : s.Declares r d members t) (hs : s.Grows s') :
    s'.Declares r d members t where
  set := by
    rw [hs.set t (knows_of_set_name (congrArg TypeSet.name h.set)), h.set]
  keys := h.keys
  name k o ho := by
    obtain ⟨e, b, _, hb⟩ := h.exists_declaration ho
    rw [hs.name o (knows_of_body? hb.body), h.name k o ho]
  realized e he := by
    obtain ⟨o, b, ho, hb⟩ := h.realized e he
    exact ⟨o, b, ho, hb.later hs⟩

/-- The name of a member is on the object type, so members of different names are different. -/
theorem Declares.name_unique (h : s.Declares r d members t) (hk : members.get? k = some o)
    (hl : members.get? l = some o) : l = k :=
  Text.qualify_injective (Option.some.inj ((h.name l o hl).symm.trans (h.name k o hk)))

theorem Declares.get?_members (h : s.Declares r d members t) (ho : members.get? k = some o) :
    (s.set t).members.get? k = some (.object o) := by
  simp [h.set, Table.get?_map, ho]

/-- The members of two sets with the same declarations are equal if names mean equal types outside
the sets. -/
theorem Declares.equal_members (h : s.Declares (outer.inside d.name members) d members t)
    (h' : s.Declares (outer'.inside d'.name members') d' members' t') (hname : d'.name = d.name)
    (hperm : d'.types.entries.Perm d.types.entries)
    (houter : ∀ n, Option.Rel s.Equal (outer n) (outer' n)) (k : String) :
    Option.Rel s.Equal ((s.set t).members.get? k) ((s.set t').members.get? k) := by
  have hkeys : ∀ k, k ∈ members.keys ↔ k ∈ members'.keys := fun k => by
    rw [h.keys, h'.keys]
    exact (hperm.map _).mem_iff.symm
  have hnames : ∀ n, Option.Rel (fun t u => SameMember members members' t u ∨ s.Equal t u)
      (outer.inside d.name members n) (outer'.inside d.name members' n) :=
    Resolver.rel_inside hkeys houter
  have hmembers : ∀ k o p, members.get? k = some o → members'.get? k = some p →
      s.name? o = s.name? p ∧ ∃ e b c, s.Realizes (outer.inside d.name members) e o b ∧
        s.Realizes (outer'.inside d.name members') e p c := by
    intro k o p ho hp
    obtain ⟨e, b, he, hb⟩ := h.exists_declaration ho
    obtain ⟨e', c, he', hc⟩ := h'.exists_declaration hp
    obtain rfl : e' = e := congrArg Prod.snd
      (List.inj_on_of_nodup_map d.types.nodup (hperm.mem_iff.1 he') he rfl)
    refine ⟨?_, e', b, c, hb, hname ▸ hc⟩
    rw [h.name k o ho, h'.name k p hp, hname]
  have hbisimulation := bisimulation_corresponding hnames hmembers
  have hequal := Table.rel_get?_of_keys hkeys (R := fun o p => s.Equal (.object o) (.object p))
    (fun k o p ho hp => ⟨_, hbisimulation, .inl ⟨k, o, p, ho, hp, rfl, rfl⟩⟩) k
  rw [h.set, h'.set]
  simp only [Table.get?_map]
  exact Option.Rel.map_iff.2 hequal

theorem Declares.exists_equal_member (h : s.Declares (outer.inside d.name members) d members t)
    (h' : s.Declares (outer'.inside d'.name members') d' members' t') (hname : d'.name = d.name)
    (hperm : d'.types.entries.Perm d.types.entries)
    (houter : ∀ n, Option.Rel s.Equal (outer n) (outer' n)) (hk : k ∈ d.types.keys) :
    ∃ u v, (s.set t).members.get? k = some u ∧ (s.set t').members.get? k = some v ∧
      s.Equal u v := by
  obtain ⟨o, ho⟩ := h.mem_keys_iff.1 hk
  have hu := h.get?_members ho
  have hequal := h.equal_members h' hname hperm houter k
  obtain ⟨v, hv, huv⟩ := Option.Rel.exists_right (hu ▸ hequal)
  exact ⟨.object o, v, hu, hv, huv⟩

end Declares
end Store

namespace Building

open Store

variable {s S s₁ s₂ s' : Store} {outer outer' : Resolver} {d d' : TypeSetDecl} {t t' : SetId}
  {members' : Table ObjectId}

/-- What the declarations of a set refer to is there: the types that names mean outside the set, and
what is in literal values. -/
structure Grounded (s : Store) (outer : Resolver) (d : TypeSetDecl) : Prop where
  names : ∀ n t, outer n = some t → s.Has t
  literals : ∀ e ∈ d.types.entries, ∀ v, (TypeExpr.object e.2).HasLiteral v → s.HasValue v

/-- A set that is built was not there before, and neither were its members. -/
theorem new_of_typeSet (h : typeSet outer d s = .ok t s') : ¬s.Knows (.typeSet t) ∧
    ∀ e ∈ (s'.set t).members.entries, ¬s.Has e.2 := by
  obtain ⟨members, s₁, hs₁, -, -, -, hnew, hrun⟩ :=
    typeSet_eq (exists_members_of_typeSet h).1 s outer
  have hspares := Spares.resolveMembers (outer.inside d.name members)
    (fun name o ho => (hnew name o ho).unknown) d.types.entries s₁ hs₁
  rw [hrun] at h
  rw [storeAfter] at hspares
  cases hbodies : resolveMembers (outer.inside d.name members) members d.types.entries s₁ with
  | error e s₂ =>
    rw [hbodies] at h
    cases h
  | ok _ s₂ =>
    rw [hbodies] at h hspares
    cases h
    constructor
    · simp [Knows, hspares.typeSets]
    · rw [Store.set_newSet_self]
      intro e he
      obtain ⟨m, hm, rfl⟩ := List.mem_map.1 he
      rw [has_object]
      exact (hnew m.1 m.2 (Table.get?_of_mem hm)).unknown

/-- A set that is built has what it declares. If it is not built, for another reason than its name,
then it cannot be built anywhere. -/
theorem typeSet_outcome (hs : s.Built) (hd : Grounded s outer d)
    (hname : Text.allBlank d.name = false) :
    ∃ members : Table ObjectId, members.keys = d.types.keys ∧
      ((∃ t s', typeSet outer d s = .ok t s' ∧ s'.Built ∧ s.Grows s' ∧
        s'.Declares (outer.inside d.name members) d members t) ∨
      (∃ e s', typeSet outer d s = .error e s' ∧ s'.Built ∧ s.Grows s') ∧
        ∀ S r' members', ¬Solution s (outer.inside d.name members) members d.types.entries S r'
          members') := by
  obtain ⟨members, s₁, hs₁, hbuilt, hkeys, hdistinct, hnew, hrun⟩ := typeSet_eq hname s outer
  refine ⟨members, hkeys, ?_⟩
  have hsite : Site s (outer.inside d.name members) members d.types.entries :=
    ⟨hs, hkeys, hdistinct, fun k o ho => (hnew k o ho).unknown,
      fun n t hn => (Resolver.inside_eq_some hn).imp_left (hd.names n t), hd.literals⟩
  have hstart : Progress s (outer.inside d.name members) members d.types.entries s₁ :=
    ⟨hs₁, hbuilt hs, fun k o ho => (hnew k o ho).known, fun e _ o b ho hb =>
      nomatch (hnew _ o ho).unresolved.symm.trans hb⟩
  rcases hstart.resolveMembers hsite (List.Subset.refl _) d.types.nodup
    (fun e _ o ho => (hnew _ o ho).unresolved) with
    ⟨s₂, hbodies, hdone, hgrows, hall⟩ | ⟨⟨e, s₂, hbodies, hgrows, hbuilt₂⟩, hnone⟩
  · left
    rw [hrun, hbodies]
    have hset := Grows.newSet s₂
      { name := some d.name, version := d.version, members := members.map fun _ o => .object o }
    refine ⟨_, _, rfl, ?_, hdone.onward.grows.trans hset, set_newSet_self _ _, hkeys, ?_, ?_⟩
    · refine hdone.built.typeSet d.name d.version _ fun e he a ha => ?_
      obtain ⟨m, hm, rfl⟩ := List.mem_map.1 he
      obtain rfl : a = .object m.2 := by simpa [Ty.nodes] using ha
      exact hdone.knows m.1 m.2 (Table.get?_of_mem hm)
    · intro k o ho
      rw [hset.name o (hdone.knows k o ho), hgrows.name o (hnew k o ho).known]
      exact (hnew k o ho).name
    · intro e he
      obtain ⟨o, ho⟩ := hsite.exists_member he
      obtain ⟨b, hb⟩ := hall e he o ho
      exact ⟨o, b, ho, (hdone.realized e he o b ho hb).later hset⟩
  · right
    rw [hrun, hbodies]
    exact ⟨⟨e, s₂, rfl, hbuilt₂, hs₁.grows.trans hgrows⟩, hnone⟩

theorem declares_of_typeSet (hs : s.Built) (hd : Grounded s outer d)
    (h : typeSet outer d s = .ok t s') : s'.Built ∧ s.Grows s' ∧
      ∃ members, s'.Declares (outer.inside d.name members) d members t := by
  obtain ⟨members, -, hcases⟩ := typeSet_outcome hs hd (exists_members_of_typeSet h).1
  rcases hcases with ⟨_, _, hok, hbuilt, hgrows, hdeclares⟩ | ⟨⟨_, _, herror, -⟩, -⟩
  · cases h.symm.trans hok
    exact ⟨hbuilt, hgrows, members, hdeclares⟩
  · cases h.symm.trans herror

/-- What was there before a set is built is still there afterwards, whether or not it is built. -/
theorem grows_after_typeSet (hs : s.Built) (hd : Grounded s outer d) :
    ((typeSet outer d).storeAfter s).Built ∧ s.Grows ((typeSet outer d).storeAfter s) := by
  rw [storeAfter]
  cases hname : Text.allBlank d.name with
  | true =>
    rw [typeSet_of_allBlank hname]
    exact ⟨hs, .refl s⟩
  | false =>
    obtain ⟨members, -, ⟨_, _, hok, hbuilt, hgrows, -⟩ | ⟨⟨_, _, herror, hbuilt, hgrows⟩, -⟩⟩ :=
      typeSet_outcome hs hd hname
    · rw [hok]
      exact ⟨hbuilt, hgrows⟩
    · rw [herror]
      exact ⟨hbuilt, hgrows⟩

/-- A set can be built wherever its declarations have been built somewhere, in whatever order. -/
theorem typeSet_ok_of_declares (hs : s.Built) (hd : Grounded s outer d)
    (hname : Text.allBlank d.name = false) (hS : S.Rooted)
    (h : S.Declares (outer'.inside d'.name members') d' members' t') (hsame : d'.name = d.name)
    (hperm : d'.types.entries.Perm d.types.entries)
    (houter : ∀ n, Option.Rel (fun u t => u.variant = t.variant) (outer' n) (outer n)) :
    ∃ t s', typeSet outer d s = .ok t s' := by
  obtain ⟨members, hkeys, ⟨t, s', hok, -⟩ | ⟨-, hnone⟩⟩ := typeSet_outcome hs hd hname
  · exact ⟨t, s', hok⟩
  · have hmembers : ∀ k, k ∈ members'.keys ↔ k ∈ members.keys := fun k => by
      rw [h.keys, hkeys]
      exact (hperm.map _).mem_iff
    have hnames : ∀ n, Option.Rel (fun u t => u.variant = t.variant ∧ s.Has t) (outer' n)
        (outer n) :=
      fun n => Option.Rel.imp (houter n) fun u _ t ht hv => ⟨hv, hd.names n t ht⟩
    refine absurd ?_ (hnone S (outer'.inside d'.name members') members')
    refine ⟨hS, fun n => ?_, fun e he => h.realized e (hperm.mem_iff.2 he)⟩
    rw [hsame]
    exact Resolver.rel_inside hmembers hnames n

theorem Grounded.later (h : Grounded s outer d) (hs : s.Grows s') : Grounded s' outer d where
  names n t ht a ha := hs.knows a (h.names n t ht a ha)
  literals e he v hv := by
    have hvalue := h.literals e he v hv
    exact ⟨fun a ha => hs.knows a (hvalue.knows a ha), hvalue.distinct⟩

theorem Grounded.perm (h : Grounded s outer d) (hperm : d'.types.entries.Perm d.types.entries) :
    Grounded s outer d' :=
  ⟨h.names, fun e he => h.literals e (hperm.mem_iff.1 he)⟩

theorem typeSet_ok_of_perm (hs : s.Built) (hd : Grounded s outer d) (hs₁ : s₁.Built)
    (hd' : Grounded s₁ outer d') (hsame : d.name = d'.name)
    (hperm : d.types.entries.Perm d'.types.entries) (h : ∃ t s', typeSet outer d s = .ok t s') :
    ∃ t s', typeSet outer d' s₁ = .ok t s' := by
  obtain ⟨t, s', hok⟩ := h
  obtain ⟨hbuilt, -, members, hdeclares⟩ := declares_of_typeSet hs hd hok
  refine typeSet_ok_of_declares hs₁ hd' (hsame ▸ (exists_members_of_typeSet hok).1)
    hbuilt.wellFormed.rooted hdeclares hsame hperm fun n => ?_
  exact Option.Rel.refl (fun t => Eq.refl t.variant) (outer n)

/-- Names other than the qualified ones of the members: the simple name of a member means the
member, and a name of none means what it means outside the set. -/
structure TiesSimple (r outer : Resolver) (d : TypeSetDecl) (members : Table ObjectId) : Prop where
  simple : ∀ k o, members.get? k = some o → r k = some (.object o)
  other : ∀ n, (∀ k ∈ d.types.keys, n ≠ k ∧ n ≠ Text.qualify d.name k) → r n = outer n

/-- What names mean inside a set: a member is meant by its simple and by its qualified name, and any
other name means what it means outside. -/
structure Ties (r outer : Resolver) (d : TypeSetDecl) (members : Table ObjectId) : Prop
    extends TiesSimple r outer d members where
  qualified : ∀ k o, members.get? k = some o → r (Text.qualify d.name k) = some (.object o)

section Ties

variable {r : Resolver} {members : Table ObjectId}

/-- Only one resolver ties names as names are tied inside a set. -/
theorem Ties.eq_inside (h : Ties r outer d members) (hdeclares : S.Declares r d members t)
    (hset : Text.split? d.name = none) (hmembers : ∀ k ∈ d.types.keys, Text.split? k = none)
    (hcolon : Text.EndsInColon d.name → d.types.keys = []) : r = outer.inside d.name members := by
  funext n
  rw [Resolver.inside_eq]
  cases hm : (Resolver.memberName? d.name n).bind members.get? with
  | some o =>
    obtain ⟨k, hname, ho⟩ := Option.bind_eq_some_iff.1 hm
    rcases Resolver.eq_of_memberName? hname with rfl | ⟨rfl, _⟩
    · exact h.simple n o ho
    · exact h.qualified k o ho
  | none =>
    have hnone : ∀ k ∈ d.types.keys, Resolver.memberName? d.name n ≠ some k := by
      intro k hk hname
      obtain ⟨o, ho⟩ := hdeclares.mem_keys_iff.1 hk
      simp [hname, ho] at hm
    refine h.other n fun k hk => ⟨?_, ?_⟩
    · rintro rfl
      exact hnone n hk (Resolver.memberName?_of_split? (hmembers n hk))
    · rintro rfl
      have hlast : ¬Text.EndsInColon d.name := fun hlast => by simp [hcolon hlast] at hk
      exact hnone k hk (Resolver.memberName?_qualify hset hlast k)

theorem tiesSimple_inside (hdeclares : s'.Declares (outer.inside d.name members) d members t)
    (hmembers : ∀ k ∈ d.types.keys, Text.split? k = none) :
    TiesSimple (outer.inside d.name members) outer d members := by
  refine ⟨fun k o ho => ?_, fun n hn => ?_⟩
  · have hk := hmembers k (hdeclares.mem_keys_iff.2 ⟨o, ho⟩)
    simp [Resolver.inside_eq, Resolver.memberName?_of_split? hk, ho]
  · rw [Resolver.inside_eq]
    cases hm : (Resolver.memberName? d.name n).bind members.get? with
    | none => rfl
    | some o =>
      obtain ⟨k, hname, ho⟩ := Option.bind_eq_some_iff.1 hm
      obtain ⟨hsimple, hqualified⟩ := hn k (hdeclares.mem_keys_iff.2 ⟨o, ho⟩)
      rcases Resolver.eq_of_memberName? hname with rfl | ⟨rfl, _⟩
      · exact absurd rfl hsimple
      · exact absurd rfl hqualified

/-- Qualified names are tied too, unless the name of the set adds a colon to the two in front of a
member: then what is meant is looked up outside, where the new members are not known. -/
theorem ties_inside_iff (hd : Grounded s outer d) (h : typeSet outer d s = .ok t s')
    (hdeclares : s'.Declares (outer.inside d.name members) d members t)
    (hset : Text.split? d.name = none) (hmembers : ∀ k ∈ d.types.keys, Text.split? k = none) :
    Ties (outer.inside d.name members) outer d members ↔
      (Text.EndsInColon d.name → d.types.keys = []) := by
  have hqualified : ∀ k o, members.get? k = some o →
      (outer.inside d.name members (Text.qualify d.name k) = some (.object o) ↔
        ¬Text.EndsInColon d.name) := by
    intro k o ho
    have hnew : ¬s.Has (.object o) :=
      (new_of_typeSet h).2 _ (Table.mem_of_get? (hdeclares.get?_members ho))
    rw [Resolver.inside_eq_member_iff ho (fun hn => hnew (hd.names _ _ hn))
      fun l hl => hdeclares.name_unique ho hl, Resolver.memberName?_qualify_iff]
    simp [hset]
  constructor
  · intro hties hlast
    refine List.eq_nil_iff_forall_not_mem.2 fun k hk => ?_
    obtain ⟨o, ho⟩ := hdeclares.mem_keys_iff.1 hk
    exact (hqualified k o ho).1 (hties.qualified k o ho) hlast
  · intro hcolon
    refine ⟨tiesSimple_inside hdeclares hmembers, fun k o ho => ?_⟩
    refine (hqualified k o ho).2 fun hlast => ?_
    have hk : k ∈ d.types.keys := hdeclares.mem_keys_iff.2 ⟨o, ho⟩
    simp [hcolon hlast] at hk

end Ties

/-- Two sets that are built one after the other from the same declarations, in whatever orders, have
equal members. -/
theorem equals_of_perm (hs : s.Built) (hd : Grounded s outer d) (hs₁ : s₁.Built)
    (hd' : Grounded s₁ outer d') (hsame : d'.name = d.name)
    (hperm : d'.types.entries.Perm d.types.entries) (h : typeSet outer d s = .ok t s')
    (hlater : s'.Grows s₁) (h' : typeSet outer d' s₁ = .ok t' s₂) {k : String}
    (hk : k ∈ d.types.keys) :
    ∃ u v, (s₂.set t).members.get? k = some u ∧ (s₂.set t').members.get? k = some v ∧
      s₂.equals u v = true := by
  obtain ⟨_, _, members, hmembers⟩ := declares_of_typeSet hs hd h
  obtain ⟨hs₂, hgrows, members', hmembers'⟩ := declares_of_typeSet hs₁ hd' h'
  obtain ⟨u, v, hu, hv, heq⟩ := (hmembers.later (hlater.trans hgrows)).exists_equal_member hmembers'
    hsame hperm (fun n => Option.Rel.refl (Equal.refl s₂) (outer n)) hk
  exact ⟨u, v, hu, hv, (equals_iff hs₂.wellFormed).2 heq⟩

/-- A set that is built has what it declares, where each reference to a member by its simple name is
tied to it, whether it is declared before, after or around the reference, and names of no member are
looked up outside. References by qualified names are tied too exactly if the name of the set does not
end in a colon or the set is empty. Then the set is built exactly if its name is not blank and what
it declares can stand in some store where walks along parents end. In any case all orders of the
declarations give a set or none does, and the sets have equal members. -/
theorem typeSet_ties_names (hs : s.Built) (hd : Grounded s outer d)
    (hset : Text.split? d.name = none) (hmembers : ∀ k ∈ d.types.keys, Text.split? k = none) :
    (∀ t s', typeSet outer d s = .ok t s' →
      ∃ members, s'.Declares (outer.inside d.name members) d members t ∧
        TiesSimple (outer.inside d.name members) outer d members ∧
        (Ties (outer.inside d.name members) outer d members ↔
          (Text.EndsInColon d.name → d.types.keys = []))) ∧
    ((Text.EndsInColon d.name → d.types.keys = []) →
      ((∃ t s', typeSet outer d s = .ok t s') ↔ Text.allBlank d.name = false ∧
        ∃ (S : Store) (members : Table ObjectId) (r : Resolver) (t : SetId),
          S.Rooted ∧ Ties r outer d members ∧ S.Declares r d members t)) ∧
    ∀ d' : TypeSetDecl, d'.name = d.name → d'.types.entries.Perm d.types.entries →
      ∀ s₁, s₁.Built → s.Grows s₁ →
        ((∃ t s', typeSet outer d s = .ok t s') ↔ ∃ t s', typeSet outer d' s₁ = .ok t s') ∧
        ∀ t s' t' s₂, typeSet outer d s = .ok t s' → s'.Grows s₁ →
          typeSet outer d' s₁ = .ok t' s₂ → ∀ k ∈ d.types.keys,
            ∃ u v, (s₂.set t).members.get? k = some u ∧ (s₂.set t').members.get? k = some v ∧
              s₂.equals u v = true := by
  refine ⟨fun t s' h => ?_, fun hcolon => ⟨?_, ?_⟩, fun d' hsame hperm s₁ hs₁ hgrows => ?_⟩
  · obtain ⟨-, -, members, hdeclares⟩ := declares_of_typeSet hs hd h
    exact ⟨members, hdeclares, tiesSimple_inside hdeclares hmembers,
      ties_inside_iff hd h hdeclares hset hmembers⟩
  · rintro ⟨t, s', h⟩
    obtain ⟨hbuilt, -, members, hdeclares⟩ := declares_of_typeSet hs hd h
    exact ⟨(exists_members_of_typeSet h).1, s', members, _, t, hbuilt.wellFormed.rooted,
      (ties_inside_iff hd h hdeclares hset hmembers).2 hcolon, hdeclares⟩
  · rintro ⟨hname, S, members, r, t, hS, hties, hdeclares⟩
    obtain rfl := hties.eq_inside hdeclares hset hmembers hcolon
    exact typeSet_ok_of_declares hs hd hname hS hdeclares rfl (.refl _)
      fun n => Option.Rel.refl (fun t => Eq.refl t.variant) (outer n)
  · have hd' := (hd.later hgrows).perm hperm
    refine ⟨⟨?_, ?_⟩, fun t s' t' s₂ h hlater h' k hk => ?_⟩
    · exact typeSet_ok_of_perm hs hd hs₁ hd' hsame.symm hperm.symm
    · exact typeSet_ok_of_perm hs₁ hd' hs hd hsame hperm
    · exact equals_of_perm hs hd hs₁ hd' hsame hperm h hlater h' hk

/-- Two object types, each of which refers to the other. -/
def family : TypeSetDecl where
  name := "Family"
  version := some "1.0.0"
  types :=
    { entries :=
        [("Child", { parent := some (.named "Person" []) }),
         ("Person",
           { attributes :=
               [("name", { type := .named "String" [], default := some (.literal (.string "")) }),
                ("children",
                  { type := .named "Array" [.named "Family::Child" []]
                    default := some (.type (.object { parent := some (.named "Child" []) })) })] })]
      nodup := by decide }

def familyReversed : TypeSetDecl :=
  { family with types := { entries := family.types.entries.reverse, nodup := by decide } }

theorem family_ties_names : Store.Built {} ∧ Grounded {} Resolver.builtins family ∧
    Text.split? family.name = none ∧ (∀ k ∈ family.types.keys, Text.split? k = none) ∧
    ∃ t s' t' s₂, typeSet Resolver.builtins family {} = .ok t s' ∧
      typeSet Resolver.builtins familyReversed s' = .ok t' s₂ ∧
      (∃ members r, s'.Declares r family members t ∧ Ties r Resolver.builtins family members) ∧
      ∀ k ∈ family.types.keys,
        ∃ u v, (s₂.set t).members.get? k = some u ∧ (s₂.set t').members.get? k = some v ∧
          s₂.equals u v = true := by
  have htext : HasValue {} (.string "") := ⟨by simp [Value.nodes], trivial⟩
  have hgrounded : Grounded {} Resolver.builtins family := by
    refine ⟨fun n t => has_of_builtins, ?_⟩
    simpa [family, Declaration.literals, Declaration.parts, AttributeDecl.parts, DefaultExpr.parts,
      DefaultExpr.literals, List.flatMap_cons, -List.mem_flatMap] using htext
  have hset : Text.split? family.name = none := by decide
  have hmembers : ∀ k ∈ family.types.keys, Text.split? k = none := by decide
  obtain ⟨htied, -, hperms⟩ := typeSet_ties_names .empty hgrounded hset hmembers
  obtain ⟨t, s', h⟩ : ∃ t s', typeSet Resolver.builtins family {} = .ok t s' := ⟨_, _, rfl⟩
  obtain ⟨hbuilt, hgrows, -⟩ := declares_of_typeSet .empty hgrounded h
  obtain ⟨hiff, hequal⟩ := hperms familyReversed rfl (List.reverse_perm _) s' hbuilt hgrows
  obtain ⟨t', s₂, h'⟩ := hiff.1 ⟨t, s', h⟩
  obtain ⟨members, hdeclares, -, hties⟩ := htied t s' h
  have hlast : ¬Text.EndsInColon family.name := by
    unfold Text.EndsInColon
    decide
  exact ⟨.empty, hgrounded, hset, hmembers, t, s', t', s₂, h, h',
    ⟨members, _, hdeclares, hties.2 fun h => absurd h hlast⟩,
    hequal t s' t' s₂ h (.refl s') h'⟩

/-- A set whose name ends in a colon, with a member that refers to itself by its qualified name. -/
def colons : TypeSetDecl where
  name := "A:"
  types :=
    { entries := [("M", { attributes := [("x", { type := .named (Text.qualify "A:" "M") [] })] })] }

def colonNames : Resolver := fun n =>
  if n = "A:::M" then some (.basic .integer) else Resolver.builtins n

/-- The qualified name of the member is split at the first two of three colons, so it is looked up
outside. -/
theorem colons_not_tied : Text.split? colons.name = none ∧
    (∀ k ∈ colons.types.keys, Text.split? k = none) ∧
    Text.split? (Text.qualify "A:" "M") = some ("A", ":M") ∧
    ∃ t s' o a, typeSet colonNames colons {} = .ok t s' ∧
      (s'.set t).members.get? "M" = some (.object o) ∧
      s'.name? o = some (Text.qualify "A:" "M") ∧
      (s'.ownAttributes o).get? "x" = some a ∧ a.type = .basic .integer :=
  ⟨by decide, by decide, by decide, _, _, _, _, rfl, rfl, rfl, rfl, rfl⟩

end Building
end TypeLattice
