import TypeLattice.Proofs.Extension
import TypeLattice.Proofs.Equality
import TypeLattice.Proofs.Runs
import TypeLattice.TypeSet.Build

/-!
# What building leaves alone

Building only adds to a store: however a computation ends, the object types that were there keep
their names and bodies. Resolving a member of a type set gives a body to an object type, so this is
said about the store from before the members were made.
-/
namespace TypeLattice

open Store (Extends)

variable {α β : Type} {s s₁ s' : Store} {o : ObjectId}

theorem Store.Extends.setBody (h : s.Extends s₁) (hnew : ¬s.Knows (.object o)) (c : Body ObjectId) :
    s.Extends (s₁.setBody o c) where
  objects := h.objects.trans (size_objects_setBody s₁ o c).ge
  typeSets := (sets_setBody s₁ o c).trans h.typeSets
  name q hq := (name?_setBody s₁ o q c).trans (h.name q hq)
  body q hq := by
    have hne : q ≠ o := by
      rintro rfl
      exact hnew hq
    rw [body?_setBody_of_ne hne, h.body q hq]

namespace Building

/-- The store after a computation, whether it succeeds or fails. -/
def storeAfter (x : Building α) (s : Store) : Store :=
  match x s with
  | .ok _ s' => s'
  | .error _ s' => s'

/-- However the computation ends, all that is in `s` stays as it is. -/
def Spares (s : Store) (x : Building α) : Prop := ∀ s₁, s.Extends s₁ → s.Extends (x.storeAfter s₁)

namespace Spares

protected theorem pure (a : α) : (pure a : Building α).Spares s := fun _ h => h

protected theorem throw (e : TypeError) : (throw e : Building α).Spares s := fun _ h => h

protected theorem bind {x : Building α} {f : α → Building β} (hx : x.Spares s)
    (hf : ∀ a, (f a).Spares s) : (x >>= f).Spares s := by
  intro s₁ h₁
  have h := hx s₁ h₁
  simp only [storeAfter, bind, EStateM.bind] at h ⊢
  cases hr : x s₁ with
  | ok a s₂ =>
    rw [hr] at h
    exact hf a s₂ h
  | error e s₂ => rwa [hr] at h

theorem newFormed (f : Former) (t : Ty) : (Building.newFormed f t).Spares s := by
  intro s₁ h
  show s.Extends (s₁.newFormed f t).2
  unfold Store.newFormed
  split_ifs
  · exact h
  · exact h.trans (.mark s₁)

/-- A body goes to an object type that was not there. -/
theorem resolve (hnew : ¬s.Knows (.object o)) (b : Body Ty) : (Building.resolve o b).Spares s := by
  intro s₁ h
  simp only [storeAfter, Store.run_resolve]
  cases hr : s₁.resolve o b with
  | ok s₂ =>
    obtain ⟨parent, _, _, _, rfl⟩ := Store.resolve_eq_ok_iff.1 hr
    exact h.setBody hnew _
  | error e => exact h

theorem newResolved (name : Option String) (b : Body Ty) :
    (Building.newResolved name b).Spares s := by
  simp only [Building.newResolved]
  split
  · exact .pure _
  · intro s₁ h
    have hnew : ¬s.Knows (.object (s₁.newObject name).1) := fun hk => by
      have := h.knows hk
      simp [Store.newObject, Store.Knows] at this
    have hbody : Spares s (do
        Building.resolve (s₁.newObject name).1 b
        return (s₁.newObject name).1) := (resolve hnew b).bind fun _ => .pure _
    exact hbody _ (h.trans (.newObject s₁ name))

theorem ofArguments (v : Variant) (args : List Value) : (Building.ofArguments v args).Spares s := by
  unfold Building.ofArguments
  split
  · exact .pure _
  · exact newFormed _ _
  · exact fun _ h => h
  · exact .throw _
  · exact .throw _

end Spares
end Building

namespace TypeExpr

variable {r : Resolver}

open Building (Spares)

theorem spares_resolveList {es : List TypeExpr} (h : ∀ e ∈ es, (e.resolve r).Spares s) :
    (resolveList r es).Spares s := by
  induction es with
  | nil =>
    rw [resolveList]
    exact .pure _
  | cons e es ih =>
    rw [resolveList]
    have hrest := ih fun e he => h e (List.mem_cons_of_mem _ he)
    exact (h e List.mem_cons_self).bind fun _ => hrest.bind fun _ => .pure _

theorem spares_resolveAttribute {a : AttributeDecl TypeExpr}
    (h : ∀ e ∈ a.parts, (e.resolve r).Spares s) : (resolveAttribute r a).Spares s := by
  obtain ⟨type, default⟩ := a
  rw [resolveAttribute]
  refine (h type List.mem_cons_self).bind fun _ => Spares.bind ?_ fun _ => .pure _
  rcases default with _ | _ | e
  · rw [resolveDefault]
    exact .pure _
  · rw [resolveDefault, resolveValue]
    exact .pure _
  · rw [resolveDefault, resolveValue]
    have he := h e (by simp [AttributeDecl.parts, DefaultExpr.parts])
    exact (he.bind fun _ => .pure _).bind fun _ => .pure _

theorem spares_resolveAttributes {as : List (String × AttributeDecl TypeExpr)}
    (h : ∀ e ∈ as.flatMap (·.2.parts), (e.resolve r).Spares s) :
    (resolveAttributes r as).Spares s := by
  induction as with
  | nil =>
    rw [resolveAttributes]
    exact .pure _
  | cons a as ih =>
    rw [List.flatMap_cons, List.forall_mem_append] at h
    rw [resolveAttributes, resolveNamed]
    have hfirst := (spares_resolveAttribute h.1).bind fun b => .pure (a.1, b)
    exact hfirst.bind fun _ => (ih h.2).bind fun _ => .pure _

theorem spares_resolveBody {d : ObjectDecl} (h : ∀ e ∈ d.parts, (e.resolve r).Spares s) :
    (resolveBody r d).Spares s := by
  obtain ⟨name, parent, attributes, constructor⟩ := d
  simp only [Declaration.parts, List.forall_mem_append] at h
  rw [resolveBody]
  refine Spares.bind ?_ fun _ => (spares_resolveAttributes h.2).bind fun _ => .pure _
  cases parent with
  | none =>
    rw [resolveOption]
    exact .pure _
  | some e =>
    rw [resolveOption]
    exact (h.1 e (by simp)).bind fun _ => .pure _

/-- Resolving an expression only adds to the store. -/
theorem spares_resolve (r : Resolver) (e : TypeExpr) : (e.resolve r).Spares s := by
  induction e with
  | named name es ih =>
    cases es with
    | nil =>
      rw [resolve]
      split
      · exact .pure _
      · exact .throw _
    | cons e es =>
      rw [resolve]
      split
      · refine (ih e List.mem_cons_self).bind fun t => ?_
        have hrest := spares_resolveList fun e he => ih e (List.mem_cons_of_mem _ he)
        exact hrest.bind fun ts => .ofArguments _ _
      · exact .throw _
  | object d ih =>
    rw [resolve]
    exact (spares_resolveBody ih).bind fun b => (Spares.newResolved d.name b).bind fun _ => .pure _

end TypeExpr

namespace Store

/-- Each object type and type set of `s` is the same in `s'`. -/
structure Untouched (s s' : Store) : Prop where
  name : ∀ o, s.Knows (.object o) → s'.name? o = s.name? o
  body : ∀ o, s.Knows (.object o) → s'.body? o = s.body? o
  set : ∀ a, s.Knows (.typeSet a) → s'.set a = s.set a

theorem Extends.untouched (h : s.Extends s') : s.Untouched s' :=
  ⟨h.name, h.body, fun a _ => set_congr h.typeSets a⟩

theorem Extends.untouched_newSet (h : s.Extends s') (t : TypeSet) : s.Untouched (s'.newSet t).2 where
  name o ho := (by cases o <;> rfl : (s'.newSet t).2.name? o = s'.name? o).trans (h.name o ho)
  body o ho := (by cases o <;> rfl : (s'.newSet t).2.body? o = s'.body? o).trans (h.body o ho)
  set a ha := by
    rw [← set_congr h.typeSets a]
    rcases a with _ | _ | n
    · rfl
    · rfl
    · exact set_newSet_of_lt t (h.typeSets.symm ▸ ha)

/-- A member of a set that is being built from `s`: made for it, and without a body so far. -/
structure NewMember (s s' : Store) (setName : String) (e : String × ObjectId) : Prop where
  unknown : ¬s.Knows (.object e.2)
  known : s'.Knows (.object e.2)
  name : s'.name? e.2 = some (Text.qualify setName e.1)
  unresolved : s'.body? e.2 = none

theorem newMember_newObject (s : Store) (setName name : String) :
    NewMember s (s.newObject (some (Text.qualify setName name))).2 setName
      (name, .declared s.objects.size) where
  unknown := by simp [Knows]
  known := by simp [Knows, newObject]
  name := name?_newObject s _
  unresolved := by
    rw [body?_newObject]
    simp [body?]

theorem NewMember.later {s₂ : Store} {setName : String} {e : String × ObjectId}
    (h : NewMember s s₁ setName e) (hs : s₁.Extends s₂) : NewMember s s₂ setName e where
  unknown := h.unknown
  known := hs.knows h.known
  name := (hs.name _ h.known).trans h.name
  unresolved := (hs.body _ h.known).trans h.unresolved

theorem NewMember.earlier {s₀ : Store} {setName : String} {e : String × ObjectId}
    (h : NewMember s s' setName e) (hs : s₀.Extends s) : NewMember s₀ s' setName e :=
  { h with unknown := fun hk => h.unknown (hs.knows hk) }

end Store

namespace Building

open Store (NewMember)

/-- One new object type is made for each member. -/
theorem newMembers_eq (setName : String) (types : List (String × ObjectDecl)) (s : Store) :
    ∃ members s', newMembers setName types s = .ok members s' ∧ s.Extends s' ∧
      (s.Built → s'.Built) ∧ members.map (·.1) = types.map (·.1) ∧ (members.map (·.2)).Nodup ∧
      ∀ e ∈ members, NewMember s s' setName e := by
  induction types generalizing s with
  | nil => exact ⟨[], s, rfl, .refl s, id, rfl, .nil, by simp⟩
  | cons d types ih =>
    have hobject := Extends.newObject s (some (Text.qualify setName d.1))
    have hfirst := Store.newMember_newObject s setName d.1
    obtain ⟨members, s', hrun, hs', hbuilt, hkeys, hnodup, hnew⟩ := ih _
    refine ⟨(d.1, .declared s.objects.size) :: members, s', ?_, hobject.trans hs',
      fun hb => hbuilt (hb.object _), by simp [hkeys], ?_, ?_⟩
    · have hmake : newObject (some (Text.qualify setName d.1)) s =
          .ok (.declared s.objects.size) (s.newObject (some (Text.qualify setName d.1))).2 := rfl
      simp only [newMembers, bind, EStateM.bind, hmake, hrun]
      rfl
    · refine List.nodup_cons.2 ⟨fun hmem => ?_, hnodup⟩
      obtain ⟨e, he, heq⟩ := List.mem_map.1 hmem
      exact (hnew e he).unknown (heq ▸ hfirst.known)
    · intro e he
      rcases List.mem_cons.1 he with rfl | he
      · exact hfirst.later hs'
      · exact (hnew e he).earlier hobject

/-- The members get their bodies, and nothing that was there before them. -/
theorem Spares.resolveMembers (r : Resolver) {members : Table ObjectId}
    (hnew : ∀ name o, members.get? name = some o → ¬s.Knows (.object o))
    (types : List (String × ObjectDecl)) : (Building.resolveMembers r members types).Spares s := by
  induction types with
  | nil => exact .pure _
  | cons d types ih =>
    rw [Building.resolveMembers]
    refine (TypeExpr.spares_resolveBody fun e _ => TypeExpr.spares_resolve r e).bind fun b => ?_
    split
    · next hm => exact (Spares.resolve (hnew _ _ hm) b).bind fun _ => ih
    · exact (Spares.pure ()).bind fun _ => ih

variable {outer : Resolver} {d : TypeSetDecl} {t : SetId}

/-- Building a set that is not refused for its name goes through three states: the members are
made, they get their bodies, and the set is made of them. -/
theorem typeSet_eq (hname : Text.allBlank d.name = false) (s : Store) (outer : Resolver) :
    ∃ (members : Table ObjectId) (s₁ : Store), s.Extends s₁ ∧ (s.Built → s₁.Built) ∧
      members.keys = d.types.keys ∧ members.values.Nodup ∧
      (∀ name o, members.get? name = some o → NewMember s s₁ d.name (name, o)) ∧
      typeSet outer d s =
        match resolveMembers (outer.inside d.name members) members d.types.entries s₁ with
        | .ok _ s₂ =>
          .ok (.declared s₂.sets.size) (s₂.newSet
            { name := some d.name, version := d.version
              members := members.map fun _ o => .object o }).2
        | .error e s₂ => .error e s₂ := by
  obtain ⟨list, s₁, hrun, hs₁, hbuilt, hkeys, hnodup, hnew⟩ :=
    newMembers_eq d.name d.types.entries s
  have hdistinct : (list.map (·.1)).Nodup := hkeys ▸ d.types.nodup
  have hentries := Table.entries_ofList hdistinct
  refine ⟨Table.ofList list, s₁, hs₁, hbuilt, ?_, ?_, fun name o ho => ?_, ?_⟩
  · rw [Table.keys, hentries, hkeys]
    rfl
  · rwa [Table.values, hentries]
  · have hmem := Table.mem_of_get? ho
    rw [hentries] at hmem
    exact hnew _ hmem
  · have hcheck : checkName d.name s = .ok () s := by simp [checkName, hname, pure, EStateM.pure]
    simp only [typeSet, bind, EStateM.bind, hcheck, hrun]
    cases resolveMembers (outer.inside d.name (Table.ofList list)) (Table.ofList list)
      d.types.entries s₁ <;> rfl

theorem typeSet_of_allBlank (hname : Text.allBlank d.name = true) :
    typeSet outer d s = .error (.invalidName d.name) s := by
  simp [typeSet, checkName, hname, bind, EStateM.bind, throw, throwThe, MonadExceptOf.throw,
    EStateM.throw]

/-- However building a set ends, everything that was there is as it was. -/
theorem untouched_typeSet (outer : Resolver) (d : TypeSetDecl) (s : Store) :
    s.Untouched ((typeSet outer d).storeAfter s) := by
  cases hname : Text.allBlank d.name with
  | true =>
    rw [storeAfter, typeSet_of_allBlank hname]
    exact (Extends.refl s).untouched
  | false =>
    obtain ⟨members, s₁, hs₁, _, _, _, hnew, hrun⟩ := typeSet_eq hname s outer
    have hspares := Spares.resolveMembers (outer.inside d.name members)
      (fun name o ho => (hnew name o ho).unknown) d.types.entries s₁ hs₁
    rw [storeAfter, hrun]
    rw [storeAfter] at hspares
    cases hbodies : resolveMembers (outer.inside d.name members) members d.types.entries s₁ with
    | ok _ s₂ =>
      rw [hbodies] at hspares
      exact hspares.untouched_newSet _
    | error e s₂ =>
      rw [hbodies] at hspares
      exact hspares.untouched

/-- A set that was built has the name and version of its declaration and a member for each declared
one. -/
theorem exists_members_of_typeSet (h : typeSet outer d s = .ok t s') :
    Text.allBlank d.name = false ∧ ∃ members : Table Ty, members.keys = d.types.keys ∧
      s'.set t = { name := some d.name, version := d.version, members } := by
  cases hname : Text.allBlank d.name with
  | true =>
    rw [typeSet_of_allBlank hname] at h
    cases h
  | false =>
    obtain ⟨members, s₁, _, _, hkeys, _, _, hrun⟩ := typeSet_eq hname s outer
    rw [hrun] at h
    cases hbodies : resolveMembers (outer.inside d.name members) members d.types.entries s₁ with
    | error e s₂ =>
      rw [hbodies] at h
      cases h
    | ok _ s₂ =>
      rw [hbodies] at h
      cases h
      refine ⟨rfl, members.map fun _ o => .object o, ?_, Store.set_newSet_self s₂ _⟩
      rw [← hkeys]
      simp [Table.keys, Table.map]

end Building
end TypeLattice
