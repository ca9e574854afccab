import TypeLattice.Proofs.Meaning
import TypeLattice.Proofs.Registration
import TypeLattice.Proofs.Reproducible

/-!
# Registered names

Every entry of a registry is added under a name that had no meaning before. So no name is taken from
the built-in types, and a text keeps its meaning when types or type sets are registered.
-/
namespace TypeLattice

open Runs Store

/-- Each name has the same type in `r'` as in `r`, if it has one there. -/
def Resolver.Keeps (r r' : Resolver) : Prop := ∀ n t, r n = some t → r' n = some t

variable {c c' : Catalogue} {s s' : Store} {r r' : Registry} {name : String} {t : Ty}
  {d : TypeSetDecl} {entries : List (String × Ty)}

theorem Resolver.Keeps.trans {r r' r'' : Resolver} (h : r.Keeps r') (h' : r'.Keeps r'') :
    r.Keeps r'' := fun n t ht => h' n t (h n t ht)

namespace Registry

/-- The names in a registry are neither blank nor those of built-in types, and its types are in the
store. -/
structure Proper (s : Store) (r : Registry) : Prop where
  names : ∀ k ∈ r.entries.keys, Text.allBlank k = false ∧ Resolver.builtins k = none
  known : ∀ k t, r.get? k = some t → s.Has t

theorem proper_empty (s : Store) : Proper s {} :=
  ⟨by simp [Table.keys], by simp [get?]⟩

theorem Proper.later (h : Proper s r) (hs : s.Grows s') : Proper s' r :=
  ⟨h.names, fun k t ht a ha => hs.knows a (h.known k t ht a ha)⟩

theorem mem_keys_erase {k : String} (hk : k ∈ (r.remove name).entries.keys) :
    k ∈ r.entries.keys := by
  obtain ⟨e, he, rfl⟩ := List.mem_map.1 hk
  exact List.mem_map.2 ⟨e, (List.mem_filter.1 he).1, rfl⟩

theorem Proper.remove (h : Proper s r) (name : String) : Proper s (r.remove name) := by
  refine ⟨fun k hk => h.names k (mem_keys_erase hk), fun k t ht => ?_⟩
  have hmem := (List.mem_filter.1 (Table.mem_of_get? ht)).1
  exact h.known k t (Table.get?_of_mem hmem)

/-- The names of a proper registry mean types in its store. -/
theorem Proper.has_of_resolver (h : Proper s r) {n : String} (ht : r.resolver n = some t) :
    s.Has t := by
  rcases (Option.orElse_eq_some _ _ _).1 ht with ht | ⟨_, ht⟩
  · exact h.known n t ht
  · exact has_of_builtins ht

/-- An entry is added under a name that is neither blank nor taken. -/
theorem free_of_register (h : r.register name t = .ok r') :
    r.Free name ∧ r' = ⟨r.entries.insert name t⟩ := by
  unfold register at h
  split_ifs at h with hblank htaken
  exact ⟨⟨by simpa using hblank, by simpa using htaken⟩, (Except.ok.inj h).symm⟩

theorem Free.resolver_eq_none (h : r.Free name) :
    r.get? name = none ∧ Resolver.builtins name = none := by
  obtain ⟨hbuiltin, hcontains⟩ := Bool.or_eq_false_iff.1 h.available
  exact ⟨by simpa [contains, Table.contains, get?] using hcontains, by simpa using hbuiltin⟩

theorem Proper.register (h : Proper s r) (ht : s.Has t) (hr : r.register name t = .ok r') :
    Proper s r' ∧ r.resolver.Keeps r'.resolver := by
  obtain ⟨hfree, rfl⟩ := free_of_register hr
  obtain ⟨hget, hbuiltin⟩ := hfree.resolver_eq_none
  have hlookup : ∀ k, (⟨r.entries.insert name t⟩ : Registry).get? k =
      if name = k then some t else r.get? k := fun k => Table.get?_insert _ _ _ _
  refine ⟨⟨fun k hk => ?_, fun k u hu => ?_⟩, fun n u hu => ?_⟩
  · rcases mem_keys_put.1 hk with rfl | hk
    · exact ⟨hfree.seen, hbuiltin⟩
    · exact h.names k hk
  · rw [hlookup] at hu
    split_ifs at hu
    · exact Option.some.inj hu ▸ ht
    · exact h.known k u hu
  · have hne : name ≠ n := by
      rintro rfl
      simp [resolver, hget, hbuiltin] at hu
    simpa [resolver, hlookup, hne] using hu

end Registry

namespace Registering

variable {α : Type}

/-- What there is after a call, whether it succeeds or fails. -/
def after (x : Registering α) (c : Catalogue) : Catalogue :=
  match x c with
  | .ok _ c' => c'
  | .error _ c' => c'

theorem after_add (name : String) (t : Ty) (c : Catalogue) :
    after (add name t) c = c ∨
      ∃ r, c.registry.register name t = .ok r ∧
        after (add name t) c = { c with registry := r } := by
  cases h : c.registry.register name t with
  | ok r =>
    have hadd : add name t c = .ok () { c with registry := r } := by
      refine (bind_of_ok get_eq).trans ?_
      simp only [h]
      rfl
    exact .inr ⟨r, rfl, by rw [after, hadd]⟩
  | error e =>
    have hadd : add name t c = .error e c := by
      refine (bind_of_ok get_eq).trans ?_
      simp only [h]
      rfl
    exact .inl (by rw [after, hadd])

end Registering

namespace Catalogue

open Registering

/-- A store that was built, and a proper registry of types in it. -/
structure Proper (c : Catalogue) : Prop where
  built : c.store.Built
  registry : c.registry.Proper c.store

/-- More is built and registered, and nothing is lost. -/
structure Gains (c c' : Catalogue) : Prop where
  store : c.store.Grows c'.store
  names : c.registry.resolver.Keeps c'.registry.resolver

theorem Gains.refl (c : Catalogue) : c.Gains c := ⟨.refl _, fun _ _ => id⟩

theorem Gains.trans {c'' : Catalogue} (h : c.Gains c') (h' : c'.Gains c'') : c.Gains c'' :=
  ⟨h.store.trans h'.store, h.names.trans h'.names⟩

theorem Proper.add (h : c.Proper) (ht : c.store.Has t) (name : String) :
    (after (add name t) c).Proper ∧ c.Gains (after (add name t) c) ∧
      (after (add name t) c).store = c.store := by
  rcases after_add name t c with hafter | ⟨r, hr, hafter⟩
  · rw [hafter]
    exact ⟨h, .refl c, rfl⟩
  · rw [hafter]
    obtain ⟨hproper, hkeeps⟩ := h.registry.register ht hr
    exact ⟨⟨h.built, hproper⟩, ⟨.refl _, hkeeps⟩, rfl⟩

/-- What one addition keeps, any number of them keep, even if they end with a failure. -/
theorem Proper.addAll (h : c.Proper) (ht : ∀ e ∈ entries, c.store.Has e.2) :
    (after (addAll entries) c).Proper ∧ c.Gains (after (addAll entries) c) := by
  induction entries generalizing c with
  | nil => exact ⟨h, .refl c⟩
  | cons e entries ih =>
    obtain ⟨hproper, hgains, hstore⟩ := h.add (ht e List.mem_cons_self) e.1
    have hafter : after (Registering.addAll (e :: entries)) c = after (Registering.add e.1 e.2) c ∨
        after (Registering.addAll (e :: entries)) c =
          after (Registering.addAll entries) (after (Registering.add e.1 e.2) c) := by
      simp only [after, Registering.addAll]
      cases hadd : Registering.add e.1 e.2 c with
      | ok _ c₁ => exact .inr (by rw [bind_of_ok hadd])
      | error _ c₁ => exact .inl (by rw [bind_of_error hadd])
    rcases hafter with hafter | hafter
    · rw [hafter]
      exact ⟨hproper, hgains⟩
    · rw [hafter]
      obtain ⟨hproper', hgains'⟩ := ih hproper fun f hf => hstore ▸ ht f (List.mem_cons_of_mem _ hf)
      exact ⟨hproper', hgains.trans hgains'⟩

end Catalogue

namespace Registering

/-- After a type set was to be registered there is what was built for it, and besides perhaps what
was added. -/
theorem after_typeSet (d : TypeSetDecl) (c : Catalogue) :
    let s := (Building.typeSet c.registry.resolver d).storeAfter c.store
    after (typeSet d) c = { c with store := s } ∨
      ∃ t, Building.typeSet c.registry.resolver d c.store = .ok t s ∧
        after (typeSet d) c =
          after (addAll (Registry.setEntries d.name t (s.set t).members.entries))
            { c with store := s } := by
  dsimp only
  rw [Building.storeAfter]
  cases hbuild : Building.typeSet c.registry.resolver d c.store with
  | error e s => exact .inl (by rw [after, typeSet_of_error hbuild])
  | ok t s =>
    have hrun := typeSet_of_ok hbuild
    cases htaken : (Registry.setNames d.name (s.set t).members.entries).find?
      c.registry.isTaken with
    | some name =>
      rw [htaken] at hrun
      exact .inl (by rw [after, hrun])
    | none =>
      rw [htaken] at hrun
      refine .inr ⟨t, rfl, ?_⟩
      rw [after, hrun, after]
      dsimp only
      cases hadd : addAll (Registry.setEntries d.name t (s.set t).members.entries)
          { c with store := s } with
      | ok _ c₁ =>
        rw [bind_of_ok hadd]
        rfl
      | error _ c₁ => rw [bind_of_error hadd]

end Registering

namespace Catalogue

open Registering

/-- Registering a type or a type set, with success or without. The type and the literal values in
the declarations of the type set refer to what is there. -/
inductive Insertion : Catalogue → Catalogue → Prop
  | register {c : Catalogue} (name : String) {t : Ty} (known : c.store.Has t) :
      Insertion c (after (add name t) c)
  | typeSet {c : Catalogue} {d : TypeSetDecl}
      (literals : ∀ e ∈ d.types.entries, ∀ v, (TypeExpr.object e.2).HasLiteral v →
        c.store.HasValue v) : Insertion c (after (typeSet d) c)

/-- A type set that was built and its members are in the store. -/
theorem has_setEntries {outer : Resolver} {a : SetId} (hs' : s'.Built)
    (h : Building.typeSet outer d s = .ok a s') :
    ∀ e ∈ Registry.setEntries d.name a (s'.set a).members.entries, s'.Has e.2 := by
  obtain ⟨-, members, -, hset⟩ := Building.exists_members_of_typeSet h
  refine List.forall_mem_cons.2 ⟨?_, fun e he => ?_⟩
  · exact has_typeSet.2 (knows_of_set_name (congrArg TypeSet.name hset))
  · obtain ⟨m, hm, rfl⟩ := List.mem_map.1 he
    have hmember : s'.Has m.2 := hs'.wellFormed.has_member (Table.get?_of_mem hm)
    exact hmember

theorem Proper.insertion (hc : c.Proper) (h : c.Insertion c') : c'.Proper ∧ c.Gains c' := by
  cases h with
  | register name known =>
    obtain ⟨hproper, hgains, -⟩ := hc.add known name
    exact ⟨hproper, hgains⟩
  | @typeSet d literals =>
    have hgrounded : Building.Grounded c.store c.registry.resolver d :=
      ⟨fun _ _ => hc.registry.has_of_resolver, literals⟩
    obtain ⟨hbuilt, hgrows⟩ := Building.grows_after_typeSet hc.built hgrounded
    have hproper : Proper { c with store := _ } := ⟨hbuilt, hc.registry.later hgrows⟩
    have hgains : c.Gains { c with store := _ } := ⟨hgrows, fun _ _ => id⟩
    rcases after_typeSet d c with hafter | ⟨t, hbuild, hafter⟩
    · rw [hafter]
      exact ⟨hproper, hgains⟩
    · rw [hafter]
      obtain ⟨hproper', hgains'⟩ := hproper.addAll (has_setEntries hbuilt hbuild)
      exact ⟨hproper', hgains.trans hgains'⟩

/-- What an empty registry can become: registering, removing and clearing, with other building in
between. -/
inductive Reached : Catalogue → Prop
  | empty {s : Store} (built : s.Built) : Reached ⟨s, {}⟩
  | build {c : Catalogue} {s : Store} (prior : Reached c) (grows : c.store.Grows s)
      (built : s.Built) : Reached { c with store := s }
  | insert {c c' : Catalogue} (prior : Reached c) (insertion : c.Insertion c') : Reached c'
  | remove {c : Catalogue} (prior : Reached c) (name : String) :
      Reached { c with registry := c.registry.remove name }
  | clear {c : Catalogue} (prior : Reached c) : Reached { c with registry := {} }

theorem Reached.proper (h : c.Reached) : c.Proper := by
  induction h with
  | empty built => exact ⟨built, Registry.proper_empty _⟩
  | build _ grows built ih => exact ⟨built, ih.registry.later grows⟩
  | insert _ insertion ih => exact (ih.insertion insertion).1
  | remove _ name ih => exact ⟨ih.built, ih.registry.remove name⟩
  | clear _ ih => exact ⟨ih.built, Registry.proper_empty _⟩

/-- In a registry that was reached from the empty one, no name is blank or that of a built-in type.
A text that can be read there can be read after each further registration, and as an equal type,
whatever is built in between. -/
theorem registered_names_shadow_nothing (h : c.Reached) :
    (∀ k ∈ c.registry.entries.keys, Text.allBlank k = false ∧ Resolver.builtins k = none) ∧
    ∀ text t s, TypeExpr.read c.registry.resolver text c.store = .ok t s →
      ∀ s₁, s₁.Built → s.Grows s₁ → ∀ c', Insertion { c with store := s₁ } c' →
        ∃ t' s', TypeExpr.read c'.registry.resolver text c'.store = .ok t' s' ∧
          s'.equals t t' = true := by
  have hc := h.proper
  refine ⟨hc.registry.names, fun text t s hread s₁ hs₁ hgrows c' hinsertion => ?_⟩
  have hnames : ∀ n t, c.registry.resolver n = some t → c.store.Has t :=
    fun _ _ => hc.registry.has_of_resolver
  obtain ⟨-, -, hext, -, -⟩ := TypeExpr.found_of_read hc.built hnames hread
  have hproper : Proper { c with store := s₁ } :=
    ⟨hs₁, hc.registry.later (hext.grows.trans hgrows)⟩
  obtain ⟨hproper', hgains⟩ := hproper.insertion hinsertion
  exact TypeExpr.read_again hc.built hnames hread hproper'.built (hgrows.trans hgains.store)
    (fun _ _ => hproper'.registry.has_of_resolver) hgains.names

/-- A registry in which `Numbers` stands for the arrays of integers. -/
def numbered : Catalogue := after (add "Numbers" (.former .array (.basic .integer) 1)) {}

theorem reached_numbered : numbered.Reached :=
  .insert (.empty .empty) (.register "Numbers" (by simp [Has, Ty.nodes]))

/-- An object type with parts of a registered and of a built-in type. -/
def numbersText : String :=
  "Object[\x7battributes => \x7b'all' => Numbers, 'one' => Optional[Integer]\x7d\x7d]"

theorem parse_numbersText : TypeExpr.parse numbersText = .ok (.object
    { attributes :=
        [("all", { type := .named "Numbers" [] }),
          ("one", { type := .named "Optional" [.named "Integer" []] })] }) := by
  unfold numbersText
  cbv

/-- A type set is registered after the text was read, with a member of its own. -/
theorem numbered_shadows_nothing :
    (∀ k ∈ numbered.registry.entries.keys, Text.allBlank k = false ∧ Resolver.builtins k = none) ∧
    ∃ t s c', TypeExpr.read numbered.registry.resolver numbersText numbered.store = .ok t s ∧
      after (typeSet Building.pairs) { numbered with store := s } = c' ∧
      c'.registry.contains "Pairs::Pair" = true ∧
      ∃ t' s', TypeExpr.read c'.registry.resolver numbersText c'.store = .ok t' s' ∧
        s'.equals t t' = true := by
  obtain ⟨hnames, hkept⟩ := registered_names_shadow_nothing reached_numbered
  obtain ⟨t, s, hread, hcontains⟩ : ∃ t s,
      TypeExpr.read numbered.registry.resolver numbersText numbered.store = .ok t s ∧
        (after (typeSet Building.pairs) { numbered with store := s }).registry.contains
          "Pairs::Pair" = true := by
    unfold TypeExpr.read
    rw [parse_numbersText]
    exact ⟨_, _, rfl, rfl⟩
  have hproper := reached_numbered.proper
  obtain ⟨-, -, -, hs, -⟩ := TypeExpr.found_of_read hproper.built
    (fun _ _ => hproper.registry.has_of_resolver) hread
  exact ⟨hnames, t, s, _, hread, rfl, hcontains, hkept _ t s hread s hs (.refl s) _
    (.typeSet (Building.grounded_pairs s 0).literals)⟩

end Catalogue
end TypeLattice
