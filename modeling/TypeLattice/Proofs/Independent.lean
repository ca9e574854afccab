import TypeLattice.Proofs.Names

/-!
# Independent registrations

Two type sets that can each be registered, under names of which none is common, can be registered in
either order. Registering one of them only gives names to what had none, while all names in the
declarations of the other have meanings already. So the other is built with the same meanings as
before, and both orders give equal types.
-/
namespace TypeLattice

open Runs Store

variable {s s' : Store} {r r' outer outer' wide : Resolver} {d d' : TypeSetDecl} {t t' : SetId}
  {c c' : Catalogue} {members members' : Table ObjectId}

theorem Resolver.Keeps.inside (h : outer.Keeps outer') (setName : String)
    (members : Table ObjectId) :
    (outer.inside setName members).Keeps (outer'.inside setName members) := by
  intro n u hu
  rw [inside_eq] at hu ⊢
  cases hm : (memberName? setName n).bind members.get? with
  | none =>
    rw [hm] at hu
    exact h n u hu
  | some o => rwa [hm] at hu

namespace Store

theorem Realizes.of_names {e : ObjectDecl} {o : ObjectId} {b : Body ObjectId}
    (h : s.Realizes r e o b) (hr : r.Keeps r') : s.Realizes r' e o b where
  body := h.body
  stands := h.stands.mono fun _ _ _ hu => hu.of_names hr
  literal := h.literal

/-- A set that was built has what it declares also if names are looked up where more names have
types. -/
theorem Declares.of_names (h : s.Declares r d members t) (hr : r.Keeps r') :
    s.Declares r' d members t where
  set := h.set
  keys := h.keys
  name := h.name
  realized e he := by
    obtain ⟨o, b, ho, hb⟩ := h.realized e he
    exact ⟨o, b, ho, hb.of_names hr⟩

/-- Two sets of one declaration are registered as equal types under each name, if no name means
different types outside of them. -/
theorem Declares.exists_equal (h : s.Declares (outer.inside d.name members) d members t)
    (h' : s.Declares (outer'.inside d.name members') d members' t') (hw : outer.Keeps wide)
    (hw' : outer'.Keeps wide) :
    ∀ e ∈ Registry.setEntries d.name t (s.set t).members.entries,
      ∃ u, (e.1, u) ∈ Registry.setEntries d.name t' (s.set t').members.entries ∧
        s.Equal e.2 u := by
  have h := h.of_names (hw.inside d.name members)
  have h' := h'.of_names (hw'.inside d.name members')
  have hsame : ∀ n, Option.Rel s.Equal (wide n) (wide n) := fun n =>
    Option.Rel.refl (Equal.refl s) (wide n)
  intro e he
  rcases List.mem_cons.1 he with rfl | he
  · exact ⟨_, List.mem_cons_self, h.equal_sets h' hsame⟩
  · obtain ⟨m, hm, rfl⟩ := List.mem_map.1 he
    have hmembers := h.equal_members h' rfl (.refl _) hsame m.1
    rw [Table.get?_of_mem hm] at hmembers
    obtain ⟨u, hu, hequal⟩ := Option.Rel.exists_right hmembers
    have hmem : (Text.qualify d.name m.1, u) ∈
        (s.set t').members.entries.map fun e => (Text.qualify d.name e.1, e.2) :=
      List.mem_map.2 ⟨(m.1, u), Table.mem_of_get? hu, rfl⟩
    exact ⟨u, List.mem_cons_of_mem _ hmem, hequal⟩

end Store

/-- A set that was built can be built again where each name that meant a type means the same. -/
theorem Building.typeSet_ok_of_keeps {s₁ : Store} (hs : s.Built) (hd : Grounded s outer d)
    (h : typeSet outer d s = .ok t s') (hs₁ : s₁.Built) (hd₁ : Grounded s₁ outer' d)
    (hkeeps : outer.Keeps outer') : ∃ t₁ s₂, typeSet outer' d s₁ = .ok t₁ s₂ := by
  obtain ⟨hbuilt, -, members, hdeclares⟩ := declares_of_typeSet hs hd h
  refine typeSet_ok_of_declares hs₁ hd₁ (exists_members_of_typeSet h).1 hbuilt.wellFormed.rooted
    (hdeclares.of_names (hkeeps.inside d.name members)) rfl (.refl _) fun n => ?_
  exact Option.Rel.refl (fun t => Eq.refl t.variant) (outer' n)

namespace TypeSetDecl

/-- The names that a type set is registered under: its own, and the qualified ones of its
members. -/
def registeredNames (d : TypeSetDecl) : List String :=
  d.name :: d.types.keys.map (Text.qualify d.name)

/-- The literal values in the declarations refer to what is in the store. -/
def LiteralsIn (d : TypeSetDecl) (s : Store) : Prop :=
  ∀ e ∈ d.types.entries, ∀ v, (TypeExpr.object e.2).HasLiteral v → s.HasValue v

theorem LiteralsIn.later (h : d.LiteralsIn s) (hs : s.Grows s') : d.LiteralsIn s' :=
  fun e he v hv =>
    ⟨fun a ha => hs.knows a ((h e he v hv).knows a ha), (h e he v hv).distinct⟩

end TypeSetDecl

namespace Registry

variable {R R' : Registry} {entries : List (String × Ty)} {n : String}

theorem contains_iff : R.contains n = true ↔ n ∈ R.entries.keys := by
  rw [Table.mem_keys_iff, contains, Table.contains, Option.isSome_iff_exists]

theorem isTaken_of_append (h : R'.entries.entries = R.entries.entries ++ entries)
    (hn : R.isTaken n = false) (hentries : n ∉ entries.map (·.1)) : R'.isTaken n = false := by
  obtain ⟨hbuiltin, hcontains⟩ := Bool.or_eq_false_iff.1 hn
  refine Bool.or_eq_false_iff.2 ⟨hbuiltin, ?_⟩
  rw [Bool.eq_false_iff] at hcontains ⊢
  rw [Ne, contains_iff] at hcontains ⊢
  rw [Table.keys, h, List.map_append, List.mem_append]
  exact fun hmem => hmem.elim hcontains hentries

/-- Registries with the same names list them in the same order. -/
theorem names_eq_of_perm (h : R.entries.keys.Perm R'.entries.keys) : R.names = R'.names := by
  have hsorted : ∀ ks : List String, (ks.mergeSort (· ≤ ·)).Pairwise (· ≤ ·) :=
    List.pairwise_mergeSort' _
  have hperm := (List.mergeSort_perm R.entries.keys (· ≤ ·)).trans
    (h.trans (List.mergeSort_perm R'.entries.keys (· ≤ ·)).symm)
  exact hperm.eq_of_pairwise' (hsorted _) (hsorted _)

theorem keys_setEntries {ms : Table Ty} (hkeys : ms.keys = d.types.keys) (t : SetId) :
    (setEntries d.name t ms.entries).map (·.1) = d.registeredNames := by
  rw [TypeSetDecl.registeredNames, ← hkeys]
  simp [setEntries, Table.keys]

end Registry

namespace Catalogue

/-- The set was built and registered, all under names that were free. -/
structure Installed (c c' : Catalogue) (d : TypeSetDecl) (t : SetId) : Prop where
  proper : c'.Proper
  gains : c.Gains c'
  declares : ∃ members,
    c'.store.Declares (c.registry.resolver.inside d.name members) d members t
  entries : c'.registry.entries.entries = c.registry.entries.entries ++
    Registry.setEntries d.name t (c'.store.set t).members.entries
  keys : (c'.store.set t).members.keys = d.types.keys
  free : ∀ n ∈ d.registeredNames, c.registry.isTaken n = false

theorem Proper.grounded (hc : c.Proper) (hd : d.LiteralsIn c.store) :
    Building.Grounded c.store c.registry.resolver d :=
  ⟨fun _ _ => hc.registry.has_of_resolver, hd⟩

theorem mem_setNames {ms : Table Ty} (hkeys : ms.keys = d.types.keys) {n : String} :
    n ∈ Registry.setNames d.name ms.entries ↔ n ∈ d.registeredNames := by
  rw [TypeSetDecl.registeredNames, ← hkeys]
  simp [Registry.setNames, Table.keys, or_comm]

theorem installed_of_typeSet (hc : c.Proper) (hd : d.LiteralsIn c.store)
    (h : Registering.typeSet d c = .ok t c') : c.Installed c' d t := by
  obtain ⟨hproper, hgains⟩ := hc.insertion (.typeSet hd)
  have hafter : Registering.after (Registering.typeSet d) c = c' := by rw [Registering.after, h]
  rw [hafter] at hproper hgains
  obtain ⟨e, s, hbuild, hrun⟩ | ⟨t, s, name, hbuild, hrun⟩ | ⟨t, s, R, hbuild, hrun, hentries⟩ :=
    Registering.typeSet_cases c d
  · cases h.symm.trans hrun
  · cases h.symm.trans hrun
  cases h.symm.trans hrun
  obtain ⟨-, -, members, hdeclares⟩ := Building.declares_of_typeSet hc.built (hc.grounded hd) hbuild
  obtain ⟨-, ms, hkeys, hset⟩ := Building.exists_members_of_typeSet hbuild
  have hms : (s.set t).members.keys = d.types.keys := by rw [hset, hkeys]
  refine ⟨hproper, hgains, ⟨members, hdeclares⟩, hentries, hms, fun n hn => ?_⟩
  rw [Registering.typeSet_of_ok hbuild] at h
  cases htaken : (Registry.setNames d.name (s.set t).members.entries).find?
      c.registry.isTaken with
  | some taken =>
    rw [htaken] at h
    cases h
  | none =>
    have hall := List.find?_eq_none.1 htaken
    simpa using hall n ((mem_setNames hms).2 hn)

/-- What was accepted once is accepted wherever names keep their meanings and its own are free. -/
theorem exists_installed {c₁ : Catalogue} (hc : c.Proper) (hd : d.LiteralsIn c.store)
    (h : Registering.typeSet d c = .ok t c') (hc₁ : c₁.Proper) (hgains : c.Gains c₁)
    (hfree : ∀ n ∈ d.registeredNames, c₁.registry.isTaken n = false) :
    ∃ t₁ c₂, Registering.typeSet d c₁ = .ok t₁ c₂ ∧ c₁.Installed c₂ d t₁ := by
  obtain ⟨e, s, hbuild, hrun⟩ | ⟨t, s, name, hbuild, hrun⟩ | ⟨t, s, R, hbuild, hrun, hentries⟩ :=
    Registering.typeSet_cases c d
  · cases h.symm.trans hrun
  · cases h.symm.trans hrun
  have hd₁ : d.LiteralsIn c₁.store := hd.later hgains.store
  obtain ⟨t₁, s₁, hbuild₁⟩ := Building.typeSet_ok_of_keeps hc.built (hc.grounded hd) hbuild
    hc₁.built (hc₁.grounded hd₁) hgains.names
  obtain ⟨hname, ms, hkeys, hset⟩ := Building.exists_members_of_typeSet hbuild₁
  have hms : (s₁.set t₁).members.keys = d.types.keys := by rw [hset, hkeys]
  have htaken : (Registry.setNames d.name (s₁.set t₁).members.entries).find?
      c₁.registry.isTaken = none := by
    refine List.find?_eq_none.2 fun n hn => ?_
    rw [hfree n ((mem_setNames hms).1 hn)]
    simp
  obtain ⟨R₁, hadd, -⟩ := Registering.addAll_eq (c := { c₁ with store := s₁ })
    (Registry.free_setEntries hname htaken t₁)
    (Registry.nodup_setEntries d.name t₁ (s₁.set t₁).members)
  have hok := Registering.typeSet_of_ok hbuild₁
  rw [htaken] at hok
  have hrun₁ := hok.trans (bind_of_ok hadd)
  exact ⟨t₁, _, hrun₁, installed_of_typeSet hc₁ hd₁ hrun₁⟩

/-- Registering one set takes no names that are not its own. -/
theorem Installed.isTaken {n : String} (h : c.Installed c' d t) (hn : c.registry.isTaken n = false)
    (hd : n ∉ d.registeredNames) : c'.registry.isTaken n = false := by
  refine Registry.isTaken_of_append h.entries hn ?_
  rwa [Registry.keys_setEntries h.keys]

/-- Two sets of one declaration that were registered somewhere are, later, equal types under each
name, if no name meant different types. -/
theorem Installed.exists_equal {e e' : Catalogue} (h : c.Installed c' d t)
    (h' : e.Installed e' d t') (hs : c'.store.Grows s) (hs' : e'.store.Grows s)
    (hw : c.registry.resolver.Keeps wide) (hw' : e.registry.resolver.Keeps wide) :
    ∀ x ∈ Registry.setEntries d.name t (c'.store.set t).members.entries,
      ∃ u, (x.1, u) ∈ Registry.setEntries d.name t' (e'.store.set t').members.entries ∧
        s.Equal x.2 u := by
  obtain ⟨members, hdeclares⟩ := h.declares
  obtain ⟨members', hdeclares'⟩ := h'.declares
  rw [← hs.set t (knows_of_set_name (congrArg TypeSet.name hdeclares.set)),
    ← hs'.set t' (knows_of_set_name (congrArg TypeSet.name hdeclares'.set))]
  exact (hdeclares.later hs).exists_equal (hdeclares'.later hs') hw hw'

end Catalogue

namespace Registering

open Catalogue

/-- Registers one type set and then another. -/
def inTurn (d d' : TypeSetDecl) : Registering Unit := do
  let _ ← typeSet d
  let _ ← typeSet d'

/-- Both sets were registered, one after the other. -/
structure InstalledInTurn (c c₁ c₂ : Catalogue) (d d' : TypeSetDecl) (t t' : SetId) : Prop where
  first : c.Installed c₁ d t
  second : c₁.Installed c₂ d' t'

theorem exists_inTurn {c₁ c₁' e : Catalogue} (hc : c.Proper) (hd : d.LiteralsIn c.store)
    (hd' : d'.LiteralsIn c.store) (h : typeSet d c = .ok t c₁) (h' : typeSet d' c = .ok t' c₁')
    (hdisjoint : d.registeredNames.Disjoint d'.registeredNames) (he : e.Proper)
    (hgains : c.Gains e) (hregistry : e.registry = c.registry) :
    ∃ t₁ e₁ t₂ e₂, inTurn d d' e = .ok () e₂ ∧ InstalledInTurn e e₁ e₂ d d' t₁ t₂ := by
  have hfree := (installed_of_typeSet hc hd h).free
  have hfree' := (installed_of_typeSet hc hd' h').free
  obtain ⟨t₁, e₁, hrun₁, hfirst⟩ := exists_installed hc hd h he hgains fun n hn => by
    rw [hregistry]
    exact hfree n hn
  obtain ⟨t₂, e₂, hrun₂, hsecond⟩ := exists_installed hc hd' h' hfirst.proper
    (hgains.trans hfirst.gains) fun n hn => by
      refine hfirst.isTaken ?_ fun hmem => hdisjoint hmem hn
      rw [hregistry]
      exact hfree' n hn
  exact ⟨t₁, e₁, t₂, e₂, (bind_of_ok hrun₁).trans (bind_of_ok hrun₂), hfirst, hsecond⟩

theorem InstalledInTurn.keys {c₁ c₂ : Catalogue} (h : InstalledInTurn c c₁ c₂ d d' t t') :
    c₂.registry.entries.keys =
      c.registry.entries.keys ++ (d.registeredNames ++ d'.registeredNames) := by
  rw [Table.keys, h.second.entries, List.map_append, h.first.entries, List.map_append,
    Registry.keys_setEntries h.first.keys, Registry.keys_setEntries h.second.keys,
    List.append_assoc]
  rfl

/-- Both orders give equal types under each name. -/
theorem InstalledInTurn.exists_equal {c₁ c₂ e e₁ e₂ : Catalogue} {u u' : SetId}
    (h : InstalledInTurn c c₁ c₂ d d' t t') (h' : InstalledInTurn e e₁ e₂ d' d u' u)
    (hlater : c₂.store.Grows e.store) (hregistry : e.registry = c.registry) {n : String} {x : Ty}
    (hx : c₂.registry.get? n = some x) :
    ∃ y, e₂.registry.get? n = some y ∧ e₂.store.Equal x y := by
  have hsecond : c₂.store.Grows e₂.store :=
    hlater.trans (h'.first.gains.store.trans h'.second.gains.store)
  have hmem : (n, x) ∈ (c.registry.entries.entries ++
      Registry.setEntries d.name t (c₁.store.set t).members.entries) ++
      Registry.setEntries d'.name t' (c₂.store.set t').members.entries := by
    rw [← h.first.entries, ← h.second.entries]
    exact Table.mem_of_get? hx
  have hget : ∀ y, (n, y) ∈ (e.registry.entries.entries ++
      Registry.setEntries d'.name u' (e₁.store.set u').members.entries) ++
      Registry.setEntries d.name u (e₂.store.set u).members.entries →
        e₂.registry.get? n = some y := by
    intro y hy
    rw [← h'.first.entries, ← h'.second.entries] at hy
    exact Table.get?_of_mem hy
  rcases List.mem_append.1 hmem with hmem | hmem
  · rcases List.mem_append.1 hmem with hmem | hmem
    · refine ⟨x, hget x ?_, Equal.refl _ x⟩
      rw [hregistry]
      exact List.mem_append_left _ (List.mem_append_left _ hmem)
    · obtain ⟨y, hy, hequal⟩ := h.first.exists_equal h'.second
        (h.second.gains.store.trans hsecond) (.refl _) (hregistry ▸ h'.first.gains.names)
        (fun _ _ => id) _ hmem
      exact ⟨y, hget y (List.mem_append_right _ hy), hequal⟩
  · obtain ⟨y, hy, hequal⟩ := h.second.exists_equal h'.first hsecond h'.second.gains.store
      (fun _ _ => id) (hregistry ▸ h.first.gains.names) _ hmem
    exact ⟨y, hget y (List.mem_append_left _ (List.mem_append_right _ hy)), hequal⟩

/-- Two sets that can each be registered, under names of which none is common, can be registered in
either order. Wherever the second order comes after the first, from the same registry, it gives the
same names and equal types under each of them. -/
theorem typeSets_commute (hc : c.Reached) (hd : d.LiteralsIn c.store) (hd' : d'.LiteralsIn c.store)
    (haccept : ∃ t c₁, typeSet d c = .ok t c₁) (haccept' : ∃ t c₁, typeSet d' c = .ok t c₁)
    (hdisjoint : d.registeredNames.Disjoint d'.registeredNames) :
    (∃ c₂, inTurn d d' c = .ok () c₂) ∧ (∃ e₂, inTurn d' d c = .ok () e₂) ∧
    ∀ c₂, inTurn d d' c = .ok () c₂ → ∀ s, s.Built → c₂.store.Grows s →
      ∃ e₂, inTurn d' d { c with store := s } = .ok () e₂ ∧
        c₂.registry.names = e₂.registry.names ∧
        ∀ n x, c₂.registry.get? n = some x →
          ∃ y, e₂.registry.get? n = some y ∧ e₂.store.equals x y = true := by
  have hproper := hc.proper
  obtain ⟨t, c₁, h⟩ := haccept
  obtain ⟨t', c₁', h'⟩ := haccept'
  obtain ⟨_, _, _, c₂, hrun, hinstalled⟩ :=
    exists_inTurn hproper hd hd' h h' hdisjoint hproper (.refl c) rfl
  obtain ⟨_, _, _, e₂, hrun', _⟩ :=
    exists_inTurn hproper hd' hd h' h hdisjoint.symm hproper (.refl c) rfl
  refine ⟨⟨c₂, hrun⟩, ⟨e₂, hrun'⟩, fun c₂' hc₂ s hs hgrows => ?_⟩
  obtain rfl : c₂' = c₂ := by
    cases hrun.symm.trans hc₂
    rfl
  have hlater : c.store.Grows s :=
    (hinstalled.first.gains.trans hinstalled.second.gains).store.trans hgrows
  have he : Catalogue.Proper { c with store := s } := ⟨hs, hproper.registry.later hlater⟩
  obtain ⟨_, _, _, e₂, hrun', hinstalled'⟩ := exists_inTurn (e := { c with store := s }) hproper
    hd' hd h' h hdisjoint.symm he ⟨hlater, fun _ _ => id⟩ rfl
  refine ⟨e₂, hrun', Registry.names_eq_of_perm ?_, fun n x hx => ?_⟩
  · rw [hinstalled.keys, hinstalled'.keys]
    exact List.perm_append_comm.append_left _
  · obtain ⟨y, hy, hequal⟩ := hinstalled.exists_equal hinstalled' hgrows rfl hx
    exact ⟨y, hy, (equals_iff hinstalled'.second.proper.built.wellFormed).2 hequal⟩

/-- A set with a member of the same simple name as the one of `pairs`. -/
def chains : TypeSetDecl where
  name := "Chains"
  types :=
    { entries :=
        [("Pair",
           { attributes :=
               [("first", { type := .named "Numbers" [] }),
                ("next", { type := .named "Optional" [.named "Pair" []] })] })] }

theorem literalsIn_chains (s : Store) : chains.LiteralsIn s := by
  simp [TypeSetDecl.LiteralsIn, chains, Declaration.literals, Declaration.parts,
    AttributeDecl.parts, List.flatMap_cons, -List.mem_flatMap]

theorem pairs_chains_commute : ∃ c₂ e₂, inTurn Building.pairs chains numbered = .ok () c₂ ∧
    inTurn chains Building.pairs { numbered with store := c₂.store } = .ok () e₂ ∧
    c₂.registry.names = e₂.registry.names ∧
    ∃ x y, c₂.registry.get? "Chains::Pair" = some x ∧ e₂.registry.get? "Chains::Pair" = some y ∧
      e₂.store.equals x y = true := by
  have hpairs : Building.pairs.LiteralsIn numbered.store := (Building.grounded_pairs _ 0).literals
  have hdisjoint : Building.pairs.registeredNames.Disjoint chains.registeredNames :=
    List.disjoint_left.2 (by decide)
  obtain ⟨⟨c₂, hrun⟩, -, hequal⟩ := typeSets_commute reached_numbered hpairs (literalsIn_chains _)
    ⟨_, _, rfl⟩ ⟨_, _, rfl⟩ hdisjoint
  obtain ⟨_, _, _, _, hrun', hinstalled⟩ := exists_inTurn reached_numbered.proper hpairs
    (literalsIn_chains _) rfl rfl hdisjoint reached_numbered.proper (.refl _) rfl
  cases hrun.symm.trans hrun'
  obtain ⟨e₂, hrun₂, hnames, htypes⟩ := hequal c₂ hrun c₂.store hinstalled.second.proper.built
    (.refl _)
  have hmem : "Chains::Pair" ∈ c₂.registry.entries.keys := by
    rw [hinstalled.keys]
    exact List.mem_append_right _ (by decide)
  obtain ⟨x, hx⟩ := Table.mem_keys_iff.1 hmem
  obtain ⟨y, hy, hxy⟩ := htypes "Chains::Pair" x hx
  exact ⟨c₂, e₂, hrun, hrun₂, hnames, x, y, hx, hy, hxy⟩

end Registering

end TypeLattice
