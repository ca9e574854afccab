import TypeLattice.Proofs.Frames
import TypeLattice.Registry

/-!
# Registering a type set

A type set and its members are registered one after the other, and each name is checked again when
its entry is added. That all names were looked at before is enough for none of these checks to fail,
since the names of one set differ from each other. So a set is registered as a whole or not at all.
-/
namespace TypeLattice

namespace Text

theorem allBlank_qualify (set member : String) : allBlank (qualify set member) = false := by
  have hcolon : isBlank ':' = false := by decide
  simp [allBlank, toList_qualify, hcolon]

end Text

namespace Registry

variable {r r' : Registry} {name other : String} {t : Ty}

/-- An entry can be added under the name. -/
structure Free (r : Registry) (name : String) : Prop where
  seen : Text.allBlank name = false
  available : r.isTaken name = false

theorem not_mem_keys_of_not_contains (h : r.contains name = false) : name ∉ r.entries.keys := by
  intro hk
  obtain ⟨t, ht⟩ := Table.mem_keys_iff.1 hk
  simp [contains, Table.contains, ht] at h

/-- An entry under a free name comes last. -/
theorem Free.register (h : r.Free name) (t : Ty) :
    ∃ r', r.register name t = .ok r' ∧ r'.entries.entries = r.entries.entries ++ [(name, t)] := by
  refine ⟨⟨r.entries.insert name t⟩, by simp [Registry.register, h.seen, h.available], ?_⟩
  have hcontains : r.contains name = false := (Bool.or_eq_false_iff.1 h.available).2
  exact put_of_not_mem (not_mem_keys_of_not_contains hcontains)

/-- Adding an entry takes no other name. -/
theorem Free.of_register (h : r.Free other) (hr : r.register name t = .ok r')
    (hne : other ≠ name) : r'.Free other := by
  unfold Registry.register at hr
  split_ifs at hr
  cases hr
  refine ⟨h.seen, ?_⟩
  have hget : (r.entries.insert name t).get? other = r.entries.get? other := by
    rw [Table.get?_insert, if_neg hne.symm]
  simpa only [isTaken, contains, Table.contains, hget] using h.available

/-- A set and its members are registered under different names. -/
theorem nodup_setEntries (setName : String) (t : SetId) (members : Table Ty) :
    ((setEntries setName t members.entries).map (·.1)).Nodup := by
  simp only [setEntries, List.map_cons, List.map_map]
  refine List.nodup_cons.2 ⟨fun hmem => ?_, ?_⟩
  · obtain ⟨e, _, he⟩ := List.mem_map.1 hmem
    exact Text.qualify_ne setName e.1 he
  · have hinjective : Function.Injective (Text.qualify setName) := fun _ _ => Text.qualify_injective
    have hnodup := members.nodup.map hinjective
    rwa [List.map_map] at hnodup

/-- When no name of a set is taken, all of them are free. -/
theorem free_setEntries {setName : String} {members : List (String × Ty)}
    (hname : Text.allBlank setName = false)
    (h : (setNames setName members).find? r.isTaken = none) (t : SetId) :
    ∀ e ∈ setEntries setName t members, r.Free e.1 := by
  have havailable : ∀ n ∈ setNames setName members, r.isTaken n = false := by
    simpa using List.find?_eq_none.1 h
  intro e he
  rcases List.mem_cons.1 he with rfl | he
  · exact ⟨hname, havailable _ (by simp [setNames])⟩
  · obtain ⟨m, hm, rfl⟩ := List.mem_map.1 he
    refine ⟨Text.allBlank_qualify setName m.1, havailable _ ?_⟩
    exact List.mem_append_left _ (List.mem_map.2 ⟨m, hm, rfl⟩)

end Registry

namespace Registering

open Runs

variable {c c' : Catalogue}

/-- Entries under different free names are all added: each addition leaves the names of the later
entries free. -/
theorem addAll_eq {entries : List (String × Ty)} (hfree : ∀ e ∈ entries, c.registry.Free e.1)
    (hnodup : (entries.map (·.1)).Nodup) :
    ∃ r, addAll entries c = .ok () { c with registry := r } ∧
      r.entries.entries = c.registry.entries.entries ++ entries := by
  induction entries generalizing c with
  | nil => exact ⟨c.registry, rfl, (List.append_nil _).symm⟩
  | cons e entries ih =>
    obtain ⟨hnot, hnodup⟩ := List.nodup_cons.1 hnodup
    obtain ⟨r, hr, hentries⟩ := (hfree e List.mem_cons_self).register e.2
    have hadd : add e.1 e.2 c = .ok () { c with registry := r } := by
      refine (bind_of_ok get_eq).trans ?_
      simp only [hr]
      rfl
    have hlater : ∀ f ∈ entries, r.Free f.1 := fun f hf =>
      (hfree f (List.mem_cons_of_mem _ hf)).of_register hr fun heq =>
        hnot (List.mem_map.2 ⟨f, hf, heq⟩)
    obtain ⟨r', hrest, hentries'⟩ := ih (c := { c with registry := r }) hlater hnodup
    refine ⟨r', ?_, by simp [hentries', hentries]⟩
    rw [addAll, bind_of_ok hadd, hrest]

theorem typeSet_of_error {d : TypeSetDecl} {e : TypeError} {s : Store}
    (hbuild : Building.typeSet c.registry.resolver d c.store = .error e s) :
    typeSet d c = .error e { c with store := s } := by
  refine (bind_of_ok get_eq).trans (bind_of_error ?_)
  simp only [building, hbuild]

/-- A set that was built is added with its members if none of their names is taken. -/
theorem typeSet_of_ok {d : TypeSetDecl} {t : SetId} {s : Store}
    (hbuild : Building.typeSet c.registry.resolver d c.store = .ok t s) :
    typeSet d c =
      match (Registry.setNames d.name (s.set t).members.entries).find? c.registry.isTaken with
      | some name => .error (.alreadyExists name) { c with store := s }
      | none => (addAll (Registry.setEntries d.name t (s.set t).members.entries) >>= fun _ =>
          pure t) { c with store := s } := by
  have hbuilding : building (Building.typeSet c.registry.resolver d) c =
      .ok t { c with store := s } := by simp only [building, hbuild]
  refine (bind_of_ok get_eq).trans ((bind_of_ok hbuilding).trans ((bind_of_ok get_eq).trans ?_))
  cases (Registry.setNames d.name (s.set t).members.entries).find? c.registry.isTaken <;> rfl

/-- What registering a set comes to: building it, a look at all names, and the additions, which do
not fail. -/
theorem typeSet_cases (c : Catalogue) (d : TypeSetDecl) :
    (∃ e s, Building.typeSet c.registry.resolver d c.store = .error e s ∧
      typeSet d c = .error e { c with store := s }) ∨
    (∃ t s name, Building.typeSet c.registry.resolver d c.store = .ok t s ∧
      typeSet d c = .error (.alreadyExists name) { c with store := s }) ∨
    ∃ t s r, Building.typeSet c.registry.resolver d c.store = .ok t s ∧
      typeSet d c = .ok t ⟨s, r⟩ ∧
      r.entries.entries = c.registry.entries.entries ++
        Registry.setEntries d.name t (s.set t).members.entries := by
  cases hbuild : Building.typeSet c.registry.resolver d c.store with
  | error e s => exact .inl ⟨e, s, rfl, typeSet_of_error hbuild⟩
  | ok t s =>
    have hrun := typeSet_of_ok hbuild
    cases htaken : (Registry.setNames d.name (s.set t).members.entries).find?
      c.registry.isTaken with
    | some name =>
      rw [htaken] at hrun
      exact .inr (.inl ⟨t, s, name, rfl, hrun⟩)
    | none =>
      have hname := (Building.exists_members_of_typeSet hbuild).1
      have hfree := Registry.free_setEntries hname htaken t
      obtain ⟨r, hadd, hentries⟩ := addAll_eq (c := { c with store := s }) hfree
        (Registry.nodup_setEntries d.name t (s.set t).members)
      rw [htaken] at hrun
      exact .inr (.inr ⟨t, s, r, rfl, hrun.trans (bind_of_ok hadd), hentries⟩)

/-- A set is registered with all its members or not at all. After an error, whatever its cause, the
registry is what it was; otherwise the set and then its members stand after the earlier entries.
Either way nothing changes in the object types and type sets that were there. -/
theorem typeSet_all_or_nothing (c : Catalogue) (d : TypeSetDecl) :
    (∀ e c', typeSet d c = .error e c' →
      c'.registry = c.registry ∧ c.store.Untouched c'.store) ∧
    ∀ t c', typeSet d c = .ok t c' →
      c.store.Untouched c'.store ∧
      ∃ members : Table Ty, members.keys = d.types.keys ∧
        c'.store.set t = { name := some d.name, version := d.version, members } ∧
        c'.registry.entries.entries = c.registry.entries.entries ++
          (d.name, .typeSet t) :: members.entries.map fun e => (Text.qualify d.name e.1, e.2) := by
  have huntouched := Building.untouched_typeSet c.registry.resolver d c.store
  rw [Building.storeAfter] at huntouched
  obtain ⟨e, s, hbuild, hrun⟩ | ⟨t, s, name, hbuild, hrun⟩ | ⟨t, s, r, hbuild, hrun, hentries⟩ :=
    typeSet_cases c d
  · rw [hbuild] at huntouched
    rw [hrun]
    refine ⟨?_, by simp⟩
    rintro _ _ ⟨⟩
    exact ⟨rfl, huntouched⟩
  · rw [hbuild] at huntouched
    rw [hrun]
    refine ⟨?_, by simp⟩
    rintro _ _ ⟨⟩
    exact ⟨rfl, huntouched⟩
  · rw [hbuild] at huntouched
    rw [hrun]
    refine ⟨by simp, ?_⟩
    rintro _ _ ⟨⟩
    obtain ⟨_, members, hkeys, hset⟩ := Building.exists_members_of_typeSet hbuild
    refine ⟨huntouched, members, hkeys, hset, ?_⟩
    rw [hentries, hset]
    rfl

end Registering
end TypeLattice
