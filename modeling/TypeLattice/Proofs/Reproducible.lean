import TypeLattice.Proofs.Declared
import TypeLattice.Proofs.Persistence
import TypeLattice.Proofs.Assignability

/-!
# Loading is reproducible

A type set that is built a second time, where names mean equal types outside it, has object types of
its own, which are equal to those of the first.
-/
namespace TypeLattice

namespace Store

variable {s s₁ s' : Store} {outer outer' : Resolver} {d : TypeSetDecl} {t u : Ty} {a b : SetId}
  {members members' : Table ObjectId}

/-- The types are equal and accept each other. -/
structure Interchangeable (s : Store) (t u : Ty) : Prop where
  equals : s.equals t u = true
  equals_back : s.equals u t = true
  accepts : s.accepts t u = true
  accepts_back : s.accepts u t = true

theorem Equal.interchangeable (hs : s.WellFormed) (h : s.Equal t u) : s.Interchangeable t u where
  equals := (equals_iff hs).2 h
  equals_back := (equals_iff hs).2 (h.symm hs)
  accepts := accepts_of_equal hs h
  accepts_back := accepts_of_equal hs (h.symm hs)

theorem Declares.equal_sets (h : s.Declares (outer.inside d.name members) d members a)
    (h' : s.Declares (outer'.inside d.name members') d members' b)
    (houter : ∀ n, Option.Rel s.Equal (outer n) (outer' n)) :
    s.Equal (.typeSet a) (.typeSet b) := by
  refine Equal.of_alike (.typeSet ?_ ?_ (h.equal_members h' rfl (.refl _) houter))
  · rw [h.set, h'.set]
  · rw [h.set, h'.set]

/-- Types that names give before stay equal. -/
theorem Untouched.rel_names (h : s₁.Untouched s') (hs₁ : s₁.WellFormed)
    (hnames : ∀ n t, outer n = some t → s₁.Has t) (hnames' : ∀ n t, outer' n = some t → s₁.Has t)
    (houter : ∀ n, Option.Rel s₁.Equal (outer n) (outer' n)) (n : String) :
    Option.Rel s'.Equal (outer n) (outer' n) :=
  Option.Rel.imp (houter n) fun t ht u hu he =>
    (h.equal_iff hs₁ (hnames n t ht) (hnames' n u hu)).2 he

end Store

namespace Building

open Store

variable {s s₁ s₂ s' : Store} {outer outer' : Resolver} {d : TypeSetDecl} {t t' : SetId}

/-- A type set can be built with two resolvers that give equal types for the same names, or with
neither of them. The sets that are built one after the other are equal and accept each other, and so
do their members of each name, although no member of one is a member of the other. -/
theorem typeSet_reproducible (hs : s.Built) (hs₁ : s₁.Built) (hgrows : s.Grows s₁)
    (hd : Grounded s outer d) (hd' : Grounded s₁ outer' d)
    (houter : ∀ n, Option.Rel s₁.Equal (outer n) (outer' n)) :
    ((∃ t s', typeSet outer d s = .ok t s') ↔ ∃ t' s₂, typeSet outer' d s₁ = .ok t' s₂) ∧
    ∀ t s' t' s₂, typeSet outer d s = .ok t s' → s'.Grows s₁ →
      typeSet outer' d s₁ = .ok t' s₂ →
        s₂.Interchangeable (.typeSet t) (.typeSet t') ∧
        (∀ k ∈ d.types.keys, ∃ u v, (s₂.set t).members.get? k = some u ∧
          (s₂.set t').members.get? k = some v ∧ s₂.Interchangeable u v) ∧
        t ≠ t' ∧ ∀ e ∈ (s₂.set t).members.entries, ∀ e' ∈ (s₂.set t').members.entries,
          e.2 ≠ e'.2 := by
  have hvariants : ∀ n, Option.Rel (fun t u => t.variant = u.variant) (outer n) (outer' n) :=
    fun n => Option.Rel.mono (fun _ _ => Equal.variant_eq) (houter n)
  refine ⟨⟨?_, ?_⟩, ?_⟩
  · rintro ⟨t, s', h⟩
    obtain ⟨hbuilt, -, members, hdeclares⟩ := declares_of_typeSet hs hd h
    exact typeSet_ok_of_declares hs₁ hd' (exists_members_of_typeSet h).1 hbuilt.wellFormed.rooted
      hdeclares rfl (.refl _) hvariants
  · rintro ⟨t, s', h⟩
    obtain ⟨hbuilt, -, members, hdeclares⟩ := declares_of_typeSet hs₁ hd' h
    exact typeSet_ok_of_declares hs hd (exists_members_of_typeSet h).1 hbuilt.wellFormed.rooted
      hdeclares rfl (.refl _) fun n => Option.Rel.flip (fun _ _ _ _ => Eq.symm) (hvariants n)
  · intro t s' t' s₂ h hlater h'
    obtain ⟨hs', -, members, hmembers⟩ := declares_of_typeSet hs hd h
    obtain ⟨hs₂, hgrows₂, members', hmembers'⟩ := declares_of_typeSet hs₁ hd' h'
    have hnames := (Untouched.of_typeSet h').rel_names hs₁.wellFormed
      (fun n t ht => (hd.later hgrows).names n t ht) hd'.names houter
    have hlast := hmembers.later (hlater.trans hgrows₂)
    have hknown : s₁.Knows (.typeSet t) :=
      hlater.knows _ (knows_of_set_name (congrArg TypeSet.name hmembers.set))
    obtain ⟨hnew, hnewMembers⟩ := new_of_typeSet h'
    refine ⟨(hlast.equal_sets hmembers' hnames).interchangeable hs₂.wellFormed, ?_, ?_, ?_⟩
    · intro k hk
      obtain ⟨u, v, hu, hv, huv⟩ :=
        hlast.exists_equal_member hmembers' rfl (.refl _) hnames hk
      exact ⟨u, v, hu, hv, huv.interchangeable hs₂.wellFormed⟩
    · rintro rfl
      exact hnew hknown
    · intro e he e' he' heq
      rw [hlast.set, ← hmembers.set] at he
      have hhas : s'.Has e.2 := hs'.wellFormed.has_member (Table.get?_of_mem he)
      exact hnewMembers e' he' fun a ha => hlater.knows a (hhas a (heq ▸ ha))

/-- `Numbers` stands for a type of the given mark. -/
def numbers (mark : ℕ) : Resolver := fun n =>
  if n = "Numbers" then some (.former .array (.basic .integer) mark) else Resolver.builtins n

/-- An object type with two parts of its own type and a name from outside the set. -/
def pairs : TypeSetDecl where
  name := "Pairs"
  types :=
    { entries :=
        [("Pair",
           { attributes :=
               [("all", { type := .named "Numbers" [] }),
                ("rest", { type := .named "Optional" [.named "Pairs::Pair" []] })] })] }

theorem grounded_pairs (s : Store) (mark : ℕ) : Grounded s (numbers mark) pairs := by
  constructor
  · intro n t ht
    unfold numbers at ht
    split_ifs at ht
    · cases ht
      simp [Has, Ty.nodes]
    · exact has_of_builtins ht
  · simp [pairs, Declaration.literals, Declaration.parts, AttributeDecl.parts, List.flatMap_cons,
      -List.mem_flatMap]

theorem rel_numbers (s : Store) (m n : ℕ) (name : String) :
    Option.Rel s.Equal (numbers m name) (numbers n name) := by
  unfold numbers
  split_ifs
  · exact .some (Equal.of_alike (.former (Equal.refl s _)))
  · exact Option.Rel.refl (Equal.refl s) _

theorem pairs_reproducible : ∃ t s' t' s₂, typeSet (numbers 1) pairs {} = .ok t s' ∧
    typeSet (numbers 2) pairs s' = .ok t' s₂ ∧ numbers 1 "Numbers" ≠ numbers 2 "Numbers" ∧
    s₂.Interchangeable (.typeSet t) (.typeSet t') ∧ t ≠ t' ∧
    ∃ u v, (s₂.set t).members.get? "Pair" = some u ∧ (s₂.set t').members.get? "Pair" = some v ∧
      s₂.Interchangeable u v := by
  obtain ⟨t, s', h⟩ : ∃ t s', typeSet (numbers 1) pairs {} = .ok t s' := ⟨_, _, rfl⟩
  obtain ⟨hs', hgrows, -⟩ := declares_of_typeSet .empty (grounded_pairs {} 1) h
  obtain ⟨hiff, hsame⟩ := typeSet_reproducible .empty hs' hgrows (grounded_pairs {} 1)
    (grounded_pairs s' 2) (rel_numbers s' 1 2)
  obtain ⟨t', s₂, h'⟩ := hiff.1 ⟨t, s', h⟩
  obtain ⟨hsets, hmembers, hne, -⟩ := hsame t s' t' s₂ h (.refl s') h'
  exact ⟨t, s', t', s₂, h, h', by decide, hsets, hne, hmembers "Pair" (by decide)⟩

end Building
end TypeLattice
