import TypeLattice.Proofs.Built
import TypeLattice.Proofs.Runs

/-!
# Building on

Building in a store leaves what is there as it is: making a node adds one, and a body is given to a
new object type. Computations that build are described by how they end in each store that is built
on from a given one.
-/
namespace TypeLattice

open Runs

namespace Store

variable {s s' s'' : Store} {o p q : ObjectId} {a : Node} {t : Ty}

/-- All that is in the store stays as it is. -/
structure Extends (s s' : Store) : Prop where
  objects : s.objects.size ≤ s'.objects.size
  typeSets : s'.sets = s.sets
  name : ∀ o, s.Knows (.object o) → s'.name? o = s.name? o
  body : ∀ o, s.Knows (.object o) → s'.body? o = s.body? o

namespace Extends

theorem refl (s : Store) : s.Extends s :=
  ⟨le_rfl, rfl, fun _ _ => rfl, fun _ _ => rfl⟩

theorem knows (h : s.Extends s') (ha : s.Knows a) : s'.Knows a :=
  ha.mono h.objects (congrArg _ h.typeSets).ge

theorem has (h : s.Extends s') (ht : s.Has t) : s'.Has t := fun a ha => h.knows (ht a ha)

theorem trans (h : s.Extends s') (h' : s'.Extends s'') : s.Extends s'' where
  objects := h.objects.trans h'.objects
  typeSets := h'.typeSets.trans h.typeSets
  name o ho := (h'.name o (h.knows ho)).trans (h.name o ho)
  body o ho := (h'.body o (h.knows ho)).trans (h.body o ho)

theorem parent? (h : s.Extends s') (ho : s.Knows (.object o)) : s'.parent? o = s.parent? o :=
  parent?_congr (h.body o ho)

theorem ownAttributes (h : s.Extends s') (ho : s.Knows (.object o)) :
    s'.ownAttributes o = s.ownAttributes o := ownAttributes_congr (h.body o ho)

theorem mark (s : Store) : s.Extends s.freshMark.2 where
  objects := le_rfl
  typeSets := rfl
  name o _ := by cases o <;> rfl
  body o _ := by cases o <;> rfl

theorem newObject (s : Store) (name : Option String) : s.Extends (s.newObject name).2 where
  objects := by simp [Store.newObject]
  typeSets := rfl
  name o ho := by
    rcases o with _ | v | n
    · rfl
    · rfl
    · have hn : n < s.objects.size := ho
      simp [Store.newObject, name?, Array.getElem?_push, hn.ne]
  body o _ := body?_newObject s name o

end Extends

theorem name?_setBody (s : Store) (o q : ObjectId) (c : Body ObjectId) :
    (s.setBody o c).name? q = s.name? q := by
  cases o with
  | default | describing => rfl
  | declared n =>
    cases q with
    | default | describing => rfl
    | declared m =>
      simp only [setBody, name?, Array.getElem?_modify]
      split <;> cases s.objects[m]? <;> rfl

theorem name?_newObject (s : Store) (name : Option String) :
    (s.newObject name).2.name? (.declared s.objects.size) = name := by
  simp [newObject, name?]

/-- The object types that a known one inherits from are known. -/
theorem WellFormed.knows_line (hs : s.WellFormed) (hp : s.Knows (.object p)) (hq : q ∈ s.line p) :
    s.Knows (.object q) := by
  have hline := hs.rooted.line p
  generalize s.line p = l at hline hq
  induction hline with
  | root => rwa [List.mem_singleton.1 hq]
  | @link o p l parent _ ih =>
    rcases List.mem_cons.1 hq with rfl | hq
    · exact hp
    · exact ih (hs.known (.object o) _ (by simp [children, parent])) hq

/-- What a new nameless object type may be resolved with. -/
structure Fresh (s : Store) (b : Body Ty) : Prop where
  parent : ∀ t, b.parent = some t → ∃ p, t = .object p
  known : ∀ a ∈ b.nodes, s.Knows a
  distinct : ∀ e ∈ b.attributes.entries, e.2.Distinct
  finite : ∀ e ∈ b.attributes.entries, ∀ v, e.2.default = some v → v.finite = true

/-- A new object type takes any body that refers to earlier nodes only. -/
theorem Built.newResolved (hb : s.Built) {b : Body Ty} (hf : s.Fresh b) (name : Option String) :
    ∃ parent s', b.parent = parent.map .object ∧ s'.Built ∧ s.Extends s' ∧
      (s.newObject name).2.resolve (.declared s.objects.size) b = .ok s' ∧
      s'.objects.size = s.objects.size + 1 ∧
      s'.name? (.declared s.objects.size) = name ∧
      s'.body? (.declared s.objects.size) = some (b.withParent parent) := by
  have hs := hb.wellFormed
  obtain ⟨parent, hparent⟩ : ∃ parent : Option ObjectId, b.parent = parent.map .object := by
    cases hp : b.parent with
    | none => exact ⟨none, rfl⟩
    | some t =>
      obtain ⟨p, rfl⟩ := hf.parent t hp
      exact ⟨some p, rfl⟩
  have hnew : ¬s.Knows (.object (.declared s.objects.size)) := by simp [Knows]
  have hcheck : (s.newObject name).2.checkParent (.declared s.objects.size) b.parent =
      .ok parent := by
    refine checkParent_eq_ok_iff.2 ⟨hparent, ?_⟩
    rintro p rfl hmem
    have hp : s.Knows (.object p) := hf.known _ (by simp [Body.nodes, hparent, Ty.nodes])
    have hline : (s.newObject name).2.line p = s.line p :=
      ((hs.rooted.line p).congr fun q _ => parent?_congr (body?_newObject s name q)).line_eq
    rw [hline] at hmem
    exact hnew (hs.knows_line hp hmem)
  have hdefault : badDefault? b.attributes = none := by
    refine List.findSome?_eq_none_iff.2 fun e he => ?_
    cases hv : e.2.default with
    | none => rfl
    | some v => simp [hf.finite e he v hv]
  have hbody : (s.newObject name).2.body? (.declared s.objects.size) = none := by
    rw [body?_newObject]
    simp [body?]
  have hresolve := resolve_eq_ok_iff.2 ⟨parent, hcheck, hdefault, hbody, rfl⟩
  have hsize : (s.newObject name).2.objects.size = s.objects.size + 1 := by simp [newObject]
  refine ⟨parent, _, hparent, ?_, ?_, hresolve, ?_, ?_, ?_⟩
  · refine (hb.object name).body (fun a ha => ?_) hf.distinct hresolve
    exact (Extends.newObject s name).knows (hf.known a ha)
  · have hobject := Extends.newObject s name
    refine ⟨by rw [size_objects_setBody, hsize]; omega, sets_setBody _ _ _, fun q hq => ?_,
      fun q hq => ?_⟩
    · rw [name?_setBody, hobject.name q hq]
    · have hne : q ≠ .declared s.objects.size := by
        rintro rfl
        exact hnew hq
      rw [body?_setBody_of_ne hne, hobject.body q hq]
  · rw [size_objects_setBody, hsize]
  · rw [name?_setBody, name?_newObject]
  · exact body?_setBody_self (by rw [hsize]; omega)

/-- In each store that is built on from here: a success builds on, with the property `Q`, and so
does a failure, which means `F`. -/
def Ends {α : Type} (s : Store) (m : Building α) (Q : Store → α → Prop) (F : Prop) : Prop :=
  ∀ s₁, s.Extends s₁ → s₁.Built →
    match m s₁ with
    | .ok a s₂ => s₁.Extends s₂ ∧ s₂.Built ∧ Q s₂ a
    | .error _ s₂ => s₁.Extends s₂ ∧ s₂.Built ∧ F

namespace Ends

variable {α β : Type} {m : Building α} {Q : Store → α → Prop} {P : Store → β → Prop} {F G : Prop}

theorem later (h : s.Ends m Q F) (hs : s.Extends s') : s'.Ends m Q F :=
  fun s₁ h₁ hb => h s₁ (hs.trans h₁) hb

protected theorem pure {a : α} (h : ∀ s₁, s.Extends s₁ → Q s₁ a) : s.Ends (pure a) Q F :=
  fun s₁ h₁ hb => ⟨.refl s₁, hb, h s₁ h₁⟩

protected theorem throw (e : TypeError) (h : F) : s.Ends (throw e : Building α) Q F :=
  fun s₁ _ hb => ⟨.refl s₁, hb, h⟩

protected theorem bind {f : α → Building β} (hm : s.Ends m Q F)
    (hf : ∀ s' a, s.Extends s' → Q s' a → s'.Ends (f a) P F) : s.Ends (m >>= f) P F := by
  intro s₁ h₁ hb
  have hms := hm s₁ h₁ hb
  cases hr : m s₁ with
  | error e s₂ =>
    rw [bind_of_error hr]
    rw [hr] at hms
    exact hms
  | ok a s₂ =>
    rw [hr] at hms
    obtain ⟨h₂, hb₂, hq⟩ := hms
    have hfs := hf s₂ a (h₁.trans h₂) hq s₂ (.refl s₂) hb₂
    rw [bind_of_ok hr]
    cases hr' : f a s₂ with
    | error e s₃ =>
      rw [hr'] at hfs
      exact ⟨h₂.trans hfs.1, hfs.2⟩
    | ok b s₃ =>
      rw [hr'] at hfs
      obtain ⟨h₃, hb₃, hp⟩ := hfs
      exact ⟨h₂.trans h₃, hb₃, hp⟩

theorem map {f : α → β} (hm : s.Ends m Q F)
    (hQ : ∀ s' a, s.Extends s' → Q s' a → P s' (f a)) (hF : F → G) :
    s.Ends (do return f (← m)) P G := by
  intro s₁ h₁ hb
  have hms := hm s₁ h₁ hb
  cases hr : m s₁ with
  | error e s₂ =>
    rw [bind_of_error hr]
    rw [hr] at hms
    exact ⟨hms.1, hms.2.1, hF hms.2.2⟩
  | ok a s₂ =>
    rw [bind_of_ok hr]
    rw [hr] at hms
    exact ⟨hms.1, hms.2.1, hQ s₂ a (h₁.trans hms.1) hms.2.2⟩

/-- A success in each store is an end that is no failure. -/
theorem of_ok
    (h : ∀ s₁, s.Extends s₁ → s₁.Built →
      ∃ a s₂, m s₁ = .ok a s₂ ∧ s₁.Extends s₂ ∧ s₂.Built ∧ Q s₂ a) : s.Ends m Q F := by
  intro s₁ h₁ hb
  obtain ⟨a, s₂, ha, hs⟩ := h s₁ h₁ hb
  rw [ha]
  exact hs

theorem exists_ok (h : s.Ends m Q False) (hb : s.Built) :
    ∃ a s', m s = .ok a s' ∧ s.Extends s' ∧ s'.Built ∧ Q s' a := by
  have hms := h s (.refl s) hb
  cases hr : m s with
  | error e s₁ =>
    rw [hr] at hms
    exact hms.2.2.elim
  | ok a s₁ =>
    rw [hr] at hms
    exact ⟨a, s₁, rfl, hms⟩

theorem imp_failure (h : s.Ends m Q F) (hF : F → G) : s.Ends m Q G := by
  intro s₁ h₁ hb
  have hms := h s₁ h₁ hb
  cases hr : m s₁ with
  | error e s₂ =>
    rw [hr] at hms
    exact ⟨hms.1, hms.2.1, hF hms.2.2⟩
  | ok a s₂ => rwa [hr] at hms

end Ends

end Store
end TypeLattice
