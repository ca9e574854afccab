import TypeLattice.Proofs.Instances
import TypeLattice.Proofs.Persistence

/-!
# The reported type of a value

A value belongs to every type that accepts the type it is reported to have. The type reported for
an array is judged by its first element, so the others belong to what accepts that element because
they have equal types; where they do not, only `Any` is reported, and what accepts `Any` has every
value.
-/
namespace TypeLattice

@[simp] theorem Ty.formed_zero (f : Former) (t : Ty) : Ty.formed f t 0 = .former f t 0 := by
  simp [formed]

namespace Store

variable {s s' : Store} {t u v : Ty} {x : Value} {xs : List Value}

/-- What accepts a type accepts its equals. -/
theorem accepts_congr (hs : s.WellFormed) (he : s.Equal u v) (h : s.accepts t u = true) :
    s.accepts t v = true := by
  induction t generalizing u v with
  | basic b => exact accepts_basic_trans h (accepts_of_equal hs he)
  | former f t m ih =>
    by_cases hf : f = .optional
    · subst hf
      rcases accepts_optional_iff.1 h with rfl | ⟨w, n, rfl, hw⟩ | ⟨hp, htu⟩
      · obtain rfl := he.eq_basic
        exact h
      · obtain ⟨w', n', rfl, hww'⟩ := he.exists_former
        exact accepts_optional_iff.2 (.inr (.inl ⟨w', n', rfl, ih hww' hw⟩))
      · refine accepts_optional_iff.2 (.inr (.inr ⟨⟨?_, ?_⟩, ih he htu⟩))
        · rintro rfl
          exact hp.1 (he.symm hs).eq_basic
        · rintro w n rfl
          obtain ⟨w', n', hw, _⟩ := (he.symm hs).exists_former
          exact hp.2 w' n' hw
    · obtain ⟨w, n, rfl, hw⟩ := (accepts_former_iff hf).1 h
      obtain ⟨w', n', rfl, hww'⟩ := he.exists_former
      exact (accepts_former_iff hf).2 ⟨w', n', rfl, ih hww' hw⟩
  | object o =>
    obtain ⟨p, rfl, hp⟩ := (accepts_object_iff hs).1 h
    obtain ⟨q, rfl⟩ := he.exists_object
    refine (accepts_object_iff hs).2 ⟨q, rfl, hp.imp_right ?_⟩
    rintro ⟨r, hr, hor⟩
    obtain ⟨r', hr', hrr'⟩ := exists_mem_line_of_equal hs he hr
    exact ⟨r', hr', hor.trans hrr'⟩
  | typeSet a =>
    obtain ⟨b, rfl, hb⟩ := (accepts_typeSet_iff hs).1 h
    obtain ⟨c, rfl⟩ := he.exists_typeSet
    exact (accepts_typeSet_iff hs).2 ⟨c, rfl, hb.imp_right fun hb => hb.trans he⟩

theorem allOfType_iff : s.allOfType t xs = true ↔ ∀ x ∈ xs, s.equals (s.typeOf x) t = true := by
  induction xs with
  | nil => simp [allOfType]
  | cons x xs ih => simp [allOfType, ih]

/-- Each element has the reported element type, up to equality, unless that is `Any`. -/
theorem elementType_eq_any_or (hs : s.WellFormed) (hx : x ∈ xs) :
    s.elementType xs = .basic .any ∨ s.Equal (s.typeOf x) (s.elementType xs) := by
  cases xs with
  | nil => simp at hx
  | cons y ys =>
    simp only [elementType]
    split_ifs with hall
    · right
      rcases List.mem_cons.1 hx with rfl | hx
      · exact Equal.refl s _
      · exact (equals_iff hs).1 (allOfType_iff.1 hall x hx)
    · exact .inl rfl

theorem accepts_typeOf_of_mem (hs : s.WellFormed) (hx : x ∈ xs)
    (h : s.accepts t (s.elementType xs) = true) : s.accepts t (s.typeOf x) = true := by
  rcases elementType_eq_any_or hs hx with hany | hequal
  · rw [hany] at h
    exact accepts_all (.inl rfl) h _
  · exact accepts_congr hs (hequal.symm hs) h

theorem exists_array_of_typeOf {m : ℕ} (h : s.typeOf x = .former .array t m) :
    ∃ xs, x = .array xs ∧ s.elementType xs = t := by
  cases x <;> simp_all [typeOf]

theorem eq_type_of_typeOf {m : ℕ} (h : s.typeOf x = .former .type t m) : x = .type t := by
  cases x <;> simp_all [typeOf]

theorem exists_iterator_of_typeOf {m : ℕ} (h : s.typeOf x = .former .iterator t m) :
    ∃ c, x = .iterator c t := by
  cases x <;> simp_all [typeOf]

theorem exists_object_of_typeOf {o : ObjectId} (h : s.typeOf x = .object o) :
    ∃ m fs, x = .object m o fs := by
  cases x <;> simp_all [typeOf]

theorem holds_of_accepts_typeOf {b : Basic} (h : s.accepts (.basic b) (s.typeOf x) = true) :
    b.holds x = true := by
  rw [accepts_basic] at h
  cases b <;> cases x <;> simp_all [Basic.accepts, Basic.holds, typeOf]

/-- A value belongs to the types that accept its reported type. -/
theorem isInstance_of_accepts_typeOf (hs : s.WellFormed) (h : s.accepts t (s.typeOf x) = true) :
    s.isInstance t x = true := by
  induction t generalizing x with
  | basic b => exact holds_of_accepts_typeOf h
  | former f t m ih =>
    cases f with
    | optional =>
      rw [isInstance_optional, Bool.or_eq_true]
      rcases accepts_optional_iff.1 h with hu | ⟨w, n, hu, _⟩ | ⟨_, ht⟩
      · left
        cases x <;> simp_all [typeOf, Value.isUndef]
      · cases x <;> simp [typeOf] at hu
      · exact .inr (ih ht)
    | array =>
      obtain ⟨w, n, hu, hw⟩ := (accepts_former_iff (by decide)).1 h
      obtain ⟨xs, rfl, rfl⟩ := exists_array_of_typeOf hu
      exact isInstance_array_iff.2
        ⟨xs, rfl, fun x hx => ih (accepts_typeOf_of_mem hs hx hw)⟩
    | type =>
      obtain ⟨w, n, hu, hw⟩ := (accepts_former_iff (by decide)).1 h
      exact isInstance_type_iff.2 ⟨w, eq_type_of_typeOf hu, hw⟩
    | iterator =>
      obtain ⟨w, n, hu, hw⟩ := (accepts_former_iff (by decide)).1 h
      obtain ⟨c, rfl⟩ := exists_iterator_of_typeOf hu
      exact isInstance_iterator_iff.2 ⟨c, w, rfl, hw⟩
  | object o =>
    obtain ⟨p, hp, _⟩ := (accepts_object_iff hs).1 h
    obtain ⟨m, fs, rfl⟩ := exists_object_of_typeOf hp
    exact isInstance_object_iff.2 (.inl ⟨m, p, fs, rfl, h⟩)
  | typeSet a =>
    obtain ⟨b, hb, _⟩ := (accepts_typeSet_iff hs).1 h
    cases x <;> simp [typeOf] at hb

theorem isInstance_typeOf (hs : s.WellFormed) (x : Value) : s.isInstance (s.typeOf x) x = true :=
  isInstance_of_accepts_typeOf hs (accepts_of_equal hs (Equal.refl s _))

/-- The elements of an array belong to its reported element type. -/
theorem isInstance_elementType (hs : s.WellFormed) (hx : x ∈ xs) :
    s.isInstance (s.elementType xs) x = true :=
  isInstance_of_accepts_typeOf hs
    (accepts_typeOf_of_mem hs hx (accepts_of_equal hs (Equal.refl s _)))

mutual

theorem has_typeOf : ∀ x : Value, (∀ a ∈ x.nodes, s.Knows a) → s.Has (s.typeOf x)
  | .undef, _ | .bool _, _ | .integer _, _ | .float _, _ | .string _, _ => by
    simp [typeOf, Has, Ty.nodes]
  | .array xs, h => by
    simp only [typeOf, Ty.formed_zero]
    exact has_elementType xs h
  | .type _, h | .iterator _ _, h => by
    simp only [typeOf, Ty.formed_zero]
    exact h
  | .object _ o _, h => has_object.2 (h _ List.mem_cons_self)

theorem has_elementType : ∀ xs : List Value, (∀ a ∈ Value.nodesOfList xs, s.Knows a) →
    s.Has (s.elementType xs)
  | [], _ => by simp [elementType, Has, Ty.nodes]
  | x :: xs, h => by
    simp only [elementType]
    split_ifs
    · exact has_typeOf x (List.forall_mem_append.1 h).1
    · simp [Has, Ty.nodes]

end

mutual

/-- The reported type of a value stays the same, if all it refers to is there and does. -/
theorem Untouched.typeOf_eq (h : s.Untouched s') (hs : s.WellFormed) (hs' : s'.WellFormed) :
    ∀ x : Value, (∀ a ∈ x.nodes, s.Knows a) → s'.typeOf x = s.typeOf x
  | .undef, _ | .bool _, _ | .integer _, _ | .float _, _ | .string _, _ | .type _, _
  | .iterator _ _, _ | .object _ _ _, _ => by simp [typeOf]
  | .array xs, hx => by
    simp only [typeOf]
    rw [h.elementType_eq hs hs' xs hx]

theorem Untouched.elementType_eq (h : s.Untouched s') (hs : s.WellFormed) (hs' : s'.WellFormed) :
    ∀ xs : List Value, (∀ a ∈ Value.nodesOfList xs, s.Knows a) →
      s'.elementType xs = s.elementType xs
  | [], _ => rfl
  | x :: xs, hx => by
    have hparts := List.forall_mem_append.1 hx
    simp only [elementType]
    rw [h.typeOf_eq hs hs' x hparts.1,
      h.allOfType_eq hs hs' (has_typeOf x hparts.1) xs hparts.2]

theorem Untouched.allOfType_eq (h : s.Untouched s') (hs : s.WellFormed) (hs' : s'.WellFormed)
    {t : Ty} (ht : s.Has t) : ∀ xs : List Value, (∀ a ∈ Value.nodesOfList xs, s.Knows a) →
      s'.allOfType t xs = s.allOfType t xs
  | [], _ => rfl
  | x :: xs, hx => by
    have hparts := List.forall_mem_append.1 hx
    simp only [allOfType]
    rw [h.typeOf_eq hs hs' x hparts.1, h.equals_eq hs hs' (has_typeOf x hparts.1) ht,
      h.allOfType_eq hs hs' ht xs hparts.2]

end

end Store
end TypeLattice
