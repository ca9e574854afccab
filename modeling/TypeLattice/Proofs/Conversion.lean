import TypeLattice.New
import TypeLattice.Proofs.Collecting
import TypeLattice.Proofs.Instances

/-!
# Conversion gives instances back

A type that converts its argument gives an instance of it back as it is and changes nothing: no
iterator is pulled, neither the argument nor one inside it. What a type makes is checked to be an
instance, so a second conversion gives it back.
-/
namespace TypeLattice

open Runs

variable {κ σ : Type} {cb : Callbacks κ σ} {w w' : World κ σ} {t : Ty} {v v' : Value}
  {args : List Value}

/-- The types that convert their argument, and these in any number of `Optional`. -/
inductive Ty.Converting : Ty → Prop
  | integer : Converting (.basic .integer)
  | float : Converting (.basic .float)
  | numeric : Converting (.basic .numeric)
  | string : Converting (.basic .string)
  | boolean : Converting (.basic .boolean)
  | array (t : Ty) (m : ℕ) : Converting (.former .array t m)
  | iterator (t : Ty) (m : ℕ) : Converting (.former .iterator t m)
  | optional {t : Ty} (m : ℕ) (inside : Converting t) : Converting (.former .optional t m)

namespace Run

theorem instanceOf_eq (h : w.store.isInstance t v = true) :
    (instanceOf t v : Run κ σ Value) w = .ok v w := by
  refine (bind_of_ok get_eq).trans ?_
  simp only [h, if_true]
  rfl

theorem of_instanceOf (h : (instanceOf t v : Run κ σ Value) w = .ok v' w') :
    v' = v ∧ w' = w ∧ w.store.isInstance t v = true := by
  by_cases hi : w.store.isInstance t v = true
  · rw [instanceOf_eq hi] at h
    cases h
    exact ⟨rfl, rfl, hi⟩
  · obtain ⟨w₁, w₂, hget, h⟩ := of_bind_ok h
    cases hget
    simp only [hi] at h
    cases h

theorem isInstance_of_bind {x : Run κ σ Value} (h : (x >>= instanceOf t) w = .ok v w') :
    w'.store.isInstance t v = true := by
  obtain ⟨a, w₁, -, h⟩ := of_bind_ok h
  obtain ⟨rfl, rfl, hi⟩ := of_instanceOf h
  exact hi

theorem notConstructible_ne_ok :
    (notConstructible t : Run κ σ Value) w ≠ .ok v w' := by
  intro h
  obtain ⟨w₁, w₂, -, h⟩ := of_bind_ok h
  cases h

/-- What a type makes is an instance of it in the world that is left. -/
theorem isInstance_of_new (h : new cb t args w = .ok v w') : w'.store.isInstance t v = true := by
  unfold new newWith at h
  split at h
  · exact isInstance_of_bind h
  · split at h
    · exact isInstance_of_bind (x := pure .undef) h
    · exact isInstance_of_bind (x := pure .undef) h
    · exact isInstance_of_bind h
  · obtain ⟨a, w₁, -, h⟩ := of_bind_ok h
    obtain ⟨xs, w₂, -, h⟩ := of_bind_ok h
    exact isInstance_of_bind (x := pure (.array xs)) h
  · exact isInstance_of_bind h
  · exact isInstance_of_bind h
  · obtain ⟨w₁, w₂, -, h⟩ := of_bind_ok h
    split_ifs at h
    · exact absurd h notConstructible_ne_ok
    · exact isInstance_of_bind h
  · exact absurd h notConstructible_ne_ok

theorem converted_eq {α : Type} {name : String} {convert : Value → Convert.Converted α} {a : α}
    (h : convert v = .ok a) : (converted name convert [v] : Run κ σ α) w = .ok a w := by
  have hsingle : (single name [v] : Run κ σ Value) w = .ok v w := rfl
  refine (bind_of_ok hsingle).trans ?_
  simp only [h]
  rfl

/-- The five basic types that convert take their own values as they are. -/
theorem newBasic_eq {b : Basic} (ht : (Ty.basic b).Converting) (h : b.holds v = true) :
    (newBasic b [v] : Run κ σ Value) w = .ok v w := by
  cases ht with
  | integer =>
    cases v with
    | integer i => exact bind_of_ok (converted_eq rfl)
    | _ => cases h
  | float =>
    cases v with
    | float x => exact bind_of_ok (converted_eq rfl)
    | _ => cases h
  | numeric =>
    cases v with
    | integer i => exact converted_eq rfl
    | float x => exact converted_eq rfl
    | _ => cases h
  | string =>
    cases v with
    | string s => rfl
    | _ => cases h
  | boolean =>
    cases v with
    | bool b => exact bind_of_ok (converted_eq rfl)
    | _ => cases h

/-- `Optional` asks the type inside it, except for undef. -/
theorem new_optional_eq {m : ℕ} (h : v.isUndef = false) :
    new cb (.former .optional t m) [v] w =
      (new cb t [v] >>= instanceOf (.former .optional t m)) w := by
  cases v with
  | undef => cases h
  | _ => rfl

/-- Conversion neither reads on in an iterator nor makes anything of an instance. -/
theorem new_of_isInstance (ht : t.Converting) (h : w.store.isInstance t v = true) :
    new cb t [v] w = .ok v w := by
  induction ht with
  | integer | float | numeric | string | boolean =>
    exact (bind_of_ok (newBasic_eq (by constructor) h)).trans (instanceOf_eq h)
  | array t m =>
    obtain ⟨xs, rfl, -⟩ := Store.isInstance_array_iff.1 h
    exact instanceOf_eq h
  | iterator t m =>
    obtain ⟨p, u, rfl, -⟩ := Store.isInstance_iterator_iff.1 h
    exact instanceOf_eq h
  | @optional t m inside ih =>
    have hend : instanceOf (.former .optional t m) v w = .ok v w := instanceOf_eq h
    rw [Store.isInstance_optional, Bool.or_eq_true] at h
    cases hv : v.isUndef with
    | true =>
      obtain rfl : v = .undef := by
        cases v with
        | undef => rfl
        | _ => cases hv
      exact hend
    | false =>
      have hi : w.store.isInstance t v = true := h.resolve_left (by simp [hv])
      rw [new_optional_eq hv]
      exact (bind_of_ok (ih hi)).trans hend

/-- Taking the elements of an array is collecting a new cursor over it, which leaves the sources and
the pipelines that there were as they are. -/
theorem elements_array (cb : Callbacks κ σ) (u : Ty) (xs : List Value) (w : World κ σ) :
    elements (collect cb) (.array xs) w = .ok xs w ∧
      ∃ p w₁, ofArray u xs w = .ok (.iterator p u) w₁ ∧
        elements (collect cb) (.iterator p u) w₁ =
          .ok xs { w with
            sources := w.sources.push (.array xs xs.length)
            pipelines := w.pipelines.push { source := w.sources.size } } := by
  refine ⟨rfl, _, _, rfl, ?_⟩
  have hw : World.Stands (World.mk w.store (w.sources.push (.array xs 0))
      (w.pipelines.push { source := w.sources.size }) w.user) w.pipelines.size
      { source := w.sources.size } xs 0 := ⟨by simp [World.pipeline], by simp⟩
  refine (collect_cursor cb hw rfl).trans ?_
  simp [World.setSource, Array.setIfInBounds, Array.set_push]

/-- A converting type gives an instance back as it is, in the same world, and so it does with what
it made. The elements that it takes from an array are those that a new cursor over the array would
give, and nothing that was there before is moved for them. -/
theorem new_gives_back (cb : Callbacks κ σ) (ht : t.Converting) :
    (∀ v w, w.store.isInstance t v = true → new cb t [v] w = .ok v w) ∧
      (∀ args w v w', new cb t args w = .ok v w' → new cb t [v] w' = .ok v w') ∧
      ∀ u xs w, elements (collect cb) (.array xs) w = .ok xs w ∧
        ∃ p w₁, ofArray u xs w = .ok (.iterator p u) w₁ ∧
          elements (collect cb) (.iterator p u) w₁ =
            .ok xs { w with
              sources := w.sources.push (.array xs xs.length)
              pipelines := w.pipelines.push { source := w.sources.size } } :=
  ⟨fun _ _ h => new_of_isInstance ht h,
    fun _ _ _ _ h => new_of_isInstance ht (isInstance_of_new h), elements_array cb⟩

/-- A cursor over an iterator and an integer is collected to an array with that iterator, and the
array is given back with the iterator still at its start. -/
theorem new_gives_back_nested :
    (Ty.former .optional (.former .array (.basic .any) 0) 0).Converting ∧
      new .noting (.former .optional (.former .array (.basic .any) 0) 0)
          [.iterator 1 (.basic .any)] (.nested 0) =
        .ok (.array [.iterator 0 (.basic .integer), .integer 3]) (.nested 2) ∧
      new .noting (.former .optional (.former .array (.basic .any) 0) 0)
          [.array [.iterator 0 (.basic .integer), .integer 3]] (.nested 2) =
        .ok (.array [.iterator 0 (.basic .integer), .integer 3]) (.nested 2) := by
  have ht : (Ty.former .optional (.former .array (.basic .any) 0) 0).Converting :=
    .optional 0 (.array _ 0)
  have hmade : new .noting (.former .optional (.former .array (.basic .any) 0) 0)
      [.iterator 1 (.basic .any)] (.nested 0) =
        .ok (.array [.iterator 0 (.basic .integer), .integer 3]) (.nested 2) := rfl
  exact ⟨ht, hmade, (new_gives_back .noting ht).2.1 _ _ _ _ hmade⟩

end Run
end TypeLattice
