import TypeLattice.Proofs.Reported

/-!
# Equal values

Values are compared as data up to equality of the types in them. That relation is symmetric and
transitive, and no type tells two equal values apart. An object equals itself whatever it holds, so
only a float that is no number, by itself or as an element of arrays, does not equal itself.
-/
namespace TypeLattice

theorem Binary64.eq_self_iff {x : Binary64} : x.eq x = true ↔ x ≠ .nan := by
  cases x <;> simp [Binary64.eq]

namespace Value

variable {R : Ty → Ty → Prop} {v w : Value} {xs ys : List Value}

mutual

/-- Not NaN, nor an array with NaN in it, at any depth. -/
def NanFree : Value → Prop
  | .float x => x ≠ .nan
  | .array xs => NanFreeList xs
  | _ => True

def NanFreeList : List Value → Prop
  | [] => True
  | x :: xs => NanFree x ∧ NanFreeList xs

end

mutual

theorem related_self_iff (hR : ∀ t, R t t) : ∀ v : Value, Related R v v ↔ v.NanFree
  | .undef | .bool _ | .integer _ | .string _ => by simp [Related, NanFree]
  | .float _ => Binary64.eq_self_iff
  | .array xs => relatedList_self_iff hR xs
  | .type t | .iterator _ t => iff_of_true (hR t) trivial
  | .object _ _ _ => iff_of_true (.inl rfl) trivial

theorem relatedList_self_iff (hR : ∀ t, R t t) :
    ∀ xs : List Value, RelatedList R xs xs ↔ NanFreeList xs
  | [] => Iff.rfl
  | x :: xs => and_congr (related_self_iff hR x) (relatedList_self_iff hR xs)

end

theorem relatedList_iff : RelatedList R xs ys ↔ List.Forall₂ (Related R) xs ys := by
  induction xs generalizing ys with
  | nil => cases ys <;> simp [RelatedList]
  | cons x xs ih => cases ys <;> simp [RelatedList, ih]

/-- Related values are of one kind, and the basic types have whole kinds as their values. -/
theorem Related.holds_eq (h : Related R v w) (b : Basic) : b.holds v = b.holds w := by
  cases v <;> cases w <;> first | exact absurd h id | cases b <;> rfl

theorem Related.isUndef_eq (h : Related R v w) : v.isUndef = w.isUndef := by
  cases v <;> cases w <;> first | rfl | exact absurd h id

end Value

namespace Store

open Value

variable {s : Store} {t t' u u' : Ty} {v w : Value} {xs ys : List Value}

/-- Values are equal if they are the same data up to equal types. -/
theorem valuesEqual_iff (hs : s.WellFormed) :
    s.valuesEqual v w = true ↔ v.Related s.Equal w := by
  have hdecides : Decides (s.valuesEqualWith v w) {}
      (v.Related (Ty.Lift (s.Assuming (s.assumed {}))) w) :=
    Value.decides_equalsWith v w fun a _ b _ => decides_nodesEqual hs {} a b
  have htypes : ∀ t u, t.Lift (s.Assuming (s.assumed {})) u ↔ s.Equal t u :=
    fun _ _ => lift_assuming_iff s.not_assumed_empty
  exact hdecides.answer.trans
    ⟨Related.mono (fun t u => (htypes t u).1) v w, Related.mono (fun t u => (htypes t u).2) v w⟩

theorem equals_congr (hs : s.WellFormed) (ht : s.Equal t t') (hu : s.Equal u u') :
    s.equals t u = s.equals t' u' := by
  rw [Bool.eq_iff_iff, equals_iff hs, equals_iff hs]
  exact ⟨fun h => (ht.symm hs).trans (h.trans hu), fun h => ht.trans (h.trans (hu.symm hs))⟩

/-- The types of two lists of values, one by one. -/
def TypesEqual (s : Store) (xs ys : List Value) : Prop :=
  List.Forall₂ (fun x y => s.Equal (s.typeOf x) (s.typeOf y)) xs ys

theorem TypesEqual.allOfType_eq (hs : s.WellFormed) (h : s.TypesEqual xs ys) (ht : s.Equal t u) :
    s.allOfType t xs = s.allOfType u ys := by
  induction h with
  | nil => rfl
  | cons hxy _ ih => rw [allOfType, allOfType, ih, equals_congr hs hxy ht]

/-- Both lists have a common type, or neither has: each element is compared with the first one, and
that one equals the first one of the other list. -/
theorem TypesEqual.equal_elementType (hs : s.WellFormed) (h : s.TypesEqual xs ys) :
    s.Equal (s.elementType xs) (s.elementType ys) := by
  cases h with
  | nil => exact Equal.refl s _
  | cons hxy h =>
    simp only [Store.elementType, TypesEqual.allOfType_eq hs h hxy]
    split_ifs
    · exact hxy
    · exact Equal.refl s _

mutual

theorem equal_typeOf (hs : s.WellFormed) : ∀ v w, v.Related s.Equal w →
    s.Equal (s.typeOf v) (s.typeOf w)
  | .undef, w, h | .bool _, w, h | .integer _, w, h | .float _, w, h | .string _, w, h => by
    cases w <;> first | exact Equal.refl s _ | exact absurd h id
  | .array xs, w, h => by
    cases w with
    | array ys =>
      simp only [typeOf, Ty.formed_zero]
      exact Equal.of_alike (.former ((typesEqual_of_related hs xs ys h).equal_elementType hs))
    | _ => exact absurd h id
  | .type t, w, h | .iterator _ t, w, h => by
    cases w <;> first
      | exact absurd h id
      | simp only [typeOf, Ty.formed_zero]
        exact Equal.of_alike (.former h)
  | .object m o fs, w, h => by
    cases w with
    | object n p gs =>
      rcases h with h | ⟨hop, -⟩
      · exact h ▸ Equal.refl s _
      · exact hop
    | _ => exact absurd h id

theorem typesEqual_of_related (hs : s.WellFormed) : ∀ xs ys, RelatedList s.Equal xs ys →
    s.TypesEqual xs ys
  | [], [], _ => .nil
  | [], _ :: _, h | _ :: _, [], h => absurd h id
  | x :: xs, y :: ys, h => .cons (equal_typeOf hs x y h.1) (typesEqual_of_related hs xs ys h.2)

end

theorem accepts_eq_of_equal (hs : s.WellFormed) (h : s.Equal u u') :
    s.accepts t u = s.accepts t u' :=
  Bool.eq_iff_iff.2 ⟨accepts_congr hs h, accepts_congr hs (h.symm hs)⟩

theorem isInstance_eq_of_related (hs : s.WellFormed) (h : v.Related s.Equal w) :
    s.isInstance t v = s.isInstance t w := by
  induction t generalizing v w with
  | basic b => exact h.holds_eq b
  | former f t m ih =>
    cases f with
    | optional => rw [isInstance_optional, isInstance_optional, h.isUndef_eq, ih h]
    | array =>
      cases v with
      | array xs =>
        cases w with
        | array ys =>
          have hall : (∀ x ∈ xs, s.isInstance t x = true) ↔ ∀ y ∈ ys, s.isInstance t y = true := by
            induction relatedList_iff.1 h with
            | nil => exact Iff.rfl
            | cons hxy hrest ihrest =>
              rw [List.forall_mem_cons, List.forall_mem_cons, ih hxy,
                ihrest (relatedList_iff.2 hrest)]
          rw [Bool.eq_iff_iff, isInstance_array_iff, isInstance_array_iff]
          simpa using hall
        | _ => exact absurd h id
      | _ => cases w <;> first | rfl | exact absurd h id
    | type =>
      cases v with
      | type u =>
        cases w with
        | type u' => exact accepts_eq_of_equal hs h
        | _ => exact absurd h id
      | _ => cases w <;> first | rfl | exact absurd h id
    | iterator =>
      cases v with
      | iterator c u =>
        cases w with
        | iterator d u' => exact accepts_eq_of_equal hs h
        | _ => exact absurd h id
      | _ => cases w <;> first | rfl | exact absurd h id
  | object o =>
    cases v with
    | type u =>
      cases w with
      | type u' =>
        -- only the variant of a type as a value counts
        simp only [isInstance, isInstanceWith, Ty.describer, Equal.variant_eq h]
      | _ => exact absurd h id
    | object m p fs =>
      cases w with
      | object n q gs =>
        rcases h with h | ⟨hpq, -⟩
        · rw [h]
        · exact accepts_eq_of_equal hs hpq
      | _ => exact absurd h id
    | _ => cases w <;> first | rfl | exact absurd h id
  | typeSet a => rfl

/-- Equality of values is symmetric and transitive, and it is reflexive but for NaN. Values that are
equal have equal types and belong to the same types. -/
theorem valuesEqual_congruence (hb : s.Built) :
    (∀ v w, v.Distinct → w.Distinct → s.valuesEqual v w = true → s.valuesEqual w v = true) ∧
    (∀ u v w, s.valuesEqual u v = true → s.valuesEqual v w = true → s.valuesEqual u w = true) ∧
    (∀ v, s.valuesEqual v v = true ↔ v.NanFree) ∧
    ∀ v w, s.valuesEqual v w = true → s.equals (s.typeOf v) (s.typeOf w) = true ∧
      ∀ t, s.isInstance t v = s.isInstance t w := by
  have hs := hb.wellFormed
  simp only [valuesEqual_iff hs, equals_iff hs]
  refine ⟨fun v w hv hw h => ?_, fun u v w huv hvw => ?_, related_self_iff (Equal.refl s),
    fun v w h => ⟨equal_typeOf hs v w h, fun t => isInstance_eq_of_related hs h⟩⟩
  · have hback : w.Related (flip s.Equal) v := Related.symm v w h hv hw
    exact Related.mono (fun _ _ hr => Equal.symm hs hr) w v hback
  · have hsteps : u.Related (Relation.Comp s.Equal s.Equal) w :=
      Related.comp (Equal.refl s) u v w huv hvw
    refine Related.mono ?_ u w hsteps
    rintro t t' ⟨x, ht, ht'⟩
    exact ht.trans ht'

/-- A type and an object of it, one of two types of one name. -/
def typeAndObject (n mark : ℕ) : Value :=
  .array [.type (.object (.declared n)), .object mark (.declared n) [("next", .undef)],
    .iterator mark (.object (.declared n))]

theorem linked_valuesEqual : linked.Built ∧ (typeAndObject 0 7).Distinct ∧
    (typeAndObject 1 8).Distinct ∧ linked.valuesEqual (typeAndObject 0 7) (typeAndObject 1 8) = true ∧
    linked.valuesEqual (typeAndObject 1 8) (typeAndObject 0 7) = true ∧
    linked.valuesEqual (typeAndObject 0 7) (typeAndObject 0 7) = true ∧
    linked.equals (linked.typeOf (typeAndObject 0 7)) (linked.typeOf (typeAndObject 1 8)) = true ∧
    ∀ t, linked.isInstance t (typeAndObject 0 7) = linked.isInstance t (typeAndObject 1 8) := by
  have hdistinct : ∀ n m, (typeAndObject n m).Distinct := by
    simp [typeAndObject, Value.Distinct, DistinctList, DistinctFields]
  have hequal : linked.valuesEqual (typeAndObject 0 7) (typeAndObject 1 8) = true := by
    decide +kernel
  obtain ⟨hsymm, htrans, -, hcongr⟩ := valuesEqual_congruence built_linked
  have hback := hsymm _ _ (hdistinct 0 7) (hdistinct 1 8) hequal
  exact ⟨built_linked, hdistinct 0 7, hdistinct 1 8, hequal, hback, htrans _ _ _ hequal hback,
    hcongr _ _ hequal⟩

end Store
end TypeLattice
