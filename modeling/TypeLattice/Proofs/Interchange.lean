import TypeLattice.Proofs.Reported

/-!
# Which equal types may stand for each other

Every type accepts a type together with its equals. The other way round only `Object` is special: it
accepts every object type, but it also equals nameless object types that do not, those without a
body and those that have only a constructor. So equal types accept the same types and have the same
values exactly if, below their formers, both are `Object` or neither is.
-/
namespace TypeLattice.Store

variable {s : Store} {o p : ObjectId} {a b c t u : Ty} {v : Value}

/-- Below the same formers the types come to object types of which both are `Object` or neither
is, or do not come to object types. -/
def AgreeOnObject (s : Store) : Ty → Ty → Prop
  | .former _ t _, .former _ u _ => AgreeOnObject s t u
  | .object o, .object p => s.isDefault o = s.isDefault p
  | _, _ => True

theorem AgreeOnObject.symm (h : s.AgreeOnObject t u) : s.AgreeOnObject u t := by
  induction t generalizing u with
  | former f t m ih =>
    cases u with
    | former g u n => exact ih (u := u) h
    | _ => trivial
  | object o =>
    cases u with
    | object p => exact Eq.symm (a := s.isDefault o) h
    | _ => trivial
  | _ => cases u <;> trivial

theorem accepts_object_of_equal (hs : s.WellFormed) (he : s.Equal (.object o) (.object p))
    (hd : s.isDefault o = s.isDefault p) (h : s.accepts (.object o) c = true) :
    s.accepts (.object p) c = true := by
  obtain ⟨q, rfl, hq⟩ := (accepts_object_iff hs).1 h
  refine (accepts_object_iff hs).2 ⟨q, rfl, ?_⟩
  rcases hq with ho | ⟨r, hr, hor⟩
  · exact .inl (hd ▸ ho)
  · exact .inr ⟨r, hr, (he.symm hs).trans hor⟩

/-- Only `TypeSet` itself equals `TypeSet`, for every other set has a name. -/
theorem eq_default_of_equal (hs : s.WellFormed) {d : SetId} (hd : s.Has (.typeSet d))
    (he : s.Equal (.typeSet .default) (.typeSet d)) : d = .default := by
  have hname : none = (s.set d).name := he.set_name
  rcases d with _ | _ | n
  · rfl
  · cases hname
  · have hn := hs.named n (has_typeSet.1 hd)
    simp [← hname] at hn

theorem accepts_of_agree (hs : s.WellFormed) (hb : s.Has b) (he : s.Equal a b)
    (hagree : s.AgreeOnObject a b) (h : s.accepts a c = true) : s.accepts b c = true := by
  induction a generalizing b c with
  | basic x =>
    obtain rfl := he.eq_basic
    exact h
  | former f t m ih =>
    obtain ⟨u, n, rfl, htu⟩ := he.exists_former
    have ih : ∀ {c}, s.accepts t c = true → s.accepts u c = true := ih hb htu hagree
    by_cases hf : f = .optional
    · subst hf
      rw [accepts_optional_iff] at h ⊢
      rcases h with hc | ⟨w, k, hc, hw⟩ | ⟨hp, hc⟩
      · exact .inl hc
      · exact .inr (.inl ⟨w, k, hc, ih hw⟩)
      · exact .inr (.inr ⟨hp, ih hc⟩)
    · obtain ⟨w, k, hc, hw⟩ := (accepts_former_iff hf).1 h
      exact (accepts_former_iff hf).2 ⟨w, k, hc, ih hw⟩
  | object o =>
    obtain ⟨p, rfl⟩ := he.exists_object
    exact accepts_object_of_equal hs he hagree h
  | typeSet x =>
    obtain ⟨y, rfl⟩ := he.exists_typeSet
    obtain ⟨z, rfl, hz⟩ := (accepts_typeSet_iff hs).1 h
    refine (accepts_typeSet_iff hs).2 ⟨z, rfl, ?_⟩
    rcases hz with rfl | hz
    · exact .inl (eq_default_of_equal hs hb he)
    · exact .inr ((he.symm hs).trans hz)

theorem isInstance_of_agree (hs : s.WellFormed) (hb : s.Has b) (he : s.Equal a b)
    (hagree : s.AgreeOnObject a b) (h : s.isInstance a v = true) : s.isInstance b v = true := by
  induction a generalizing b v with
  | basic x =>
    obtain rfl := he.eq_basic
    exact h
  | former f t m ih =>
    obtain ⟨u, n, rfl, htu⟩ := he.exists_former
    have haccepts : ∀ {c}, s.accepts t c = true → s.accepts u c = true :=
      accepts_of_agree hs hb htu hagree
    have ih : ∀ {v}, s.isInstance t v = true → s.isInstance u v = true := ih hb htu hagree
    cases f with
    | optional =>
      rw [isInstance_optional, Bool.or_eq_true] at h ⊢
      exact h.imp_right ih
    | array =>
      obtain ⟨xs, rfl, hxs⟩ := isInstance_array_iff.1 h
      exact isInstance_array_iff.2 ⟨xs, rfl, fun x hx => ih (hxs x hx)⟩
    | type =>
      obtain ⟨w, rfl, hw⟩ := isInstance_type_iff.1 h
      exact isInstance_type_iff.2 ⟨w, rfl, haccepts hw⟩
    | iterator =>
      obtain ⟨k, w, rfl, hw⟩ := isInstance_iterator_iff.1 h
      exact isInstance_iterator_iff.2 ⟨k, w, rfl, haccepts hw⟩
  | object o =>
    obtain ⟨p, rfl⟩ := he.exists_object
    have hd : s.isDefault o = s.isDefault p := hagree
    rcases isInstance_object_iff.1 h with ⟨n, q, fs, rfl, hq⟩ | ⟨w, rfl, ho, hw⟩
    · exact isInstance_object_iff.2 (.inl ⟨n, q, fs, rfl, accepts_object_of_equal hs he hd hq⟩)
    · exact isInstance_object_iff.2 (.inr ⟨w, rfl, hd ▸ ho, accepts_object_of_equal hs he hd hw⟩)
  | typeSet x => simp [isInstance_typeSet] at h

theorem accepts_former_former (s : Store) (f : Former) (t u : Ty) (m n : ℕ) :
    s.accepts (.former f t m) (.former f u n) = s.accepts t u := by
  cases f <;> rfl

theorem Equal.object_name (h : s.Equal (.object o) (.object p)) : s.name? o = s.name? p := by
  rcases s.equal_bisimulation _ _ h with he | ha
  · rw [Ty.object.inj he]
  · cases ha with
    | object name parent attributes => exact name

/-- The object type that describes `Any`. It has no parent, but a name. -/
def topDescriber : Ty := .object (.describing (.basic .any))

theorem accepts_topDescriber_iff (hs : s.WellFormed) (ho : s.name? o = none) :
    s.accepts (.object o) topDescriber = true ↔ s.isDefault o = true := by
  have hline : s.line (.describing (.basic .any)) = [.describing (.basic .any)] :=
    Rooted.line_of_root rfl
  refine ⟨fun h => ?_, fun h => (accepts_object_iff hs).2 ⟨_, rfl, .inl h⟩⟩
  obtain ⟨q, hq, hd | ⟨r, hr, hor⟩⟩ := (accepts_object_iff hs).1 h
  · exact hd
  · obtain rfl := Ty.object.inj hq
    obtain rfl : r = .describing (.basic .any) := by simpa [hline] using hr
    exact absurd (ho.symm.trans hor.object_name) (by simp [name?])

theorem agreeOnObject_of_object (hs : s.WellFormed) (he : s.Equal (.object o) (.object p))
    (h : s.accepts (.object o) topDescriber = s.accepts (.object p) topDescriber) :
    s.isDefault o = s.isDefault p := by
  cases hn : s.name? o with
  | none =>
    rw [Bool.eq_iff_iff, ← accepts_topDescriber_iff hs hn,
      ← accepts_topDescriber_iff hs (he.object_name ▸ hn), h]
  | some n =>
    have hnot : ∀ {q}, s.name? q = some n → s.isDefault q = false := fun hq =>
      Bool.eq_false_iff.2 fun hd => by simp [name?_of_isDefault hd] at hq
    rw [hnot hn, hnot (he.object_name ▸ hn)]

theorem agreeOnObject_of_accepts (hs : s.WellFormed) (he : s.Equal a b)
    (h : ∀ c, s.Has c → s.accepts a c = s.accepts b c) : s.AgreeOnObject a b := by
  induction a generalizing b with
  | former f t m ih =>
    obtain ⟨u, n, rfl, htu⟩ := he.exists_former
    refine ih htu fun c hc => ?_
    have hf := h (.former f c 0) hc
    rwa [accepts_former_former, accepts_former_former] at hf
  | object o =>
    obtain ⟨p, rfl⟩ := he.exists_object
    exact agreeOnObject_of_object hs he (h topDescriber (by simp [topDescriber, Knows]))
  | _ => cases b <;> trivial

theorem isInstance_array_singleton (s : Store) (t : Ty) (m : ℕ) (v : Value) :
    s.isInstance (.former .array t m) (.array [v]) = s.isInstance t v := by
  rw [Bool.eq_iff_iff, isInstance_array_iff]
  constructor
  · rintro ⟨xs, hxs, h⟩
    exact h v (by simp [← Value.array.inj hxs])
  · exact fun h => ⟨[v], rfl, by simpa using h⟩

/-- The values asked about are not undef, for an optional type has that one in any case. -/
theorem agreeOnObject_of_isInstance (hs : s.WellFormed) (he : s.Equal a b)
    (h : ∀ v, v.isUndef = false → (∀ n ∈ v.nodes, s.Knows n) →
      s.isInstance a v = s.isInstance b v) : s.AgreeOnObject a b := by
  induction a generalizing b with
  | former f t m ih =>
    obtain ⟨u, n, rfl, htu⟩ := he.exists_former
    cases f with
    | optional =>
      refine ih htu fun v hv hk => ?_
      have ho := h v hv hk
      rwa [isInstance_optional, isInstance_optional, hv, Bool.false_or, Bool.false_or] at ho
    | array =>
      refine ih htu fun v _ hk => ?_
      have harray := h (.array [v]) rfl (by simpa [Value.nodes, Value.nodesOfList] using hk)
      rwa [isInstance_array_singleton s, isInstance_array_singleton s] at harray
    | type =>
      exact agreeOnObject_of_accepts (a := t) hs htu fun c hc => h (.type c) rfl hc
    | iterator =>
      exact agreeOnObject_of_accepts (a := t) hs htu fun c hc => h (.iterator 0 c) rfl hc
  | object o =>
    obtain ⟨p, rfl⟩ := he.exists_object
    have hknown : ∀ n ∈ (Value.object 0 (.describing (.basic .any)) []).nodes, s.Knows n := by
      simp [Value.nodes, Value.nodesOfFields, Knows]
    exact agreeOnObject_of_object hs he (h _ rfl hknown)
  | _ => cases b <;> trivial

/-- A type can stand for an equal one wherever it is what is accepted. It accepts the same types, or
has the same values, exactly if the two agree on `Object`. -/
theorem equals_interchangeable_iff (hb : s.Built) (ht : s.Has t) (hu : s.Has u)
    (he : s.equals t u = true) :
    (∀ c, s.Has c → s.accepts c t = s.accepts c u) ∧
    ((∀ c, s.Has c → s.accepts t c = s.accepts u c) ↔ s.AgreeOnObject t u) ∧
    ((∀ v, (∀ n ∈ v.nodes, s.Knows n) → s.isInstance t v = s.isInstance u v) ↔
      s.AgreeOnObject t u) := by
  have hs := hb.wellFormed
  have he := (equals_iff hs).1 he
  refine ⟨fun c _ => ?_, ⟨agreeOnObject_of_accepts hs he, fun h c _ => ?_⟩,
    ⟨fun h => agreeOnObject_of_isInstance hs he fun v _ => h v, fun h v _ => ?_⟩⟩
  · exact Bool.eq_iff_iff.2 ⟨accepts_congr hs he, accepts_congr hs (he.symm hs)⟩
  · exact Bool.eq_iff_iff.2
      ⟨accepts_of_agree hs hu he h, accepts_of_agree hs ht (he.symm hs) h.symm⟩
  · exact Bool.eq_iff_iff.2
      ⟨isInstance_of_agree hs hu he h, isInstance_of_agree hs ht (he.symm hs) h.symm⟩

theorem linked_interchangeable : linked.Built ∧
    linked.equals (.object (.declared 0)) (.object (.declared 1)) = true ∧
    ∀ v, (∀ n ∈ v.nodes, linked.Knows n) →
      linked.isInstance (.object (.declared 0)) v =
        linked.isInstance (.object (.declared 1)) v := by
  have he : linked.equals (.object (.declared 0)) (.object (.declared 1)) = true := by
    decide +kernel
  have hagree : linked.AgreeOnObject (.object (.declared 0)) (.object (.declared 1)) := by
    show linked.isDefault (.declared 0) = linked.isDefault (.declared 1)
    decide
  have hiff := equals_interchangeable_iff built_linked (by simp [Knows, linked])
    (by simp [Knows, linked]) he
  exact ⟨built_linked, he, hiff.2.2.2 hagree⟩

/-- A body with nothing but a constructor, which makes only undef. -/
def makerBody (P : Type) : Body P where
  constructor := some (.custom fun _ => .ok .undef)

/-- The first type has no name, the second nothing but a name. -/
def unnamed : Store where
  objects := #[⟨none, some (makerBody _)⟩, ⟨some "Point", some {}⟩]

theorem built_unnamed : unnamed.Built := by
  have h0 : Built { objects := #[⟨none, none⟩, ⟨some "Point", none⟩] } :=
    (Built.empty.object none).object (some "Point")
  have h1 : Built { objects := #[⟨none, some (makerBody _)⟩, ⟨some "Point", none⟩] } :=
    h0.body (o := .declared 0) (b := makerBody _) (by simp [makerBody, Body.nodes, Table.empty])
      (by simp [makerBody, Table.empty]) rfl
  exact h1.body (o := .declared 1) (b := {}) (by simp [Body.nodes, Table.empty])
    (by simp [Table.empty]) rfl

theorem unnamed_not_interchangeable : unnamed.Built ∧
    unnamed.equals (.object .default) (.object (.declared 0)) = true ∧
    unnamed.accepts (.object .default) (.object (.declared 1)) = true ∧
    unnamed.accepts (.object (.declared 0)) (.object (.declared 1)) = false ∧
    unnamed.isInstance (.object .default) (.object 0 (.declared 1) []) = true ∧
    unnamed.isInstance (.object (.declared 0)) (.object 0 (.declared 1) []) = false := by
  refine ⟨built_unnamed, ?_⟩
  decide +kernel

end TypeLattice.Store
