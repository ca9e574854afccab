import TypeLattice.Proofs.Equality
import TypeLattice.Relation.Assignable

/-!
# Assignability is a preorder

One equation for each form of the accepting type says what it accepts. Transitivity goes by
induction on the first type alone: an optional type either passes a question on to its parameter or
accepts `Undef`, and whatever accepts `Any` or `Unit` accepts everything.
-/
namespace TypeLattice.Store

variable {s : Store} {o p q : ObjectId} {t u v : Ty} {f : Former} {m : ℕ}

theorem accepts_basic (s : Store) (b : Basic) (u : Ty) : s.accepts (.basic b) u = b.accepts u := rfl

/-- Neither `Undef` nor optional. -/
def Plain (t : Ty) : Prop := t ≠ .basic .undef ∧ ∀ u m, t ≠ .former .optional u m

theorem accepts_optional_undef : s.accepts (.former .optional t m) (.basic .undef) = true := rfl

theorem accepts_optional_optional {n : ℕ} :
    s.accepts (.former .optional t m) (.former .optional u n) = s.accepts t u := rfl

theorem accepts_optional_plain (h : Plain u) :
    s.accepts (.former .optional t m) u = s.accepts t u := by
  rcases u with b | ⟨f, u, n⟩ | _ | _
  · cases b
    case undef => exact absurd rfl h.1
    all_goals rfl
  · cases f
    case optional => exact absurd rfl (h.2 u n)
    all_goals rfl
  · rfl
  · rfl

theorem accepts_former_iff (hf : f ≠ .optional) :
    s.accepts (.former f t m) u = true ↔ ∃ v n, u = .former f v n ∧ s.accepts t v = true := by
  have hno : ∀ u, (∀ v n, u ≠ .former f v n) → s.accepts (.former f t m) u = false := by
    intro u hu
    cases f
    case optional => exact absurd rfl hf
    all_goals
      rcases u with _ | ⟨g, v, n⟩ | _ | _ <;> try rfl
      cases g <;> first | rfl | exact absurd rfl (hu v n)
  have hyes : ∀ v n, s.accepts (.former f t m) (.former f v n) = s.accepts t v := by
    intro v n
    cases f <;> first | exact absurd rfl hf | rfl
  constructor
  · intro h
    by_contra hu
    have hne : ∀ v n, u ≠ .former f v n := by
      rintro v n rfl
      exact hu ⟨v, n, rfl, by rwa [hyes] at h⟩
    simp [hno u hne] at h
  · rintro ⟨v, n, rfl, h⟩
    rwa [hyes]

theorem accepts_object_iff (hs : s.WellFormed) :
    s.accepts (.object o) u = true ↔
      ∃ p, u = .object p ∧ (s.isDefault o = true ∨
        ∃ q ∈ s.line p, s.Equal (.object o) (.object q)) := by
  rcases u with _ | _ | p | _
  case object =>
    have hline : Decides (s.inheritsWith o p) {} (∃ q ∈ s.line p, s.Equal (.object o) (.object q)) :=
      .anyM fun q _ => decides_objectsEqual hs o q
    cases hd : s.isDefault o
    · have : s.accepts (.object o) (.object p) = ((s.inheritsWith o p).run {}).1 := by
        simp [accepts, acceptsWith, hd]
      simp [this, hline.answer]
    · have : s.accepts (.object o) (.object p) = true := by
        simp [accepts, acceptsWith, hd, StateT.run, pure, StateT.pure]
      simp [this]
  all_goals simp [accepts, acceptsWith, StateT.run, pure, StateT.pure]

theorem accepts_typeSet_iff (hs : s.WellFormed) {a : SetId} :
    s.accepts (.typeSet a) u = true ↔
      ∃ b, u = .typeSet b ∧ (a = .default ∨ s.Equal (.typeSet a) (.typeSet b)) := by
  rcases u with _ | _ | _ | b
  case typeSet =>
    by_cases ha : a = .default
    · simp [accepts, acceptsWith, ha, StateT.run, pure, StateT.pure]
    · have : s.accepts (.typeSet a) (.typeSet b) =
          ((s.nodesEqual (.typeSet a) (.typeSet b)).run {}).1 := by
        simp [accepts, acceptsWith, ha]
      simp [this, (decides_typeSetsEqual hs a b).answer, ha]
  all_goals simp [accepts, acceptsWith, StateT.run, pure, StateT.pure]

theorem mem_line_self (hs : s.WellFormed) (o : ObjectId) : o ∈ s.line o :=
  (hs.rooted.line o).self_mem

theorem accepts_of_equal (hs : s.WellFormed) (h : s.Equal t u) : s.accepts t u = true := by
  induction t generalizing u with
  | basic b =>
    obtain rfl := h.eq_basic
    cases b <;> rfl
  | former f t m ih =>
    obtain ⟨v, n, rfl, hv⟩ := h.exists_former
    by_cases hf : f = .optional
    · subst hf
      rw [accepts_optional_optional]
      exact ih hv
    · exact (accepts_former_iff hf).2 ⟨v, n, rfl, ih hv⟩
  | object o =>
    obtain ⟨p, rfl⟩ := h.exists_object
    exact (accepts_object_iff hs).2 ⟨p, rfl, .inr ⟨p, mem_line_self hs p, h⟩⟩
  | typeSet a =>
    obtain ⟨b, rfl⟩ := h.exists_typeSet
    exact (accepts_typeSet_iff hs).2 ⟨b, rfl, .inr h⟩

/-- What accepts `Any` or `Unit` accepts everything. -/
theorem accepts_all {b : Basic} (hb : b = .any ∨ b = .unit) (h : s.accepts t (.basic b) = true)
    (v : Ty) : s.accepts t v = true := by
  induction t generalizing v with
  | basic c =>
    rcases hb with rfl | rfl <;> cases c <;> first | rfl | cases h
  | former f t m ih =>
    by_cases hf : f = .optional
    · subst hf
      have ht : s.accepts t (.basic b) = true := by
        rwa [accepts_optional_plain ⟨by rcases hb with rfl | rfl <;> simp, by simp⟩] at h
      by_cases hu : v = .basic .undef
      · rw [hu, accepts_optional_undef]
      · by_cases ho : ∃ w n, v = .former .optional w n
        · obtain ⟨w, n, rfl⟩ := ho
          rw [accepts_optional_optional]
          exact ih ht w
        · rw [accepts_optional_plain ⟨hu, fun w n he => ho ⟨w, n, he⟩⟩]
          exact ih ht v
    · obtain ⟨w, n, he, _⟩ := (accepts_former_iff hf).1 h
      cases he
  | object o | typeSet a => cases h

/-- What is not optional and accepts an optional type is `Any` or `Unit`. -/
theorem eq_universal_of_accepts_optional (ht : Plain t)
    (h : s.accepts t (.former .optional u m) = true) :
    t = .basic .any ∨ t = .basic .unit := by
  rcases t with b | ⟨f, t, n⟩ | o | a
  · cases b <;> simp_all [accepts_basic, Basic.accepts]
  · have hf : f ≠ .optional := fun he => ht.2 t n (he ▸ rfl)
    obtain ⟨v, k, he, _⟩ := (accepts_former_iff hf).1 h
    cases he
    exact absurd rfl hf
  · cases h
  · cases h

/-- The ancestors of equal object types are equal, one by one. -/
theorem exists_mem_line_of_equal (hs : s.WellFormed) (h : s.Equal (.object p) (.object q))
    {r : ObjectId} (hr : r ∈ s.line p) :
    ∃ r' ∈ s.line q, s.Equal (.object r) (.object r') := by
  have hline := hs.rooted.line p
  generalize s.line p = l at hline hr
  induction hline generalizing q with
  | root last =>
    obtain rfl := List.mem_singleton.1 hr
    exact ⟨q, mem_line_self hs q, h⟩
  | @link p p' l parent _ ih =>
    rcases List.mem_cons.1 hr with rfl | hr
    · exact ⟨q, mem_line_self hs q, h⟩
    · have hparents := h.parents
      rw [parent] at hparents
      cases hq : s.parent? q with
      | none => simp [hq] at hparents
      | some q' =>
        obtain ⟨r', hr', hrr⟩ := ih (q := q') (by simpa [hq] using hparents) hr
        exact ⟨r', hs.rooted.line_of_parent hq ▸ List.mem_cons_of_mem _ hr', hrr⟩

/-- Where the type refers to a nameless object type without parent and attributes, that is
`Object`. -/
def Settled (s : Store) (t : Ty) : Prop :=
  ∀ o, .object o ∈ t.nodes → s.name? o = none → s.parent? o = none →
    (s.ownAttributes o).entries = [] → s.isDefault o = true

/-- What equals `Object` is `Object`. -/
theorem Settled.isDefault_of_equal (ho : s.Settled (.object o))
    (h : s.Equal (.object o) (.object p)) (hp : s.isDefault p = true) : s.isDefault o = true := by
  rcases s.equal_bisimulation _ _ h with he | ha
  · rwa [Ty.object.inj he]
  · cases ha with
    | object name parent attributes =>
      rw [name?_of_isDefault hp] at name
      rw [parent?_of_isDefault hp] at parent
      rw [ownAttributes_of_isDefault hp] at attributes
      refine ho o (by simp [Ty.nodes]) name ?_ ?_
      · cases hq : s.parent? o with
        | none => rfl
        | some q => simp [hq] at parent
      · simpa [AttributesRelated] using attributes

theorem line_suffix (hs : s.WellFormed) (hq : q ∈ s.line p) : s.line q <:+ s.line p := by
  obtain ⟨m, hm, hsuffix⟩ := (hs.rooted.line p).of_mem hq
  rwa [hm.line_eq]

theorem accepts_object_trans (hs : s.WellFormed) (ho : s.Settled (.object o))
    (h : s.accepts (.object o) u = true) (h' : s.accepts u v = true) :
    s.accepts (.object o) v = true := by
  obtain ⟨p, rfl, hp⟩ := (accepts_object_iff hs).1 h
  obtain ⟨q, rfl, hq⟩ := (accepts_object_iff hs).1 h'
  refine (accepts_object_iff hs).2 ⟨q, rfl, ?_⟩
  rcases hp with hd | ⟨p', hp', he⟩
  · exact .inl hd
  rcases hq with hd | ⟨q', hq', he'⟩
  · have hline : s.line p = [p] := Rooted.line_of_root (parent?_of_isDefault hd)
    obtain rfl : p' = p := by simpa [hline] using hp'
    exact .inl (ho.isDefault_of_equal he hd)
  · obtain ⟨r, hr, her⟩ := exists_mem_line_of_equal hs he' hp'
    exact .inr ⟨r, (line_suffix hs hq').subset hr, he.trans her⟩

theorem accepts_typeSet_trans (hs : s.WellFormed) {a : SetId} (ha : s.Has (.typeSet a))
    (h : s.accepts (.typeSet a) u = true) (h' : s.accepts u v = true) :
    s.accepts (.typeSet a) v = true := by
  obtain ⟨b, rfl, hb⟩ := (accepts_typeSet_iff hs).1 h
  obtain ⟨c, rfl, hc⟩ := (accepts_typeSet_iff hs).1 h'
  refine (accepts_typeSet_iff hs).2 ⟨c, rfl, ?_⟩
  rcases hb with rfl | hb
  · exact .inl rfl
  rcases hc with rfl | hc
  · have hname : (s.set a).name = none := hb.set_name
    rcases a with _ | _ | n
    · exact .inl rfl
    · cases hname
    · have hn := hs.named n (has_typeSet.1 ha)
      simp [hname] at hn
  · exact .inr (hb.trans hc)

/-- The three ways in which an optional type accepts. -/
theorem accepts_optional_iff :
    s.accepts (.former .optional t m) u = true ↔
      u = .basic .undef ∨ (∃ v n, u = .former .optional v n ∧ s.accepts t v = true) ∨
        Plain u ∧ s.accepts t u = true := by
  by_cases hu : u = .basic .undef
  · simp [hu, accepts_optional_undef]
  by_cases ho : ∃ v n, u = .former .optional v n
  · obtain ⟨v, n, rfl⟩ := ho
    simp [accepts_optional_optional, Plain]
  · have hp : Plain u := ⟨hu, fun v n he => ho ⟨v, n, he⟩⟩
    rw [accepts_optional_plain hp]
    refine ⟨fun h => .inr (.inr ⟨hp, h⟩), ?_⟩
    rintro (h | ⟨v, n, he, _⟩ | ⟨_, h⟩)
    · exact absurd h hu
    · exact absurd ⟨v, n, he⟩ ho
    · exact h

theorem accepts_basic_trans {b : Basic} (h : s.accepts (.basic b) u = true)
    (h' : s.accepts u v = true) : s.accepts (.basic b) v = true := by
  cases b with
  | any | unit => rfl
  | numeric =>
    obtain rfl | rfl | rfl : u = .basic .numeric ∨ u = .basic .integer ∨ u = .basic .float := by
      simpa [accepts_basic, Basic.accepts] using h
    · exact h'
    · obtain rfl : v = .basic .integer := by simpa [accepts_basic, Basic.accepts] using h'
      rfl
    · obtain rfl : v = .basic .float := by simpa [accepts_basic, Basic.accepts] using h'
      rfl
  | _ =>
    obtain rfl := of_decide_eq_true h
    exact h'

/-- An optional type that accepts hands the question on to its parameter, unless it is asked about
`Undef`. What accepts an optional type without being one is `Any` or `Unit`. -/
theorem accepts_trans (hs : s.WellFormed) (hh : s.Has t) (ht : s.Settled t)
    (h : s.accepts t u = true) (h' : s.accepts u v = true) : s.accepts t v = true := by
  induction t generalizing u v with
  | basic b => exact accepts_basic_trans h h'
  | object o => exact accepts_object_trans hs ht h h'
  | typeSet a => exact accepts_typeSet_trans hs hh h h'
  | former f t m ih =>
    have ih : ∀ {u v}, s.accepts t u = true → s.accepts u v = true → s.accepts t v = true :=
      fun h h' => ih hh ht h h'
    by_cases hf : f = .optional
    · subst hf
      rw [accepts_optional_iff] at h ⊢
      rcases h with rfl | ⟨w, n, rfl, htw⟩ | ⟨hp, htu⟩
      · obtain rfl : v = .basic .undef := by simpa [accepts_basic, Basic.accepts] using h'
        exact .inl rfl
      · rcases accepts_optional_iff.1 h' with hv | ⟨x, k, hv, hwx⟩ | ⟨hv, hwv⟩
        · exact .inl hv
        · exact .inr (.inl ⟨x, k, hv, ih htw hwx⟩)
        · exact .inr (.inr ⟨hv, ih htw hwv⟩)
      · by_cases hv : v = .basic .undef
        · exact .inl hv
        by_cases ho : ∃ x k, v = .former .optional x k
        · obtain ⟨x, k, rfl⟩ := ho
          have hall : s.accepts t x = true := by
            rcases eq_universal_of_accepts_optional hp h' with rfl | rfl
            · exact accepts_all (.inl rfl) htu x
            · exact accepts_all (.inr rfl) htu x
          exact .inr (.inl ⟨x, k, rfl, hall⟩)
        · exact .inr (.inr ⟨⟨hv, fun x k he => ho ⟨x, k, he⟩⟩, ih htu h'⟩)
    · obtain ⟨w, n, rfl, htw⟩ := (accepts_former_iff hf).1 h
      obtain ⟨x, k, rfl, hwx⟩ := (accepts_former_iff hf).1 h'
      exact (accepts_former_iff hf).2 ⟨x, k, rfl, ih htw hwx⟩

/-- Accepting is a preorder that contains equality. -/
theorem accepts_preorder (hb : s.Built) :
    (∀ t, s.accepts t t = true) ∧
    (∀ t u, s.equals t u = true → s.accepts t u = true ∧ s.accepts u t = true) ∧
    (∀ t u v, s.Has t → s.Settled t → s.accepts t u = true → s.accepts u v = true →
      s.accepts t v = true) := by
  have hs := hb.wellFormed
  refine ⟨fun t => accepts_of_equal hs (Equal.refl s t), ?_, ?_⟩
  · intro t u h
    rw [equals_iff hs] at h
    exact ⟨accepts_of_equal hs h, accepts_of_equal hs (h.symm hs)⟩
  · intro t u v hh ht h h'
    exact accepts_trans hs hh ht h h'

def childBody (P : Type) (parent : P) : Body P where
  parent := some parent

/-- Three object types, each but the first a child of the one before. -/
def lineage : Store where
  objects := #[⟨some "Base", some {}⟩, ⟨some "Middle", some (childBody _ (.declared 0))⟩,
    ⟨some "Top", some (childBody _ (.declared 1))⟩]

theorem built_lineage : lineage.Built := by
  have h0 : Built { objects := #[⟨some "Base", none⟩, ⟨some "Middle", none⟩,
      ⟨some "Top", none⟩] } :=
    ((Built.empty.object (some "Base")).object (some "Middle")).object (some "Top")
  have h1 : Built { objects := #[⟨some "Base", some {}⟩, ⟨some "Middle", none⟩,
      ⟨some "Top", none⟩] } :=
    h0.body (o := .declared 0) (b := {}) (by simp [Body.nodes, Table.empty])
      (by simp [Table.empty]) rfl
  have h2 : Built { objects := #[⟨some "Base", some {}⟩,
      ⟨some "Middle", some (childBody _ (.declared 0))⟩, ⟨some "Top", none⟩] } :=
    h1.body (o := .declared 1) (b := childBody _ (.object (.declared 0)))
      (by simp [childBody, Body.nodes, Ty.nodes, Table.empty, Knows])
      (by simp [childBody, Table.empty]) rfl
  exact h2.body (o := .declared 2) (b := childBody _ (.object (.declared 1)))
    (by simp [childBody, Body.nodes, Ty.nodes, Table.empty, Knows])
    (by simp [childBody, Table.empty]) rfl

theorem lineage_accepts : lineage.Built ∧
    lineage.accepts (.former .optional (.object (.declared 0)) 1) (.object (.declared 2)) = true :=
  ⟨built_lineage, (accepts_preorder built_lineage).2.2 _
    (.former .optional (.object (.declared 1)) 2) _ (by simp [Has, Ty.nodes, Knows, lineage])
    (by simp [Settled, Ty.nodes, name?, lineage]) (by decide +kernel) (by decide +kernel)⟩

end TypeLattice.Store
