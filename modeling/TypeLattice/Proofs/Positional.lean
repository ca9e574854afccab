import TypeLattice.Proofs.Creating

/-!
# Arguments by position

An object type without a constructor makes an object exactly from as many arguments as it needs, each
of which, or the default value where there is none, fits its attribute. The count is checked first.
Since it reaches to the last attribute without a default value, no attribute is left without a value,
and what remains is the first value that does not fit.
-/
namespace TypeLattice.Store

variable {s s' : Store} {o : ObjectId} {attributes : List (String × Attribute)}
  {args : List Value} {a : Attribute} {x : Value} {i : ℕ}

/-- One past the last attribute without a default value, and 0 if there is none. -/
structure PastLast (attributes : List (String × Attribute)) (q : ℕ) : Prop where
  after : ∀ i e, attributes[i]? = some e → q ≤ i → e.2.default.isSome = true
  last : ∀ i, q = i + 1 → ∃ e, attributes[i]? = some e ∧ e.2.default = none

theorem pastLast_requiredCount (attributes : List (String × Attribute)) :
    PastLast attributes (requiredCount attributes) := by
  induction attributes using List.reverseRecOn with
  | nil => exact ⟨by simp, by simp [requiredCount]⟩
  | append_singleton as e ih =>
    cases he : e.2.default with
    | none =>
      have hcount : requiredCount (as ++ [e]) = as.length + 1 := by simp [requiredCount, he]
      rw [hcount]
      constructor
      · intro i d hd hi
        rw [List.getElem?_eq_none (by simpa using hi)] at hd
        cases hd
      · intro i hi
        obtain rfl : as.length = i := by omega
        exact ⟨e, by simp, he⟩
    | some v =>
      have hcount : requiredCount (as ++ [e]) = requiredCount as := by simp [requiredCount, he]
      rw [hcount]
      constructor
      · intro i d hd hi
        rcases lt_or_ge i as.length with hlt | hge
        · rw [List.getElem?_append_left hlt] at hd
          exact ih.after i d hd hi
        · rw [List.getElem?_append_right hge] at hd
          obtain rfl : d = e := by
            have := List.mem_of_getElem? hd
            simpa using this
          simp [he]
      · intro i hi
        obtain ⟨d, hd, hnone⟩ := ih.last i hi
        refine ⟨d, ?_, hnone⟩
        rw [List.getElem?_append_left (List.getElem?_eq_some_iff.1 hd).1, hd]

/-- The value for an attribute: the argument at its place, or the default value if there is none. -/
def offered? (args : List Value) (i : ℕ) (a : Attribute) : Option Value := args[i]?.or a.default

/-- There is a value for the attribute at a place, and it is an instance of the type. -/
def FitsAt (s : Store) (attributes : List (String × Attribute)) (args : List Value) (i : ℕ) :
    Prop :=
  ∀ e, attributes[i]? = some e →
    ∃ x, offered? args i e.2 = some x ∧ s.isInstance e.2.type x = true

/-- The value for an attribute is not an instance of the type, and those before it are. -/
structure FirstMisfit (s : Store) (attributes : List (String × Attribute)) (args : List Value)
    (i : ℕ) (a : Attribute) (x : Value) : Prop where
  entry : ∃ k, attributes[i]? = some (k, a)
  offered : offered? args i a = some x
  misfit : s.isInstance a.type x = false
  before : ∀ j < i, s.FitsAt attributes args j

/-- The fields have the names of the attributes in their order, and the values for them. -/
structure Filled (attributes : List (String × Attribute)) (args : List Value)
    (fields : List (String × Value)) : Prop where
  names : fields.map (·.1) = attributes.map (·.1)
  values : ∀ i e f, attributes[i]? = some e → fields[i]? = some f → offered? args i e.2 = some f.2

theorem offered?_zero (args : List Value) (a : Attribute) :
    offered? args 0 a = args.head?.or a.default := by
  cases args <;> rfl

theorem offered?_succ (args : List Value) (i : ℕ) (a : Attribute) :
    offered? args (i + 1) a = offered? args.tail i a := by
  rw [offered?, offered?, List.getElem?_tail]

theorem argumentOr_of_offered (h : offered? args 0 a = some x) : argumentOr args.head? a = x := by
  rw [offered?_zero] at h
  cases args with
  | nil =>
    have h : a.default = some x := h
    simp [argumentOr, h]
  | cons y ys => simpa [argumentOr] using h

theorem fitsAt_succ {e : String × Attribute} :
    s.FitsAt (e :: attributes) args (i + 1) ↔ s.FitsAt attributes args.tail i := by
  simp only [FitsAt, offered?_succ, List.getElem?_cons_succ]

theorem Filled.cons {e : String × Attribute} {fields : List (String × Value)}
    (hx : offered? args 0 e.2 = some x) (h : Filled attributes args.tail fields) :
    Filled (e :: attributes) args ((e.1, x) :: fields) := by
  refine ⟨by simp [h.names], fun i d f hd hf => ?_⟩
  cases i with
  | zero =>
    cases hd
    cases hf
    exact hx
  | succ i =>
    rw [offered?_succ]
    exact h.values i d f hd hf

theorem FirstMisfit.cons {e : String × Attribute} (h0 : s.FitsAt (e :: attributes) args 0)
    (h : s.FirstMisfit attributes args.tail i a x) :
    s.FirstMisfit (e :: attributes) args (i + 1) a x := by
  refine ⟨h.entry, (offered?_succ args i a).trans h.offered, h.misfit, fun j hj => ?_⟩
  cases j with
  | zero => exact h0
  | succ j => exact fitsAt_succ.2 (h.before j (by omega))

/-- If there is a value for each attribute, then either all fit and the fields are filled with them,
or the first that does not is reported. -/
theorem fillFrom_cases (s : Store) (function : String)
    (hgiven : ∀ i e, attributes[i]? = some e → (offered? args i e.2).isSome) (n : ℕ) :
    ((∀ i, s.FitsAt attributes args i) ∧
        ∃ fields, s.fillFrom function n attributes args = .ok fields ∧
          Filled attributes args fields) ∨
      ∃ i a x, s.FirstMisfit attributes args i a x ∧
        s.fillFrom function n attributes args = .error (s.mistyped function (n + i) a.type x) := by
  induction attributes generalizing args n with
  | nil => exact .inl ⟨fun i e he => by simp at he, [], rfl, rfl, fun i e f he _ => by simp at he⟩
  | cons e attributes ih =>
    obtain ⟨k, a⟩ := e
    obtain ⟨x, hx⟩ := Option.isSome_iff_exists.1 (hgiven 0 (k, a) rfl)
    have hvalue : argumentOr args.head? a = x := argumentOr_of_offered hx
    cases hfits : s.isInstance a.type x with
    | false =>
      refine .inr ⟨0, a, x, ⟨⟨k, rfl⟩, hx, hfits, by simp⟩, ?_⟩
      simp only [fillFrom, hvalue, hfits]
      rfl
    | true =>
      have hfirst : s.FitsAt ((k, a) :: attributes) args 0 := by
        rintro e he
        cases he
        exact ⟨x, hx, hfits⟩
      have hrest : ∀ i e, attributes[i]? = some e → (offered? args.tail i e.2).isSome := by
        intro i e he
        rw [← offered?_succ]
        exact hgiven (i + 1) e he
      rcases ih hrest (n + 1) with ⟨hall, fields, hfill, hfilled⟩ | ⟨i, b, y, hmisfit, hfill⟩
      · refine .inl ⟨fun i => ?_, (k, x) :: fields, ?_, hfilled.cons hx⟩
        · cases i with
          | zero => exact hfirst
          | succ i => exact fitsAt_succ.2 (hall i)
        · simp only [fillFrom, hvalue, hfits, if_true, hfill]
          rfl
      · refine .inr ⟨i + 1, b, y, hmisfit.cons hfirst, ?_⟩
        simp only [fillFrom, hvalue, hfits, if_true, hfill]
        rw [Nat.add_right_comm, Nat.add_assoc n i 1]
        rfl

/-- What the checks come to, of the count first and then of the values. -/
theorem fill_cases (s : Store) (o : ObjectId) (args : List Value) :
    let attributes := (s.allAttributes o).entries
    let q := requiredCount attributes
    (args.length < q ∨ attributes.length < args.length) ∧
        s.fill o args = .error (.illegalArgumentCount (s.label o ++ ".new")
          (countText q attributes.length) args.length) ∨
      (q ≤ args.length ∧ args.length ≤ attributes.length) ∧
        ((∀ i, s.FitsAt attributes args i) ∧
            (∃ fields, s.fill o args = .ok fields ∧ Filled attributes args fields) ∨
          ∃ i a x, s.FirstMisfit attributes args i a x ∧
            s.fill o args = .error (s.mistyped (s.label o ++ ".new") i a.type x)) := by
  intro attributes q
  by_cases hcount : args.length < q ∨ attributes.length < args.length
  · exact .inl ⟨hcount, if_pos hcount⟩
  · have hfill : s.fill o args = s.fillFrom (s.label o ++ ".new") 0 attributes args :=
      if_neg hcount
    rw [not_or, not_lt, not_lt] at hcount
    have hgiven : ∀ i e, attributes[i]? = some e → (offered? args i e.2).isSome := by
      intro i e he
      rcases lt_or_ge i args.length with hi | hi
      · simp [offered?, List.getElem?_eq_getElem hi]
      · have hdefault := (pastLast_requiredCount attributes).after i e he (hcount.1.trans hi)
        rwa [offered?, List.getElem?_eq_none hi, Option.none_or]
    have hcases := fillFrom_cases s (s.label o ++ ".new") hgiven 0
    simp only [Nat.zero_add, ← hfill] at hcases
    exact .inr ⟨hcount, hcases⟩

/-- The error for a value that does not fit has the texts of both types in it, and where one of them
does not end it is never reached. -/
def Misreports (s : Store) (function : String) (i : ℕ) (a : Attribute) (x : Value) (e : TypeError) :
    Prop :=
  (∃ expected actual, s.render? a.type = some expected ∧ s.render? (s.typeOf x) = some actual ∧
      e = .illegalArgumentType function i expected actual) ∨
    (s.render? a.type = none ∨ s.render? (s.typeOf x) = none) ∧ e = .endless

theorem misreports_mistyped (s : Store) (function : String) (i : ℕ) (a : Attribute) (x : Value) :
    s.Misreports function i a x (s.mistyped function i a.type x) := by
  unfold mistyped
  rcases TypeError.withText_cases (s.render? a.type) fun expected =>
      .withText (s.render? (s.typeOf x)) (.illegalArgumentType function i expected) with
    ⟨expected, hexpected, h⟩ | ⟨hexpected, h⟩
  · rw [h]
    rcases TypeError.withText_cases (s.render? (s.typeOf x))
        (.illegalArgumentType function i expected) with ⟨actual, hactual, h⟩ | ⟨hactual, h⟩
    · exact .inl ⟨expected, actual, hexpected, hactual, h⟩
    · exact .inr ⟨.inr hactual, h⟩
  · exact .inr ⟨.inl hexpected, h⟩

/-- An object is made exactly if there are as many arguments as attributes, or fewer down to the
last attribute without a default value, and each value fits. It has the names of the attributes in
their order with those values. Otherwise nothing changes, and the error is that of the count, or
else that of the first value that does not fit. -/
theorem create_exact (hc : s.constructor? o = none) (args : List Value) :
    let attributes := (s.allAttributes o).entries
    let q := requiredCount attributes
    PastLast attributes q ∧
    ((∃ v s', Making.create o args s = .ok v s') ↔
      (q ≤ args.length ∧ args.length ≤ attributes.length) ∧
        ∀ i, s.FitsAt attributes args i) ∧
    (∀ v s', Making.create o args s = .ok v s' →
      ∃ fields, v = .object s.nextMark o fields ∧ Filled attributes args fields ∧
        s' = s.freshMark.2) ∧
    ∀ e s', Making.create o args s = .error e s' → s' = s ∧
      ((args.length < q ∨ attributes.length < args.length) ∧
          e = .type (.illegalArgumentCount (s.label o ++ ".new") (countText q attributes.length)
            args.length) ∨
        (q ≤ args.length ∧ args.length ≤ attributes.length) ∧
          ∃ i a x error, s.FirstMisfit attributes args i a x ∧
            s.Misreports (s.label o ++ ".new") i a x error ∧ e = .type error) := by
  intro attributes q
  refine ⟨pastLast_requiredCount attributes, ?_⟩
  rw [create_eq hc]
  rcases fill_cases s o args with
    ⟨hcount, h⟩ | ⟨hcount, ⟨hfits, fields, h, hfilled⟩ | ⟨i, a, x, hmisfit, h⟩⟩
  · rw [h]
    refine ⟨⟨nofun, fun hright => ?_⟩, nofun, ?_⟩
    · rw [← not_lt, ← not_lt, ← not_or] at hright
      exact absurd hcount hright.1
    · rintro e s' he
      cases he
      exact ⟨rfl, .inl ⟨hcount, rfl⟩⟩
  · rw [h]
    refine ⟨⟨fun _ => ⟨hcount, hfits⟩, fun _ => ⟨_, _, rfl⟩⟩, ?_, nofun⟩
    rintro v s' hv
    cases hv
    exact ⟨fields, rfl, hfilled, rfl⟩
  · rw [h]
    refine ⟨⟨nofun, fun hright => ?_⟩, nofun, ?_⟩
    · obtain ⟨k, hk⟩ := hmisfit.entry
      obtain ⟨y, hy, hfits⟩ := hright.2 i (k, a) hk
      obtain rfl := Option.some.inj (hmisfit.offered.symm.trans hy)
      rw [hmisfit.misfit] at hfits
      cases hfits
    · rintro e s' he
      cases he
      exact ⟨rfl, .inr ⟨hcount, i, a, x, _, hmisfit, misreports_mistyped s _ i a x, rfl⟩⟩

def shapeAttributes : Table Attribute where
  entries := [("name", { type := .basic .string, default := some (.string "shape") }),
    ("sides", { type := .basic .integer })]

def squareAttributes : Table Attribute where
  entries := [("name", { type := .basic .string, default := some (.string "square") }),
    ("size", { type := .basic .integer, default := some (.integer 1) })]

/-- `Square` declares the name again and adds a size. Between the two is an attribute without a
default value. -/
def shapes : Store where
  objects := #[⟨some "Shape", some { attributes := shapeAttributes }⟩,
    ⟨some "Square", some { parent := some (.declared 0), attributes := squareAttributes }⟩]

theorem create_square : shapes.constructor? (.declared 1) = none ∧
    requiredCount (shapes.allAttributes (.declared 1)).entries = 2 ∧
    ∃ fields s', Making.create (.declared 1) [.string "box", .integer 4] shapes =
        .ok (.object shapes.nextMark (.declared 1) fields) s' ∧
      Filled (shapes.allAttributes (.declared 1)).entries [.string "box", .integer 4] fields := by
  have hcount : requiredCount (shapes.allAttributes (.declared 1)).entries = 2 := by decide +kernel
  have hall : (shapes.allAttributes (.declared 1)).entries =
      [("name", { type := .basic .string, default := some (.string "square") }),
        ("sides", { type := .basic .integer }),
        ("size", { type := .basic .integer, default := some (.integer 1) })] := by decide +kernel
  have hfits : ∀ i, shapes.FitsAt (shapes.allAttributes (.declared 1)).entries
      [.string "box", .integer 4] i := by
    rw [hall]
    rintro (_ | _ | _ | i) e he <;> cases he <;> exact ⟨_, rfl, rfl⟩
  obtain ⟨-, hiff, hok, -⟩ :=
    create_exact (s := shapes) (o := .declared 1) rfl [.string "box", .integer 4]
  obtain ⟨v, s', h⟩ := hiff.2 ⟨⟨hcount.le, by decide +kernel⟩, hfits⟩
  obtain ⟨fields, rfl, hfilled, -⟩ := hok v s' h
  exact ⟨rfl, hcount, fields, s', h, hfilled⟩

def ownTypeAttributes : Table Attribute where
  entries := [("a", { type := Ty.plain .type, default := some (.type (.object (.declared 0))) })]

def holderAttributes : Table Attribute where
  entries := [("x", { type := .object (.declared 0) })]

/-- A nameless object type that holds itself in a default value, and a type with an attribute of
it. -/
def holding : Store where
  objects := #[⟨none, some { attributes := ownTypeAttributes }⟩,
    ⟨some "P", some { attributes := holderAttributes }⟩]

theorem built_holding : holding.Built := by
  have h0 : Built { objects := #[⟨none, none⟩, ⟨some "P", none⟩] } :=
    (Built.empty.object none).object (some "P")
  have h1 : Built { objects := #[⟨none, some { attributes := ownTypeAttributes }⟩,
      ⟨some "P", none⟩] } :=
    h0.body (o := .declared 0) (b := { attributes := ownTypeAttributes })
      (by simp [Body.nodes, ownTypeAttributes, Attribute.nodes, Ty.plain, Ty.nodes, Value.nodes,
        Knows])
      (by simp [ownTypeAttributes, Attribute.Distinct, Value.Distinct]) rfl
  exact h1.body (o := .declared 1) (b := { attributes := holderAttributes })
    (by simp [Body.nodes, holderAttributes, Attribute.nodes, Ty.nodes, Knows])
    (by simp [holderAttributes, Attribute.Distinct]) rfl

/-- One argument is asked for and given. It does not fit, but that is never reported. -/
theorem create_holding_endless : holding.Built ∧ holding.constructor? (.declared 1) = none ∧
    (holding.allAttributes (.declared 1)).entries = holderAttributes.entries ∧
    requiredCount holderAttributes.entries = 1 ∧
    holding.FirstMisfit holderAttributes.entries [.integer 5] 0 { type := .object (.declared 0) }
      (.integer 5) ∧
    Making.create (.declared 1) [.integer 5] holding = .error (.type .endless) holding := by
  have hmisfit : holding.FirstMisfit holderAttributes.entries [.integer 5] 0
      { type := .object (.declared 0) } (.integer 5) :=
    ⟨⟨"x", rfl⟩, rfl, rfl, by simp⟩
  have hfill : holding.fill (.declared 1) [.integer 5] = .error .endless := by decide +kernel
  refine ⟨built_holding, rfl, by decide +kernel, by decide, hmisfit, ?_⟩
  rw [create_eq rfl, hfill]

end TypeLattice.Store
