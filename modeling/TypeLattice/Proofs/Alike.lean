import TypeLattice.Proofs.Built

/-!
# Bisimulations of types

What it means that two types, which may refer back to themselves, have the same structure. A
relation is a bisimulation if each of its pairs is one type or looks alike up to the relation;
types are equal if some bisimulation relates them. The largest bisimulation is an equivalence.
-/
namespace TypeLattice

variable {R S : Ty → Ty → Prop}

theorem Binary64.eq_symm {x y : Binary64} (h : x.eq y) : y.eq x := by
  cases x <;> cases y <;> simp_all [Binary64.eq]

theorem Binary64.eq_trans {x y z : Binary64} (h : x.eq y) (h' : y.eq z) : x.eq z := by
  cases x <;> cases y <;> cases z <;> simp_all [Binary64.eq]

namespace Value

mutual

/-- The same data, up to a relation between the types in it. Two objects are the same one, or have
related types and related attributes of the same names. -/
def Related (R : Ty → Ty → Prop) : Value → Value → Prop
  | .undef, .undef => True
  | .bool a, .bool b => a = b
  | .integer a, .integer b => a = b
  | .float a, .float b => a.eq b
  | .string a, .string b => a = b
  | .array xs, .array ys => RelatedList R xs ys
  | .type t, .type u => R t u
  | .iterator _ t, .iterator _ u => R t u
  | .object m o fs, .object n p gs =>
    Value.object m o fs = .object n p gs ∨
      R (.object o) (.object p) ∧ fs.length = gs.length ∧ RelatedFields R fs gs
  | _, _ => False

def RelatedList (R : Ty → Ty → Prop) : List Value → List Value → Prop
  | [], [] => True
  | x :: xs, y :: ys => Related R x y ∧ RelatedList R xs ys
  | _, _ => False

def RelatedFields (R : Ty → Ty → Prop) :
    List (String × Value) → List (String × Value) → Prop
  | [], _ => True
  | (k, x) :: fs, gs => (∃ y, find? k gs = some y ∧ Related R x y) ∧ RelatedFields R fs gs

end

theorem nodes_subset_of_find? {k : String} {y : Value} {gs : List (String × Value)}
    (h : find? k gs = some y) : y.nodes ⊆ nodesOfFields gs := by
  induction gs with
  | nil => simp [find?] at h
  | cons e gs ih =>
    simp only [find?] at h
    split_ifs at h
    · obtain rfl := Option.some.inj h
      exact List.subset_append_left _ _
    · exact List.Subset.trans (ih h) (List.subset_append_right _ _)

section Imp

variable {P : Node → Prop}

mutual

/-- Only the types in the two values matter. -/
theorem Related.imp
    (hRS : ∀ t u, (∀ a ∈ t.nodes, P a) → (∀ a ∈ u.nodes, P a) → R t u → S t u) : ∀ v w,
    (∀ a ∈ v.nodes, P a) → (∀ a ∈ w.nodes, P a) → Related R v w → Related S v w
  | .undef, w, _, _, h | .bool _, w, _, _, h | .integer _, w, _, _, h | .float _, w, _, _, h
  | .string _, w, _, _, h => by
    cases w <;> simp_all [Related]
  | .array xs, w, hv, hw, h => by
    cases w <;> simp only [Related] at h ⊢
    exact RelatedList.imp hRS xs _ hv hw h
  | .type _, w, hv, hw, h | .iterator _ _, w, hv, hw, h => by
    cases w <;> simp only [Related] at h ⊢
    exact hRS _ _ hv hw h
  | .object m o fs, w, hv, hw, h => by
    cases w with
    | object n p gs =>
      simp only [Related] at h ⊢
      obtain ⟨ho, hfs⟩ := List.forall_mem_cons.1 hv
      obtain ⟨hp, hgs⟩ := List.forall_mem_cons.1 hw
      refine h.imp_right fun ⟨hop, hl, hf⟩ => ⟨?_, hl, RelatedFields.imp hRS fs gs hfs hgs hf⟩
      exact hRS _ _ (by simpa [Ty.nodes] using ho) (by simpa [Ty.nodes] using hp) hop
    | _ => simp only [Related] at h

theorem RelatedList.imp
    (hRS : ∀ t u, (∀ a ∈ t.nodes, P a) → (∀ a ∈ u.nodes, P a) → R t u → S t u) : ∀ xs ys,
    (∀ a ∈ nodesOfList xs, P a) → (∀ a ∈ nodesOfList ys, P a) → RelatedList R xs ys →
      RelatedList S xs ys
  | [], ys, _, _, h => by cases ys <;> simp_all [RelatedList]
  | x :: xs, ys, hx, hy, h => by
    cases ys with
    | nil => simp only [RelatedList] at h
    | cons y ys =>
      obtain ⟨hx, hxs⟩ := List.forall_mem_append.1 hx
      obtain ⟨hy, hys⟩ := List.forall_mem_append.1 hy
      exact ⟨Related.imp hRS x y hx hy h.1, RelatedList.imp hRS xs ys hxs hys h.2⟩

theorem RelatedFields.imp
    (hRS : ∀ t u, (∀ a ∈ t.nodes, P a) → (∀ a ∈ u.nodes, P a) → R t u → S t u) : ∀ fs gs,
    (∀ a ∈ nodesOfFields fs, P a) → (∀ a ∈ nodesOfFields gs, P a) → RelatedFields R fs gs →
      RelatedFields S fs gs
  | [], _, _, _, _ => trivial
  | (_, x) :: fs, gs, hf, hg, ⟨⟨y, hy, hxy⟩, hrest⟩ => by
    obtain ⟨hx, hfs⟩ := List.forall_mem_append.1 hf
    have hynodes : ∀ a ∈ y.nodes, P a := fun a ha => hg a (nodes_subset_of_find? hy ha)
    exact ⟨⟨y, hy, Related.imp hRS x y hx hynodes hxy⟩, RelatedFields.imp hRS fs gs hfs hg hrest⟩

end
end Imp

theorem Related.mono (hRS : ∀ t u, R t u → S t u) (v w : Value) (h : Related R v w) :
    Related S v w :=
  Related.imp (P := fun _ => True) (fun t u _ _ => hRS t u) v w (by simp) (by simp) h

theorem RelatedFields.mono (hRS : ∀ t u, R t u → S t u) (fs gs : List (String × Value))
    (h : RelatedFields R fs gs) : RelatedFields S fs gs :=
  RelatedFields.imp (P := fun _ => True) (fun t u _ _ => hRS t u) fs gs (by simp) (by simp) h

theorem relatedFields_iff {fs gs : List (String × Value)} :
    RelatedFields R fs gs ↔ ∀ e ∈ fs, ∃ y, find? e.1 gs = some y ∧ Related R e.2 y := by
  induction fs with
  | nil => simp [RelatedFields]
  | cons e fs ih => simp [RelatedFields, ih]

theorem distinctFields_iff {fs : List (String × Value)} :
    DistinctFields fs ↔ ∀ e ∈ fs, Distinct e.2 := by
  induction fs with
  | nil => simp [DistinctFields]
  | cons e fs ih => simp [DistinctFields, ih]

end Value

theorem mem_of_find? {α : Type} {k : String} {v : α} {es : List (String × α)}
    (h : find? k es = some v) : (k, v) ∈ es := by
  induction es with
  | nil => simp [find?] at h
  | cons e es ih =>
    by_cases hk : e.1 = k
    · subst hk
      simp only [find?, if_true, Option.some.injEq] at h
      simp [← h]
    · simp only [find?, hk, if_false] at h
      exact List.mem_cons_of_mem e (ih h)

theorem find?_of_mem {α : Type} {k : String} {v : α} {es : List (String × α)}
    (hn : (es.map (·.1)).Nodup) (h : (k, v) ∈ es) : find? k es = some v := by
  induction es with
  | nil => simp at h
  | cons e es ih =>
    obtain ⟨hnot, hn⟩ := List.nodup_cons.1 hn
    rcases List.mem_cons.1 h with rfl | h
    · simp [find?]
    · have hk : e.1 ≠ k := by
        rintro rfl
        exact hnot (List.mem_map.2 ⟨_, h, rfl⟩)
      simp [find?, hk, ih hn h]

/-- Where the names on one side all occur on the other, of the same length, the two sides have the
same names. -/
theorem keys_subset_of_length {α β : Type} {es : List (String × α)} {fs : List (String × β)}
    (hn : (es.map (·.1)).Nodup) (hl : es.length = fs.length)
    (hs : es.map (·.1) ⊆ fs.map (·.1)) : fs.map (·.1) ⊆ es.map (·.1) := by
  have hp := (List.subperm_of_subset hn hs).perm_of_length_le (by simp [hl])
  exact hp.symm.subset

namespace Value

variable {fs gs : List (String × Value)}

theorem relatedFields_symm (hf : (fs.map (·.1)).Nodup) (hg : (gs.map (·.1)).Nodup)
    (hl : fs.length = gs.length) (h : RelatedFields R fs gs)
    (hsymm : ∀ e ∈ fs, ∀ y, (e.1, y) ∈ gs → Related R e.2 y → Related (flip R) y e.2) :
    RelatedFields (flip R) gs fs := by
  rw [relatedFields_iff] at h ⊢
  have hsub : fs.map (·.1) ⊆ gs.map (·.1) := by
    intro k hk
    obtain ⟨e, he, rfl⟩ := List.mem_map.1 hk
    obtain ⟨y, hy, _⟩ := h e he
    exact List.mem_map.2 ⟨_, mem_of_find? hy, rfl⟩
  intro e he
  obtain ⟨d, hd, hk⟩ := List.mem_map.1 (keys_subset_of_length hf hl hsub (List.mem_map_of_mem he))
  obtain ⟨y, hy, hr⟩ := h d hd
  have hk : d.1 = e.1 := hk
  rw [hk, find?_of_mem hg he] at hy
  obtain rfl := Option.some.inj hy
  exact ⟨d.2, hk ▸ find?_of_mem hf hd, hsymm d hd _ (hk ▸ he) hr⟩

mutual

theorem Related.symm : ∀ v w, Related R v w → v.Distinct → w.Distinct → Related (flip R) w v
  | .undef, w, h, _, _ | .bool _, w, h, _, _ | .integer _, w, h, _, _ | .string _, w, h, _, _ => by
    cases w <;> simp_all [Related]
  | .float a, w, h, _, _ => by
    cases w <;> simp only [Related] at h ⊢
    exact Binary64.eq_symm h
  | .array xs, w, h, hv, hw => by
    cases w <;> simp only [Related] at h ⊢
    exact RelatedList.symm xs _ h hv hw
  | .type _, w, h, _, _ | .iterator _ _, w, h, _, _ => by
    cases w <;> simp only [Related] at h ⊢
    exact h
  | .object m o fs, w, h, hv, hw => by
    cases w <;> simp only [Related] at h ⊢
    refine h.imp Eq.symm fun ⟨ho, hl, hf⟩ => ⟨ho, hl.symm, ?_⟩
    exact relatedFields_symm hv.1 hw.1 hl hf (RelatedFields.symm fs _ hv.2 hw.2)

theorem RelatedList.symm : ∀ xs ys, RelatedList R xs ys → DistinctList xs → DistinctList ys →
    RelatedList (flip R) ys xs
  | [], ys, h, _, _ => by cases ys <;> simp_all [RelatedList]
  | x :: xs, ys, h, hx, hy => by
    cases ys <;> simp only [RelatedList] at h ⊢
    exact ⟨Related.symm x _ h.1 hx.1 hy.1, RelatedList.symm xs _ h.2 hx.2 hy.2⟩

theorem RelatedFields.symm : ∀ fs gs, DistinctFields fs → DistinctFields gs →
    ∀ e ∈ fs, ∀ y, (e.1, y) ∈ gs → Related R e.2 y → Related (flip R) y e.2
  | [], _, _, _, e, he, _, _, _ => by simp at he
  | (k, x) :: fs, gs, hf, hg, e, he, y, hy, h => by
    rcases List.mem_cons.1 he with rfl | he
    · exact Related.symm x y h hf.1 (distinctFields_iff.1 hg _ hy)
    · exact RelatedFields.symm fs gs hf.2 hg e he y hy h

end

mutual

theorem Related.comp (hR : ∀ t, R t t) : ∀ u v w, Related R u v → Related R v w →
    Related (Relation.Comp R R) u w
  | .undef, v, w, h, h' | .bool _, v, w, h, h' | .integer _, v, w, h, h' | .string _, v, w, h, h' => by
    cases v <;> cases w <;> simp_all [Related]
  | .float _, v, w, h, h' => by
    cases v <;> cases w <;> simp only [Related] at h h' ⊢
    exact Binary64.eq_trans h h'
  | .array xs, v, w, h, h' => by
    cases v <;> cases w <;> simp only [Related] at h h' ⊢
    exact RelatedList.comp hR xs _ _ h h'
  | .type _, v, w, h, h' | .iterator _ _, v, w, h, h' => by
    cases v <;> cases w <;> simp only [Related] at h h' ⊢
    exact ⟨_, h, h'⟩
  | .object m o fs, v, w, h, h' => by
    cases v <;> cases w <;> simp only [Related] at h h' ⊢
    rcases h with h | ⟨ho, hl, hf⟩
    · cases h
      exact h'.imp_right fun ⟨ho', hl', hf'⟩ =>
        ⟨⟨_, hR _, ho'⟩, hl', RelatedFields.mono (fun _ _ hr => ⟨_, hR _, hr⟩) _ _ hf'⟩
    · rcases h' with h' | ⟨ho', hl', hf'⟩
      · cases h'
        exact .inr ⟨⟨_, ho, hR _⟩, hl, RelatedFields.mono (fun _ _ hr => ⟨_, hr, hR _⟩) _ _ hf⟩
      · exact .inr ⟨⟨_, ho, ho'⟩, hl.trans hl', RelatedFields.comp hR fs _ _ hf hf'⟩

theorem RelatedList.comp (hR : ∀ t, R t t) : ∀ xs ys zs, RelatedList R xs ys →
    RelatedList R ys zs → RelatedList (Relation.Comp R R) xs zs
  | [], ys, zs, h, h' => by cases ys <;> cases zs <;> simp_all [RelatedList]
  | x :: xs, ys, zs, h, h' => by
    cases ys <;> cases zs <;> simp only [RelatedList] at h h' ⊢
    exact ⟨Related.comp hR x _ _ h.1 h'.1, RelatedList.comp hR xs _ _ h.2 h'.2⟩

theorem RelatedFields.comp (hR : ∀ t, R t t) : ∀ fs gs hs, RelatedFields R fs gs →
    RelatedFields R gs hs → RelatedFields (Relation.Comp R R) fs hs
  | [], _, _, _, _ => trivial
  | (_, x) :: fs, gs, hs, ⟨⟨y, hy, hx⟩, hf⟩, h' => by
    obtain ⟨z, hz, hyz⟩ := relatedFields_iff.1 h' _ (mem_of_find? hy)
    exact ⟨⟨z, hz, Related.comp hR x y z hx hyz⟩, RelatedFields.comp hR fs gs hs hf h'⟩

end

end Value

/-- Related types, and related default values or none. -/
def Attribute.Related (R : Ty → Ty → Prop) (a b : Attribute) : Prop :=
  R a.type b.type ∧ Option.Rel (Value.Related R) a.default b.default

/-- Related attributes of the same names in the same order. -/
def AttributesRelated (R : Ty → Ty → Prop) (as bs : List (String × Attribute)) : Prop :=
  List.Forall₂ (fun a b => a.1 = b.1 ∧ a.2.Related R b.2) as bs

namespace Store

variable {s : Store} {t u v : Ty}

/-- Two types look alike up to `R`: they have the same former and related parameters, or are object
types of the same name with related parents and attributes, or type sets of the same name and
version with related members of the same names. -/
inductive Alike (s : Store) (R : Ty → Ty → Prop) : Ty → Ty → Prop
  | basic (b : Basic) : Alike s R (.basic b) (.basic b)
  | former {f : Former} {t u : Ty} {m n : ℕ} (parameter : R t u) :
      Alike s R (.former f t m) (.former f u n)
  | object {o p : ObjectId} (name : s.name? o = s.name? p)
      (parent : Option.Rel (fun a b => R (.object a) (.object b)) (s.parent? o) (s.parent? p))
      (attributes : AttributesRelated R (s.ownAttributes o).entries (s.ownAttributes p).entries) :
      Alike s R (.object o) (.object p)
  | typeSet {a b : SetId} (name : (s.set a).name = (s.set b).name)
      (version : (s.set a).version = (s.set b).version)
      (members : ∀ k, Option.Rel R ((s.set a).members.get? k) ((s.set b).members.get? k)) :
      Alike s R (.typeSet a) (.typeSet b)

/-- Each pair is one and the same type or looks alike. -/
def Bisimulation (s : Store) (R : Ty → Ty → Prop) : Prop :=
  ∀ t u, R t u → t = u ∨ s.Alike R t u

/-- Some bisimulation relates the types. -/
def Equal (s : Store) (t u : Ty) : Prop := ∃ R, s.Bisimulation R ∧ R t u

end Store

theorem Option.Rel.refl {α : Type} {p : α → α → Prop} (h : ∀ a, p a a) (x : Option α) :
    Option.Rel p x x := by
  cases x with
  | none => exact .none
  | some a => exact .some (h a)

theorem Option.Rel.mono {α β : Type} {p q : α → β → Prop} (h : ∀ a b, p a b → q a b) {x : Option α}
    {y : Option β} (hp : Option.Rel p x y) : Option.Rel q x y := by
  cases hp with
  | none => exact .none
  | some hp => exact .some (h _ _ hp)

theorem Option.Rel.imp {α β : Type} {p q : α → β → Prop} {x : Option α} {y : Option β}
    (hp : Option.Rel p x y) (h : ∀ a, x = some a → ∀ b, y = some b → p a b → q a b) :
    Option.Rel q x y := by
  cases hp with
  | none => exact .none
  | some hp => exact .some (h _ rfl _ rfl hp)

theorem Option.Rel.exists_left {α β : Type} {p : α → β → Prop} {x : Option α} {b : β}
    (hp : Option.Rel p x (some b)) : ∃ a, x = some a ∧ p a b := by
  cases hp with
  | some hp => exact ⟨_, rfl, hp⟩

theorem Option.Rel.exists_right {α β : Type} {p : α → β → Prop} {a : α} {y : Option β}
    (hp : Option.Rel p (some a) y) : ∃ b, y = some b ∧ p a b := by
  cases hp with
  | some hp => exact ⟨_, rfl, hp⟩

theorem Option.Rel.map_iff {α β γ δ : Type} {p : γ → δ → Prop} {f : α → γ} {g : β → δ}
    {x : Option α} {y : Option β} :
    Option.Rel p (x.map f) (y.map g) ↔ Option.Rel (fun a b => p (f a) (g b)) x y := by
  cases x <;> cases y <;> simp

theorem Option.Rel.comp {α : Type} {p q r : α → α → Prop} {x y z : Option α}
    (h : ∀ a b c, p a b → q b c → r a c) (hp : Option.Rel p x y) (hq : Option.Rel q y z) :
    Option.Rel r x z := by
  cases hp with
  | none => cases hq; exact .none
  | some hp =>
    cases hq with
    | some hq => exact .some (h _ _ _ hp hq)

theorem Option.Rel.flip {α : Type} {p q : α → α → Prop} {x y : Option α}
    (h : ∀ a, a ∈ x → ∀ b, b ∈ y → p a b → q b a) (hp : Option.Rel p x y) : Option.Rel q y x := by
  cases hp with
  | none => exact .none
  | some hp => exact .some (h _ rfl _ rfl hp)

theorem Attribute.Related.mono (hRS : ∀ t u, R t u → S t u) {a b : Attribute}
    (h : a.Related R b) : a.Related S b :=
  ⟨hRS _ _ h.1, Option.Rel.mono (Value.Related.mono hRS) h.2⟩

theorem Attribute.Related.symm {a b : Attribute} (h : a.Related R b) (ha : a.Distinct)
    (hb : b.Distinct) : b.Related (flip R) a :=
  ⟨h.1, Option.Rel.flip (fun v hv w hw hr => Value.Related.symm v w hr (ha v hv) (hb w hw)) h.2⟩

theorem Attribute.Related.comp (hR : ∀ t, R t t) {a b c : Attribute} (h : a.Related R b)
    (h' : b.Related R c) : a.Related (Relation.Comp R R) c :=
  ⟨⟨_, h.1, h'.1⟩, Option.Rel.comp (Value.Related.comp hR) h.2 h'.2⟩

theorem AttributesRelated.symm {as bs : List (String × Attribute)} (h : AttributesRelated R as bs)
    (ha : ∀ a ∈ as, a.2.Distinct) (hb : ∀ b ∈ bs, b.2.Distinct) :
    AttributesRelated (flip R) bs as := by
  induction h with
  | nil => exact .nil
  | cons hab _ ih =>
    refine .cons ⟨hab.1.symm, hab.2.symm (ha _ (by simp)) (hb _ (by simp))⟩ (ih ?_ ?_)
    · exact fun a h => ha a (List.mem_cons_of_mem _ h)
    · exact fun b h => hb b (List.mem_cons_of_mem _ h)

theorem AttributesRelated.comp (hR : ∀ t, R t t) {as bs cs : List (String × Attribute)}
    (h : AttributesRelated R as bs) (h' : AttributesRelated R bs cs) :
    AttributesRelated (Relation.Comp R R) as cs := by
  induction h generalizing cs with
  | nil => cases h'; exact .nil
  | cons hab _ ih =>
    cases h' with
    | cons hbc h' => exact .cons ⟨hab.1.trans hbc.1, hab.2.comp hR hbc.2⟩ (ih h')

namespace Store

variable {s : Store} {t u v : Ty}

theorem Alike.mono (hRS : ∀ t u, R t u → S t u) (h : s.Alike R t u) : s.Alike S t u := by
  cases h with
  | basic b => exact .basic b
  | former parameter => exact .former (hRS _ _ parameter)
  | object name parent attributes =>
    exact .object name (Option.Rel.mono (fun _ _ => hRS _ _) parent)
      (attributes.imp fun _ _ hab => ⟨hab.1, hab.2.mono hRS⟩)
  | typeSet name version members =>
    exact .typeSet name version fun k => Option.Rel.mono hRS (members k)

theorem Alike.symm (hs : s.WellFormed) (h : s.Alike R t u) : s.Alike (flip R) u t := by
  cases h with
  | basic b => exact .basic b
  | former parameter => exact .former parameter
  | object name parent attributes =>
    exact .object name.symm (Option.Rel.flip (fun _ _ _ _ h => h) parent)
      (attributes.symm (hs.distinct _) (hs.distinct _))
  | typeSet name version members =>
    exact .typeSet name.symm version.symm fun k => Option.Rel.flip (fun _ _ _ _ h => h) (members k)

theorem Alike.comp (hR : ∀ t, R t t) (h : s.Alike R t u) (h' : s.Alike R u v) :
    s.Alike (Relation.Comp R R) t v := by
  cases h with
  | basic b => cases h'; exact .basic b
  | former parameter => cases h' with | former parameter' => exact .former ⟨_, parameter, parameter'⟩
  | object name parent attributes =>
    cases h' with
    | object name' parent' attributes' =>
      exact .object (name.trans name')
        (Option.Rel.comp (fun _ p _ ha hb => ⟨.object p, ha, hb⟩) parent parent')
        (attributes.comp hR attributes')
  | typeSet name version members =>
    cases h' with
    | typeSet name' version' members' =>
      exact .typeSet (name.trans name') (version.trans version') fun k =>
        Option.Rel.comp (fun _ t _ ha hb => ⟨t, ha, hb⟩) (members k) (members' k)

theorem equal_bisimulation (s : Store) : s.Bisimulation s.Equal := by
  rintro t u ⟨R, hR, h⟩
  exact (hR t u h).imp_right (Alike.mono fun _ _ h => ⟨R, hR, h⟩)

theorem Equal.refl (s : Store) (t : Ty) : s.Equal t t :=
  ⟨Eq, fun _ _ h => .inl h, rfl⟩

theorem Equal.symm (hs : s.WellFormed) (h : s.Equal t u) : s.Equal u t := by
  refine ⟨flip s.Equal, ?_, h⟩
  intro t u h
  exact (s.equal_bisimulation u t h).imp Eq.symm (Alike.symm hs)

theorem Equal.trans (h : s.Equal t u) (h' : s.Equal u v) : s.Equal t v := by
  refine ⟨Relation.Comp s.Equal s.Equal, ?_, u, h, h'⟩
  rintro t v ⟨u, h, h'⟩
  rcases s.equal_bisimulation t u h with rfl | ha
  · exact (s.equal_bisimulation _ _ h').imp_right (Alike.mono fun _ _ hr => ⟨_, Equal.refl s _, hr⟩)
  · rcases s.equal_bisimulation u v h' with rfl | ha'
    · exact .inr (ha.mono fun _ _ hr => ⟨_, hr, Equal.refl s _⟩)
    · exact .inr (ha.comp (Equal.refl s) ha')

/-- Types that look alike up to equality are equal. -/
theorem Equal.of_alike (h : s.Alike s.Equal t u) : s.Equal t u := by
  refine ⟨fun t u => s.Equal t u ∨ s.Alike s.Equal t u, ?_, .inr h⟩
  rintro t u (h | h)
  · exact (s.equal_bisimulation t u h).imp_right (Alike.mono fun _ _ => .inl)
  · exact .inr (h.mono fun _ _ => .inl)

theorem Equal.eq_basic {b : Basic} (h : s.Equal (.basic b) u) : u = .basic b := by
  rcases s.equal_bisimulation _ _ h with rfl | ha
  · rfl
  · cases ha
    rfl

theorem Equal.exists_former {f : Former} {m : ℕ} (h : s.Equal (.former f t m) u) :
    ∃ v n, u = .former f v n ∧ s.Equal t v := by
  rcases s.equal_bisimulation _ _ h with rfl | ha
  · exact ⟨t, m, rfl, Equal.refl s t⟩
  · cases ha with
    | former parameter => exact ⟨_, _, rfl, parameter⟩

theorem Equal.exists_object {o : ObjectId} (h : s.Equal (.object o) u) : ∃ p, u = .object p := by
  rcases s.equal_bisimulation _ _ h with rfl | ha
  · exact ⟨o, rfl⟩
  · cases ha
    exact ⟨_, rfl⟩

theorem Equal.exists_typeSet {a : SetId} (h : s.Equal (.typeSet a) u) : ∃ b, u = .typeSet b := by
  rcases s.equal_bisimulation _ _ h with rfl | ha
  · exact ⟨a, rfl⟩
  · cases ha
    exact ⟨_, rfl⟩

theorem Equal.variant_eq (h : s.Equal t u) : t.variant = u.variant := by
  rcases s.equal_bisimulation t u h with rfl | ha
  · rfl
  · cases ha <;> rfl

theorem Equal.parents {o p : ObjectId} (h : s.Equal (.object o) (.object p)) :
    Option.Rel (fun a b => s.Equal (.object a) (.object b)) (s.parent? o) (s.parent? p) := by
  rcases s.equal_bisimulation _ _ h with he | ha
  · obtain rfl := Ty.object.inj he
    exact Option.Rel.refl (fun q => Equal.refl s (.object q)) _
  · cases ha with
    | object name parent attributes => exact parent

theorem Equal.set_name {a b : SetId} (h : s.Equal (.typeSet a) (.typeSet b)) :
    (s.set a).name = (s.set b).name := by
  rcases s.equal_bisimulation _ _ h with he | ha
  · rw [Ty.typeSet.inj he]
  · cases ha with
    | typeSet name version members => exact name

variable {o p : ObjectId}

theorem name?_of_isDefault (h : s.isDefault o = true) : s.name? o = none := by
  simp only [isDefault, Bool.or_eq_true, decide_eq_true_eq, Bool.and_eq_true] at h
  rcases h with rfl | ⟨h, _⟩
  · rfl
  · simpa using h

theorem body?_of_isDefault (h : s.isDefault o = true) : ∃ b, s.body? o = some b ∧ b.isEmpty := by
  simp only [isDefault, Bool.or_eq_true, decide_eq_true_eq, Bool.and_eq_true] at h
  rcases h with rfl | ⟨_, h⟩
  · exact ⟨{}, rfl, rfl⟩
  · cases hb : s.body? o with
    | none => simp [hb] at h
    | some b => exact ⟨b, rfl, by simpa [hb] using h⟩

theorem parent?_of_isDefault (h : s.isDefault o = true) : s.parent? o = none := by
  obtain ⟨b, hb, he⟩ := body?_of_isDefault h
  simp only [Body.isEmpty, Bool.and_eq_true] at he
  simpa [parent?, hb] using he.1.1

theorem ownAttributes_of_isDefault (h : s.isDefault o = true) :
    (s.ownAttributes o).entries = [] := by
  obtain ⟨b, hb, he⟩ := body?_of_isDefault h
  simp only [Body.isEmpty, Bool.and_eq_true] at he
  simpa [ownAttributes, hb, Table.isEmpty] using he.1.2

theorem equal_of_isDefault (ho : s.isDefault o = true) (hp : s.isDefault p = true) :
    s.Equal (.object o) (.object p) := by
  refine Equal.of_alike (.object ?_ ?_ ?_)
  · rw [name?_of_isDefault ho, name?_of_isDefault hp]
  · rw [parent?_of_isDefault ho, parent?_of_isDefault hp]
    exact .none
  · rw [ownAttributes_of_isDefault ho, ownAttributes_of_isDefault hp]
    exact .nil

end Store
end TypeLattice
