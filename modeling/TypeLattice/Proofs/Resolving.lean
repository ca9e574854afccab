import TypeLattice.Proofs.Denotation
import TypeLattice.Proofs.Runs

/-!
# Resolving gives what is denoted

Resolving an expression gives a type that the expression denotes, and fails only if the expression
denotes nothing: not here, nor in any store under a resolver that knows the same names. Both are
said at once, by what holds after success and what holds after failure.
-/
namespace TypeLattice

open Runs

variable {s s' S : Store} {r r' : Resolver}

namespace TypeExpr

section Parts

variable {D : Store → TypeExpr → Ty → Prop} {D' : TypeExpr → Ty → Prop}

/-- Resolving `e` gives what it denotes in `D`, or it denotes nothing in `D'`. -/
def Finds (s : Store) (r : Resolver) (D : Store → TypeExpr → Ty → Prop) (D' : TypeExpr → Ty → Prop)
    (e : TypeExpr) : Prop :=
  s.Ends (e.resolve r) (fun s' => D s' e) (¬∃ t, D' e t)

theorem ends_resolveDefault {d : Option (DefaultExpr TypeExpr)}
    (h : ∀ e ∈ (d.map DefaultExpr.parts).getD [], Finds s r D D' e) :
    s.Ends (resolveDefault r d) (fun s' => Option.Rel (DefaultExpr.Stands (D s')) d)
      (¬∃ v, Option.Rel (DefaultExpr.Stands D') d v) := by
  rcases d with _ | v | e
  · rw [resolveDefault]
    exact .pure fun _ _ => .none
  · rw [resolveDefault, resolveValue]
    exact .pure fun _ _ => .some (.literal v)
  · rw [resolveDefault, resolveValue]
    have hvalue : s.Ends (do return Value.type (← e.resolve r))
        (fun s' => DefaultExpr.Stands (D s') (.type e)) (¬∃ t, D' e t) :=
      (h e (by simp [DefaultExpr.parts])).map (fun _ _ _ ht => .type ht) id
    refine hvalue.map (fun _ _ _ hv => .some hv) ?_
    rintro hnone ⟨_, hv⟩
    cases hv with
    | some hv =>
      cases hv with
      | type ht => exact hnone ⟨_, ht⟩

variable (later : ∀ s s' e t, s.Extends s' → D s e t → D s' e t)

include later

theorem ends_resolveAttribute {d : AttributeDecl TypeExpr} (h : ∀ e ∈ d.parts, Finds s r D D' e) :
    s.Ends (resolveAttribute r d) (fun s' => d.Stands (D s')) (¬∃ a, d.Stands D' a) := by
  obtain ⟨e, d⟩ := d
  rw [resolveAttribute]
  have htype := (h e List.mem_cons_self).imp_failure
    (G := ¬∃ a, AttributeDecl.Stands D' ⟨e, d⟩ a) (by
      rintro hnone ⟨_, ⟨type, _⟩⟩
      exact hnone ⟨_, type⟩)
  refine htype.bind fun s₁ t h₁ ht => ?_
  have hdefault := ends_resolveDefault fun e he => (h e (List.mem_cons_of_mem _ he)).later h₁
  refine hdefault.map (fun s₂ v h₂ hv => .mk (later _ _ _ _ h₂ ht) hv) ?_
  rintro hnone ⟨_, ⟨_, default⟩⟩
  exact hnone ⟨_, default⟩

theorem ends_resolveAttributes {ds : List (String × AttributeDecl TypeExpr)}
    (h : ∀ e ∈ ds.flatMap (·.2.parts), Finds s r D D' e) :
    s.Ends (resolveAttributes r ds) (fun s' => List.Forall₂ (NamedStands (D s')) ds)
      (¬∃ as, List.Forall₂ (NamedStands D') ds as) := by
  induction ds with
  | nil =>
    rw [resolveAttributes]
    exact .pure fun _ _ => .nil
  | cons d ds ih =>
    obtain ⟨k, d⟩ := d
    rw [List.flatMap_cons, List.forall_mem_append] at h
    rw [resolveAttributes, resolveNamed]
    have hfirst : s.Ends (do return (k, ← resolveAttribute r d))
        (fun s' => NamedStands (D s') (k, d))
        (¬∃ as, List.Forall₂ (NamedStands D') ((k, d) :: ds) as) := by
      refine (ends_resolveAttribute later h.1).map (fun _ _ _ ha => .mk ha) ?_
      rintro hnone ⟨_, hall⟩
      cases hall with
      | cons ha _ => cases ha with | mk ha => exact hnone ⟨_, ha⟩
    refine hfirst.bind fun s₁ a h₁ ha => ?_
    refine ((ih h.2).later h₁).map (fun s₂ as h₂ has => .cons ?_ has) ?_
    · cases ha with
      | mk ha => exact .mk (ha.mono fun e _ t => later _ _ e t h₂)
    · rintro hnone ⟨_, hall⟩
      cases hall with
      | cons _ has => exact hnone ⟨_, has⟩

theorem ends_resolveBody {d : ObjectDecl} (h : ∀ e ∈ d.parts, Finds s r D D' e) :
    s.Ends (resolveBody r d) (fun s' => d.Stands (D s')) (¬∃ b, d.Stands D' b) := by
  obtain ⟨name, e, ds, constructor⟩ := d
  simp only [Declaration.parts, List.forall_mem_append] at h
  rw [resolveBody]
  have hparent : s.Ends (resolveOption r e) (fun s' => Option.Rel (D s') e)
      (¬∃ b, Declaration.Stands D' ⟨name, e, ds, constructor⟩ b) := by
    cases e with
    | none =>
      rw [resolveOption]
      exact .pure fun _ _ => .none
    | some e =>
      rw [resolveOption]
      refine (h.1 e (by simp)).map (fun _ _ _ ht => .some ht) ?_
      rintro hnone ⟨_, hbody⟩
      cases hbody with
      | mk ht _ => cases ht with | some ht => exact hnone ⟨_, ht⟩
  refine hparent.bind fun s₁ t h₁ ht => ?_
  refine ((ends_resolveAttributes later h.2).later h₁).map (fun s₂ as h₂ has => .mk ?_ has) ?_
  · exact Option.Rel.mono (fun e t => later _ _ e t h₂) ht
  · rintro hnone ⟨_, ⟨_, has⟩⟩
    exact hnone ⟨_, has⟩

end Parts
end TypeExpr

def DefaultExpr.literals {Expr : Type} : DefaultExpr Expr → List Value
  | .literal v => [v]
  | .type _ => []

/-- The values that a declaration holds itself. -/
def Declaration.literals {Expr : Type} (d : Declaration Expr) : List Value :=
  d.attributes.flatMap fun a => (a.2.default.map DefaultExpr.literals).getD []

/-- The value is in a declaration somewhere in the expression. -/
inductive TypeExpr.HasLiteral (v : Value) : TypeExpr → Prop
  | parameter {n : String} {es : List TypeExpr} {e : TypeExpr} (mem : e ∈ es)
      (inside : HasLiteral v e) : HasLiteral v (.named n es)
  | own {d : ObjectDecl} (mem : v ∈ d.literals) : HasLiteral v (.object d)
  | part {d : ObjectDecl} {e : TypeExpr} (mem : e ∈ d.parts) (inside : HasLiteral v e) :
      HasLiteral v (.object d)

@[simp] theorem TypeExpr.hasLiteral_named {v : Value} {n : String} {es : List TypeExpr} :
    HasLiteral v (.named n es) ↔ ∃ e ∈ es, HasLiteral v e := by
  constructor
  · rintro ⟨mem, inside⟩
    exact ⟨_, mem, inside⟩
  · rintro ⟨e, mem, inside⟩
    exact .parameter mem inside

@[simp] theorem TypeExpr.hasLiteral_object {v : Value} {d : ObjectDecl} :
    HasLiteral v (.object d) ↔ v ∈ d.literals ∨ ∃ e ∈ d.parts, HasLiteral v e := by
  constructor
  · rintro (_ | mem | ⟨mem, inside⟩)
    · exact .inl mem
    · exact .inr ⟨_, mem, inside⟩
  · rintro (mem | ⟨e, mem, inside⟩)
    · exact .own mem
    · exact .part mem inside

theorem Body.eq_empty {b : Body Ty} (h : b.isEmpty = true) : b = Body.asked {} := by
  obtain ⟨parent, ⟨entries, nodup⟩, constructor⟩ := b
  simp only [Body.isEmpty, Bool.and_eq_true, Option.isNone_iff_eq_none, Table.isEmpty,
    List.isEmpty_iff] at h
  obtain ⟨⟨rfl, rfl⟩, rfl⟩ := h
  rfl

namespace Store

variable {D : TypeExpr → Ty → Prop} {d : ObjectDecl} {b : Body Ty}

/-- The value refers to what is there. -/
structure HasValue (s : Store) (v : Value) : Prop where
  knows : ∀ a ∈ v.nodes, s.Knows a
  distinct : v.Distinct

theorem HasValue.later {v : Value} (h : s.HasValue v) (hs : s.Extends s') : s'.HasValue v :=
  ⟨fun a ha => hs.knows (h.knows a ha), h.distinct⟩

theorem hasValue_of_stands {d : DefaultExpr TypeExpr} {v : Value} (h : d.Stands D v)
    (hD : ∀ e t, D e t → s.Has t) (hl : ∀ w ∈ d.literals, s.HasValue w) : s.HasValue v := by
  cases h with
  | literal v => exact hl v List.mem_cons_self
  | type ht => exact ⟨hD _ _ ht, trivial⟩

theorem knows_of_stands_attribute {d : AttributeDecl TypeExpr} {a : Attribute} (h : d.Stands D a)
    (hD : ∀ e t, D e t → s.Has t)
    (hl : ∀ w ∈ (d.default.map DefaultExpr.literals).getD [], s.HasValue w) :
    (∀ c ∈ a.nodes, s.Knows c) ∧ a.Distinct := by
  cases h with
  | mk type default =>
    cases default with
    | none =>
      refine ⟨fun c hc => hD _ _ type c ?_, by simp [Attribute.Distinct]⟩
      simpa [Attribute.nodes] using hc
    | some hd =>
      have hv := hasValue_of_stands hd hD hl
      refine ⟨fun c hc => ?_, by simpa [Attribute.Distinct] using hv.distinct⟩
      rcases List.mem_append.1 hc with hc | hc
      · exact hD _ _ type c hc
      · exact hv.knows c hc

/-- A body that stands for a declaration refers to what is there. -/
theorem knows_of_stands (h : d.Stands D b) (hD : ∀ e t, D e t → s.Has t)
    (hl : ∀ v ∈ d.literals, s.HasValue v) :
    (∀ c ∈ b.nodes, s.Knows c) ∧ ∀ e ∈ b.attributes.entries, e.2.Distinct := by
  cases h with
  | @mk _ e t ds as _ parent attributes =>
    have has : ∀ a ∈ as, (∀ c ∈ a.2.nodes, s.Knows c) ∧ a.2.Distinct := by
      simp only [Declaration.literals] at hl
      induction attributes with
      | nil => simp
      | cons ha _ ih =>
        rw [List.flatMap_cons, List.forall_mem_append] at hl
        cases ha with
        | mk ha =>
          exact List.forall_mem_cons.2 ⟨knows_of_stands_attribute ha hD hl.1, ih hl.2⟩
    refine ⟨fun c hc => ?_, fun e he => (has e (Table.mem_of_mem_ofList he)).2⟩
    rcases List.mem_append.1 hc with hc | hc
    · cases parent with
      | none => simp at hc
      | some hp => exact hD _ _ hp c hc
    · obtain ⟨a, ha, hc⟩ := List.mem_flatMap.1 hc
      exact (has a (Table.mem_of_mem_ofList ha)).1 c hc

theorem badDefault?_eq_none_iff {attributes : Table Attribute} :
    badDefault? attributes = none ↔
      ∀ e ∈ attributes.entries, ∀ v, e.2.default = some v → v.finite = true := by
  simp only [badDefault?, List.findSome?_eq_none_iff]
  refine forall₂_congr fun e _ => ?_
  cases e.2.default <;> simp

/-- What resolution asks of a body, apart from the line of its parent. -/
structure Proper (b : Body Ty) : Prop where
  parent : ∀ t, b.parent = some t → t.variant = .object
  literal : badDefault? b.attributes = none

theorem Proper.exists_parent (h : Proper b) {t : Ty} (ht : b.parent = some t) :
    ∃ p, t = .object p := by
  have := h.parent t ht
  cases t with
  | object p => exact ⟨p, rfl⟩
  | _ => cases this

theorem proper_of_resolve {o : ObjectId} (h : s.resolve o b = .ok s') : Proper b := by
  obtain ⟨parent, hparent, hliteral, _⟩ := resolve_eq_ok_iff.1 h
  refine ⟨fun t ht => ?_, hliteral⟩
  rw [(checkParent_eq_ok_iff.1 hparent).1] at ht
  obtain ⟨p, _, rfl⟩ := Option.map_eq_some_iff.1 ht
  rfl

/-- Bodies that match are proper together. -/
theorem Proper.of_matched {c : Body Ty} (h : Proper c)
    (hm : c.Matched (fun t u => t.variant = u.variant) b) : Proper b where
  parent t ht := by
    obtain ⟨u, hu, hv⟩ := Option.Rel.exists_left (ht ▸ hm.parent)
    exact hv.symm.trans (h.parent u hu)
  literal := by
    have hfinite := badDefault?_eq_none_iff.1 h.literal
    have hentries := hm.attributes
    rw [badDefault?_eq_none_iff]
    generalize c.attributes.entries = es at hfinite hentries
    generalize b.attributes.entries = fs at hentries
    induction hentries with
    | nil => simp
    | @cons a e _ _ hae _ ih =>
      rw [List.forall_mem_cons] at hfinite ⊢
      refine ⟨fun v hv => ?_, ih hfinite.2⟩
      obtain ⟨w, hw, hmatched⟩ := Option.Rel.exists_left (hv ▸ hae.2.default)
      cases hmatched with
      | same => exact hfinite.1 v hw
      | type => rfl

/-- The denotation of a declaration has a proper body. -/
theorem proper_asked {c : Body ObjectId} (h : badDefault? c.attributes = none) :
    Proper c.asked where
  parent t ht := by
    obtain ⟨p, _, rfl⟩ := Option.map_eq_some_iff.1 ht
    rfl
  literal := h

theorem Proper.fresh (h : Proper b) (known : ∀ a ∈ b.nodes, s.Knows a)
    (distinct : ∀ e ∈ b.attributes.entries, e.2.Distinct) : s.Fresh b :=
  ⟨fun _ => h.exists_parent, known, distinct, badDefault?_eq_none_iff.1 h.literal⟩

theorem asked_withParent {parent : Option ObjectId} (h : b.parent = parent.map .object) :
    (b.withParent parent).asked = b := by
  obtain ⟨p, attributes, constructor⟩ := b
  cases h
  rfl

end Store

namespace TypeExpr

open Store

/-- The type is in the store and is denoted by the expression. -/
abbrev Found (r : Resolver) (s : Store) (e : TypeExpr) (t : Ty) : Prop := s.Has t ∧ s.Denotes r e t

theorem found_later (s s' : Store) (e : TypeExpr) (t : Ty) (hs : s.Extends s')
    (h : Found r s e t) : Found r s' e t :=
  ⟨hs.has h.1, h.2.later hs.grows⟩

theorem ends_resolveList {es : List TypeExpr} {D : Store → TypeExpr → Ty → Prop}
    {D' : TypeExpr → Ty → Prop} (h : ∀ e ∈ es, Finds s r D D' e) :
    s.Ends (resolveList r es) (fun _ ts => ts.length = es.length) True := by
  induction es with
  | nil =>
    rw [resolveList]
    exact .pure fun _ _ => rfl
  | cons e es ih =>
    rw [resolveList]
    refine ((h e List.mem_cons_self).imp_failure fun _ => trivial).bind fun s₁ t h₁ _ => ?_
    have hrest := ih fun e he => h e (List.mem_cons_of_mem _ he)
    exact (hrest.later h₁).map (fun _ ts _ hts => by simp [hts]) id

theorem has_formed {f : Former} {t : Ty} (ht : s.Has t) (m : ℕ) : s.Has (.formed f t m) := by
  obtain ⟨n, hn⟩ := Ty.formed_eq f t m
  rw [hn]
  exact ht

theorem run_newFormed (s : Store) (f : Former) (t : Ty) :
    ∃ m s', Building.newFormed f t s = .ok (.formed f t m) s' ∧ s.Extends s' ∧
      (s.Built → s'.Built) := by
  have hrun : Building.newFormed f t s = .ok (s.newFormed f t).1 (s.newFormed f t).2 := rfl
  rw [hrun]
  unfold Store.newFormed
  split_ifs with h
  · exact ⟨0, s, by simp [Ty.formed, Ty.plain, h], .refl s, id⟩
  · have hformed : Ty.formed f t s.nextMark = .former f t s.nextMark := if_neg h
    exact ⟨s.nextMark, s.freshMark.2, by rw [hformed]; rfl, .mark s, .mark⟩

theorem ends_newFormed {n : String} {f : Former} {e : TypeExpr} {t : Ty} {F : Prop}
    (hn : Variant.ofName? n = some (.former f)) (ht : Found r s e t) :
    s.Ends (Building.newFormed f t) (fun s' u => s'.Has u ∧ s'.Denotes r (.named n [e]) u) F := by
  intro s₁ h₁ hb
  obtain ⟨m, s₂, hrun, h₂, hb₂⟩ := run_newFormed s₁ f t
  have hs := h₁.trans h₂
  rw [hrun]
  exact ⟨h₂, hb₂ hb, has_formed (hs.has ht.1) m, .former m hn (ht.2.later hs.grows)⟩

variable (hr : ∀ n, Option.Rel (fun t u => t.variant = u.variant) (r' n) (r n))

include hr

/-- A body that stands for a declaration is proper if the declaration has a proper body anywhere. -/
theorem proper_of_stands {d : ObjectDecl} {b c : Body Ty} (h : d.Stands (s.Denotes r) b)
    (hS : d.Stands (S.Denotes r') c) (hc : Proper c) : Proper b :=
  hc.of_matched (hS.matched h fun _ _ _ _ ht hu => ht.variant_eq hu hr)

theorem ends_newResolved {d : ObjectDecl} {b : Body Ty} (hbody : d.Stands (Found r s) b)
    (hl : ∀ v ∈ d.literals, s.HasValue v) :
    s.Ends (Building.newResolved d.name b)
      (fun s' o => s'.Knows (.object o) ∧ s'.Denotes r (.object d) (.object o))
      (¬∃ t, S.Denotes r' (.object d) t) := by
  intro s₁ h₁ hb
  have hstands : d.Stands (Found r s₁) b := hbody.mono fun e _ t => found_later _ _ e t h₁
  have hdenotes : d.Stands (s₁.Denotes r) b := hstands.mono fun _ _ _ ht => ht.2
  obtain ⟨known, distinct⟩ :=
    knows_of_stands hstands (fun _ _ ht => ht.1) fun v hv => (hl v hv).later h₁
  rw [run_newResolved]
  split_ifs with he
  · refine ⟨.refl s₁, hb, trivial, .object (b := {}) ?_ rfl ?_ rfl⟩
    · exact (Option.isNone_iff_eq_none.1 he.1).symm
    · rwa [← Body.eq_empty he.2]
  · have hnew : Proper b → _ := fun hp => hb.newResolved (hp.fresh known distinct) d.name
    cases hres : (s₁.newObject d.name).2.resolve (s₁.newObject d.name).1 b with
    | error e =>
      refine ⟨.newObject s₁ d.name, .object hb d.name, ?_⟩
      rintro ⟨_, ht⟩
      cases ht with
      | object name body stands literal =>
        have hproper := proper_of_stands hr hdenotes stands (proper_asked literal)
        obtain ⟨_, s₂, _, _, _, hok, _⟩ := hnew hproper
        exact nomatch hres.symm.trans hok
    | ok s₂ =>
      obtain ⟨parent, s₂', hparent, hb₂, h₂, hok, hsize, hname, hbody⟩ :=
        hnew (proper_of_resolve hres)
      obtain rfl : s₂ = s₂' := Except.ok.inj (hres.symm.trans hok)
      refine ⟨h₂, hb₂, ?_, .object hname hbody ?_ (proper_of_resolve hres).literal⟩
      · show s₁.objects.size < s₂.objects.size
        omega
      · rw [asked_withParent hparent]
        exact hdenotes.mono fun _ _ _ ht => ht.later h₂.grows

theorem finds_name (hknown : ∀ n t, r n = some t → s.Has t) (n : String) :
    Finds s r (Found r) (S.Denotes r') (.named n []) := by
  rw [Finds, resolve]
  cases hn : r n with
  | some t => exact .pure fun s₁ h₁ => ⟨h₁.has (hknown n t hn), .name hn⟩
  | none =>
    refine .throw _ ?_
    rintro ⟨t, ht⟩
    cases ht with
    | name resolved =>
      have := hr n
      simp [hn, resolved] at this

omit hr in
/-- Only a former takes a parameter, and it takes one. -/
theorem finds_parameterized {n : String} {e : TypeExpr} {es : List TypeExpr}
    (h : ∀ x ∈ e :: es, Finds s r (Found r) (S.Denotes r') x) :
    Finds s r (Found r) (S.Denotes r') (.named n (e :: es)) := by
  rw [Finds, resolve]
  cases hv : Variant.ofName? n with
  | none =>
    refine .throw _ ?_
    rintro ⟨t, ht⟩
    cases ht with
    | former m variant parameter => simp [hv] at variant
  | some v =>
    have hfirst := (h e List.mem_cons_self).imp_failure
      (G := ¬∃ t, S.Denotes r' (.named n (e :: es)) t) (by
        rintro hnone ⟨_, ht⟩
        cases ht with
        | former m variant parameter => exact hnone ⟨_, parameter⟩)
    refine hfirst.bind fun s₁ t h₁ ht => ?_
    cases es with
    | nil =>
      rw [resolveList]
      show s₁.Ends (Building.ofArguments v [.type t]) _ _
      cases v with
      | former f => exact ends_newFormed hv ht
      | basic | object | typeSet =>
        refine .throw _ ?_
        rintro ⟨_, ht⟩
        cases ht with
        | former m variant parameter => simp [hv] at variant
    | cons e' es =>
      have hnone : ¬∃ t, S.Denotes r' (.named n (e :: e' :: es)) t := by
        rintro ⟨_, ht⟩
        cases ht
      have hrest := ends_resolveList fun e he => (h e (List.mem_cons_of_mem _ he)).later h₁
      refine (hrest.imp_failure fun _ => hnone).bind fun s₂ ts h₂ hts => ?_
      obtain ⟨t', ts, rfl⟩ := List.exists_cons_of_length_eq_add_one hts
      cases v <;> exact .throw _ hnone

theorem finds_object {d : ObjectDecl}
    (h : ∀ x ∈ d.parts, Finds s r (Found r) (S.Denotes r') x)
    (hl : ∀ v ∈ d.literals, s.HasValue v) :
    Finds s r (Found r) (S.Denotes r') (.object d) := by
  rw [Finds, resolve]
  have hbody := (ends_resolveBody found_later h).imp_failure
    (G := ¬∃ t, S.Denotes r' (.object d) t) (by
      rintro hnone ⟨_, ht⟩
      cases ht with
      | object name body stands literal => exact hnone ⟨_, stands⟩)
  refine hbody.bind fun s₁ b h₁ hb => ?_
  have hnew : s₁.Ends _ _ (¬∃ t, S.Denotes r' (.object d) t) :=
    ends_newResolved hr hb fun v hv => (hl v hv).later h₁
  exact hnew.map (fun _ o _ ho => ⟨has_object.2 ho.1, ho.2⟩) id

/-- Resolving an expression gives a type that it denotes, or else it denotes nothing. -/
theorem finds (hknown : ∀ n t, r n = some t → s.Has t) {e : TypeExpr}
    (hl : ∀ v, e.HasLiteral v → s.HasValue v) :
    Finds s r (Found r) (S.Denotes r') e := by
  induction e with
  | named n es ih =>
    cases es with
    | nil => exact finds_name hr hknown n
    | cons e es =>
      exact finds_parameterized fun x hx => ih x hx fun v hv => hl v (.parameter hx hv)
  | object d ih =>
    exact finds_object hr (fun x hx => ih x hx fun v hv => hl v (.part hx hv))
      fun v hv => hl v (.own hv)

end TypeExpr
end TypeLattice
