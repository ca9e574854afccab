import TypeLattice.Proofs.Equality
import TypeLattice.Proofs.ReadingTypes
import TypeLattice.Proofs.Rendering

/-!
# Text gives a type back

What is read from the text of a type is resolved to a type that equals it. Nameless object types
are made anew, so this is about a store that is built on.
-/
namespace TypeLattice.Store

variable {s s' : Store} {r : Resolver} {t u : Ty} {v : Value} {w : Writing}
  {write : Ty → Writing} {o p : ObjectId}

/-- The type is there, and equals the other one from now on. -/
def Means (t : Ty) (s : Store) (u : Ty) : Prop :=
  s.Has u ∧ ∀ s', s.Extends s' → s'.Equal u t

/-- The default value is there, has a literal form, and equals the other one from now on. -/
structure MeansValue (v : Value) (s : Store) (w : Value) : Prop where
  known : ∀ a ∈ w.nodes, s.Knows a
  distinct : w.Distinct
  finite : w.finite = true
  related : ∀ s', s.Extends s' → Value.Related s'.Equal w v

structure MeansAttribute (a : Attribute) (s : Store) (b : Attribute) : Prop where
  type : Means a.type s b.type
  default : Option.Rel (fun w v => MeansValue v s w) b.default a.default

theorem Means.later (h : Means t s u) (hs : s.Extends s') : Means t s' u :=
  ⟨hs.has h.1, fun s'' h' => h.2 s'' (hs.trans h')⟩

theorem MeansValue.later {w : Value} (h : MeansValue v s w) (hs : s.Extends s') :
    MeansValue v s' w :=
  ⟨fun a ha => hs.knows (h.known a ha), h.distinct, h.finite,
    fun s'' h' => h.related s'' (hs.trans h')⟩

theorem MeansAttribute.later {a b : Attribute} (h : MeansAttribute a s b) (hs : s.Extends s') :
    MeansAttribute a s' b :=
  ⟨h.type.later hs, Option.Rel.mono (fun _ _ hv => hv.later hs) h.default⟩

theorem related_literal {R : Ty → Ty → Prop} (h : v.Literal) : Value.Related R v v := by
  induction h with
  | undef => trivial
  | bool | integer | string => rfl
  | @float x finite =>
    cases x
    case finite => simp [Value.Related, Binary64.eq]
    all_goals cases finite
  | @array xs _ ih =>
    rw [Value.Related]
    induction xs with
    | nil => trivial
    | cons x xs ihxs =>
      exact ⟨ih x List.mem_cons_self, ihxs (fun y hy => ‹∀ x ∈ _, _› y (List.mem_cons_of_mem _ hy))
        fun y hy => ih y (List.mem_cons_of_mem _ hy)⟩

theorem meansValue_literal (h : v.Literal) (s : Store) : MeansValue v s v :=
  ⟨by simp [h.nodes_eq_nil], h.distinct, h.finite, fun _ _ => related_literal h⟩

/-- What equals an object type is an object type. -/
theorem Means.exists_object (h : Means (.object o) s u) : ∃ p, u = .object p := by
  rcases s.equal_bisimulation _ _ (h.2 s (.refl s)) with rfl | ha
  · exact ⟨o, rfl⟩
  · cases ha
    exact ⟨_, rfl⟩

open TypeExpr

theorem gives_default (hw : Writable write v)
    (ht : ∀ t, v = .type t → s.Ends ((write t).expr.resolve r) (Means t) False) :
    s.Ends (resolveValue r (v.expr write)) (MeansValue v) False := by
  rcases hw with hl | ⟨t, rfl, _⟩
  · rw [hl.expr_eq, resolveValue]
    exact .pure fun s₁ _ => meansValue_literal hl s₁
  · rw [Value.expr, resolveValue]
    exact (ht t rfl).bind fun s' u _ hu => .pure fun s₁ h₁ =>
      ⟨(hu.later h₁).1, trivial, rfl, (hu.later h₁).2⟩

theorem gives_attribute {a : Attribute}
    (ht : ∀ t ∈ a.types, s.Ends ((write t).expr.resolve r) (Means t) False)
    (hv : ∀ v, a.default = some v → Writable write v) :
    s.Ends (resolveAttribute r (a.expr write)) (MeansAttribute a) False := by
  rw [Attribute.expr, resolveAttribute]
  refine (ht _ a.type_mem_types).bind fun s' u hs' hu => ?_
  have hdefault : s'.Ends (resolveDefault r (a.default.map (Value.expr write)))
      (fun s d => Option.Rel (fun w v => MeansValue v s w) d a.default) False := by
    cases hd : a.default with
    | none =>
      rw [Option.map_none, resolveDefault]
      exact .pure fun _ _ => .none
    | some v =>
      rw [Option.map_some, resolveDefault]
      have hvalue := gives_default (hv v hd) fun t h => ht t (a.mem_types_of_default (h ▸ hd))
      exact (hvalue.later hs').bind fun s₁ v' _ hv' => .pure fun s₂ h₂ => .some (hv'.later h₂)
  exact hdefault.bind fun s₁ d h₁ hd => .pure fun s₂ h₂ =>
    ⟨hu.later (h₁.trans h₂), Option.Rel.mono (fun _ _ hv => hv.later h₂) hd⟩

/-- The attributes of a body mean those of an object type, one by one. -/
def MeansAttributes (es : List (String × Attribute)) (s : Store)
    (bs : List (String × Attribute)) : Prop :=
  List.Forall₂ (fun b e => b.1 = e.1 ∧ MeansAttribute e.2 s b.2) bs es

theorem MeansAttributes.later {es bs : List (String × Attribute)} (h : MeansAttributes es s bs)
    (hs : s.Extends s') : MeansAttributes es s' bs :=
  h.imp fun _ _ hb => ⟨hb.1, hb.2.later hs⟩

theorem gives_attributes {es : List (String × Attribute)}
    (ht : ∀ e ∈ es, ∀ t ∈ e.2.types, s.Ends ((write t).expr.resolve r) (Means t) False)
    (hv : ∀ e ∈ es, ∀ v, e.2.default = some v → Writable write v) :
    s.Ends (resolveAttributes r (es.map fun e => (e.1, e.2.expr write))) (MeansAttributes es)
      False := by
  induction es with
  | nil =>
    rw [List.map_nil, resolveAttributes]
    exact .pure fun _ _ => .nil
  | cons e es ih =>
    have hrest := ih (fun d hd => ht d (List.mem_cons_of_mem _ hd))
      fun d hd => hv d (List.mem_cons_of_mem _ hd)
    have hattribute := gives_attribute (ht e List.mem_cons_self) (hv e List.mem_cons_self)
    have hnamed : s.Ends (resolveNamed r (e.1, e.2.expr write))
        (fun s b => b.1 = e.1 ∧ MeansAttribute e.2 s b.2) False := by
      rw [resolveNamed]
      exact hattribute.bind fun s₁ b _ hb => .pure fun s₂ h₂ => ⟨rfl, hb.later h₂⟩
    rw [List.map_cons, resolveAttributes]
    refine hnamed.bind fun s₁ b h₁ hb => ?_
    exact (hrest.later h₁).bind fun s₂ bs h₂ hbs => .pure fun s₃ h₃ =>
      .cons ⟨hb.1, hb.2.later (h₂.trans h₃)⟩ (MeansAttributes.later hbs h₃)

/-- The body means that of an object type, except for the constructor. -/
structure MeansBody (parent : Option ObjectId) (es : List (String × Attribute)) (s : Store)
    (b : Body Ty) : Prop where
  parent : Option.Rel (fun u p => Means (.object p) s u) b.parent parent
  attributes : MeansAttributes es s b.attributes.entries
  constructor : b.constructor = none

theorem MeansBody.later {parent : Option ObjectId} {es : List (String × Attribute)} {b : Body Ty}
    (h : MeansBody parent es s b) (hs : s.Extends s') : MeansBody parent es s' b :=
  ⟨Option.Rel.mono (fun _ _ hu => hu.later hs) h.parent, h.attributes.later hs, h.constructor⟩

theorem MeansAttributes.keys {es bs : List (String × Attribute)} (h : MeansAttributes es s bs) :
    bs.map (·.1) = es.map (·.1) := by
  induction h with
  | nil => rfl
  | cons hb _ ih => rw [List.map_cons, List.map_cons, hb.1, ih]

theorem gives_body
    (ht : ∀ t ∈ s.parts o, s.Ends ((write t).expr.resolve r) (Means t) False)
    (hv : ∀ e ∈ (s.ownAttributes o).entries, ∀ v, e.2.default = some v → Writable write v) :
    s.Ends
      (resolveBody r
        { parent := (s.parent? o).map fun p => (write (.object p)).expr
          attributes := (s.ownAttributes o).entries.map fun e => (e.1, e.2.expr write) })
      (MeansBody (s.parent? o) (s.ownAttributes o).entries) False := by
  have hparent : s.Ends (resolveOption r ((s.parent? o).map fun p => (write (.object p)).expr))
      (fun s' u => Option.Rel (fun u p => Means (.object p) s' u) u (s.parent? o)) False := by
    cases hp : s.parent? o with
    | none =>
      rw [Option.map_none, resolveOption]
      exact .pure fun _ _ => .none
    | some p =>
      rw [Option.map_some, resolveOption]
      exact (ht _ (parent_mem_parts hp)).bind fun s₁ u _ hu => .pure fun s₂ h₂ =>
        .some (hu.later h₂)
  have hattributes := gives_attributes (fun e he t hte => ht t (types_subset_parts he hte)) hv
  rw [resolveBody]
  refine hparent.bind fun s₁ parent h₁ hp => ?_
  refine (hattributes.later h₁).bind fun s₂ bs h₂ hbs => .pure fun s₃ h₃ => ?_
  have hn : (bs.map (·.1)).Nodup := by
    rw [MeansAttributes.keys hbs]
    exact (s.ownAttributes o).nodup
  refine ⟨Option.Rel.mono (fun _ _ hu => hu.later (h₂.trans h₃)) hp, ?_, rfl⟩
  rw [Table.entries_ofList hn]
  exact hbs.later h₃

/-- An object type with the same body, in writing, equals the one that was written. -/
theorem equal_of_meansBody {b : Body Ty} {parent : Option ObjectId} (hs : s.Extends s')
    (known : s.Knows (.object o)) (nameless : s.name? o = none)
    (hb : MeansBody (s.parent? o) (s.ownAttributes o).entries s' b)
    (hparent : b.parent = parent.map .object) (hname : s'.name? p = none)
    (hp : s'.parent? p = parent) (ha : (s'.ownAttributes p).entries = b.attributes.entries) :
    s'.Equal (.object p) (.object o) := by
  refine Equal.of_alike (.object ?_ ?_ ?_)
  · rw [hname, hs.name o known, nameless]
  · rw [hs.parent? known, hp]
    have hrel := hb.parent
    rw [hparent] at hrel
    cases parent with
    | none =>
      cases h : s.parent? o with
      | none => exact .none
      | some q => simp [h] at hrel
    | some p' =>
      cases h : s.parent? o with
      | none => simp [h] at hrel
      | some q =>
        rw [h] at hrel
        cases hrel with
        | some hq => exact .some (hq.2 s' (.refl s'))
  · rw [hs.ownAttributes known, ha]
    refine hb.attributes.imp fun c d hcd => ⟨hcd.1, hcd.2.type.2 s' (.refl s'), ?_⟩
    exact Option.Rel.mono (fun _ _ hv => hv.related s' (.refl s')) hcd.2.default

theorem MeansAttributes.exists_of_mem {es bs : List (String × Attribute)}
    (h : MeansAttributes es s bs) {c : String × Attribute} (hc : c ∈ bs) :
    ∃ a, MeansAttribute a s c.2 := by
  induction h with
  | nil => cases hc
  | cons hb _ ih =>
    rcases List.mem_cons.1 hc with rfl | hc
    · exact ⟨_, hb.2⟩
    · exact ih hc

theorem MeansAttribute.default_means {a b : Attribute} (h : MeansAttribute a s b)
    (hv : b.default = some v) : ∃ v', MeansValue v' s v := by
  have hrel := h.default
  rw [hv] at hrel
  cases hd : a.default with
  | none => simp [hd] at hrel
  | some v' =>
    rw [hd] at hrel
    cases hrel with
    | some hm => exact ⟨v', hm⟩

theorem fresh_of_meansBody {b : Body Ty} {parent : Option ObjectId}
    {es : List (String × Attribute)} (hb : MeansBody parent es s b) : s.Fresh b := by
  have hparent : ∀ t, b.parent = some t → ∃ p, Means (.object p) s t := by
    intro t ht
    have hrel := hb.parent
    rw [ht] at hrel
    cases parent with
    | none => cases hrel
    | some p =>
      cases hrel with
      | some hm => exact ⟨p, hm⟩
  refine ⟨fun t ht => ?_, fun a ha => ?_, fun e he v hv => ?_, fun e he v hv => ?_⟩
  · obtain ⟨p, hm⟩ := hparent t ht
    exact hm.exists_object
  · rcases List.mem_append.1 ha with ha | ha
    · cases hp : b.parent with
      | none => simp [hp] at ha
      | some t =>
        obtain ⟨p, hm⟩ := hparent t hp
        rw [hp] at ha
        exact hm.1 a ha
    · obtain ⟨e, he, ha⟩ := List.mem_flatMap.1 ha
      obtain ⟨d, hd⟩ := hb.attributes.exists_of_mem he
      rcases List.mem_append.1 ha with ha | ha
      · exact hd.type.1 a ha
      · cases hv : e.2.default with
        | none => simp [hv] at ha
        | some v =>
          obtain ⟨v', hm⟩ := hd.default_means hv
          rw [hv] at ha
          exact hm.known a ha
  · obtain ⟨d, hd⟩ := hb.attributes.exists_of_mem he
    obtain ⟨v', hm⟩ := hd.default_means hv
    exact hm.distinct
  · obtain ⟨d, hd⟩ := hb.attributes.exists_of_mem he
    obtain ⟨v', hm⟩ := hd.default_means hv
    exact hm.finite

theorem gives_newResolved {b : Body Ty} (hs : s.Extends s') (known : s.Knows (.object o))
    (nameless : s.name? o = none)
    (hb : MeansBody (s.parent? o) (s.ownAttributes o).entries s' b) :
    s'.Ends (Building.newResolved none b) (fun s₁ p => Means (.object o) s₁ (.object p)) False := by
  refine .of_ok fun s₁ h₁ hbuilt => ?_
  have hb₁ := hb.later h₁
  rw [run_newResolved]
  split_ifs with he
  · refine ⟨.default, s₁, rfl, .refl s₁, hbuilt, has_object.2 trivial, fun s₂ h₂ => ?_⟩
    simp only [Body.isEmpty, Bool.and_eq_true, Option.isNone_iff_eq_none, Table.isEmpty,
      List.isEmpty_iff] at he
    have hparent : b.parent = (s₂.parent? .default).map .object := he.2.1.1
    exact equal_of_meansBody (hs.trans (h₁.trans h₂)) known nameless (hb₁.later h₂) hparent rfl rfl
      he.2.1.2.symm
  · obtain ⟨parent, s₂, hparent, hbuilt₂, h₂, hresolve, hsize, hname, hbody⟩ :=
      hbuilt.newResolved (fresh_of_meansBody hb₁) none
    have hnew : s₂.Knows (.object (.declared s₁.objects.size)) := by
      show s₁.objects.size < s₂.objects.size
      omega
    refine ⟨.declared s₁.objects.size, s₂, ?_, h₂, hbuilt₂, has_object.2 hnew, fun s₃ h₃ => ?_⟩
    · have hid : (s₁.newObject none).1 = .declared s₁.objects.size := rfl
      rw [hid, hresolve]
    · refine equal_of_meansBody (hs.trans (h₁.trans (h₂.trans h₃))) known nameless
        (hb₁.later (h₂.trans h₃)) hparent ?_ ?_ ?_
      · rw [h₃.name _ hnew, hname]
      · rw [h₃.parent? hnew, parent?, hbody]
        rfl
      · rw [h₃.ownAttributes hnew, ownAttributes, hbody]
        rfl

theorem gives_newFormed (f : Former) (m : ℕ) (hu : Means t s u) :
    s.Ends (Building.newFormed f u) (Means (.former f t m)) False := by
  refine .of_ok fun s₁ h₁ hb => ?_
  have hu := hu.later h₁
  refine ⟨(s₁.newFormed f u).1, (s₁.newFormed f u).2, rfl, ?_⟩
  unfold newFormed
  split_ifs with hany
  · refine ⟨.refl s₁, hb, has_ofVariant (.former f), fun s₂ h₂ => ?_⟩
    have hequal := hu.2 s₂ h₂
    rw [hany] at hequal
    exact Equal.of_alike (.former hequal)
  · refine ⟨.mark s₁, hb.mark, hu.1, fun s₂ h₂ => ?_⟩
    exact Equal.of_alike (.former (hu.2 s₂ ((Extends.mark s₁).trans h₂)))

theorem gives_former {e : TypeExpr} (f : Former) (m : ℕ)
    (h : s.Ends (e.resolve r) (Means t) False) :
    s.Ends (TypeExpr.resolve r (.named f.name [e])) (Means (.former f t m)) False := by
  have hvariant : Variant.ofName? f.name = some (.former f) := Variant.ofName?_name (.former f)
  have harguments : ∀ u, Building.ofArguments (.former f) [.type u] = Building.newFormed f u :=
    fun _ => rfl
  have hlist : ∀ s : Store, s.Ends (resolveList r []) (fun _ ts => ts = []) False := by
    intro s
    rw [resolveList]
    exact .pure fun _ _ => rfl
  rw [TypeExpr.resolve, hvariant]
  refine h.bind fun s₁ u _ hu => (hlist s₁).bind fun s₂ ts h₂ hts => ?_
  subst hts
  rw [List.map_cons, List.map_nil, harguments]
  exact gives_newFormed f m (hu.later h₂)

/-- What is written for a type is resolved to a type that equals it. -/
theorem Writes.gives (h : s.Writes r t w) : s.Ends (w.expr.resolve r) (Means t) False := by
  induction h with
  | named _ resolved known equal =>
    rw [Writing.named, TypeExpr.resolve, resolved]
    exact .pure fun s₁ h₁ => ⟨h₁.has known, fun s₂ h₂ => equal s₂ (h₁.trans h₂)⟩
  | former f m _ ih => exact gives_former f m ih
  | full known nameless parts defaults ih =>
    rw [fullWriting, TypeExpr.resolve]
    refine (gives_body ih defaults).bind fun s₁ b h₁ hb => ?_
    exact (gives_newResolved h₁ known nameless hb).bind fun s₂ p h₂ hp => .pure fun s₃ h₃ =>
      hp.later h₃

/-- A legible type has a text, and what is read from it in the same store is a type that equals it.
All that was there stays as it is. -/
theorem read_text (hb : s.Built) (ht : s.Has t) (hl : s.Legible r t) :
    s.render? t = some (s.text t) ∧
    ∃ u s', TypeExpr.read r (s.text t) s = .ok u s' ∧ s.Extends s' ∧ s'.Built ∧
      s'.equals u t = true := by
  obtain ⟨w, hw, hrender⟩ := hl.exists_writes hb.wellFormed ht
  have htext : s.text t = String.ofList (spell w.lexemes) := by
    rw [text, hrender]
    rfl
  obtain ⟨u, s', hu, hs', hb', _, hequal⟩ := hw.gives.exists_ok hb
  refine ⟨by rw [hrender, htext], u, s', ?_, hs', hb', ?_⟩
  · rw [TypeExpr.read, htext, hw.parse]
    exact hu
  · exact (equals_iff hb'.wellFormed).2 (hequal s' (.refl s'))

/-- A body with an attribute of the object type itself. -/
def nodeBody (Parent : Type) : Body Parent where
  attributes := { entries := [("next", { type := .former .optional (.object (.declared 0)) 1 })] }

/-- A body with a text and a type as default values. -/
def leafBody (Parent : Type) (parent : Parent) : Body Parent where
  parent := some parent
  attributes :=
    { entries :=
        [("it's", { type := .basic .string, default := some (.string "a\\b") }),
          ("kind", { type := .plain .type, default := some (.type (.object (.declared 0))) })]
      nodup := by decide }

/-- An object type that refers to itself, and a nameless one that inherits from it. -/
def family : Store where
  objects := #[⟨some "Node", some (nodeBody _)⟩, ⟨none, some (leafBody _ (.declared 0))⟩]

def familyResolver : Resolver := fun name =>
  if name = "Node" then some (.object (.declared 0)) else Resolver.builtins name

def leaves : Ty := .former .array (.object (.declared 1)) 2

theorem built_family : family.Built := by
  have h0 : Built { objects := #[⟨some "Node", none⟩, ⟨none, none⟩] } :=
    (Built.empty.object (some "Node")).object none
  have h1 : Built { objects := #[⟨some "Node", some (nodeBody _)⟩, ⟨none, none⟩] } :=
    h0.body (o := .declared 0) (b := nodeBody _)
      (by simp [nodeBody, Body.nodes, Attribute.nodes, Ty.nodes, Knows])
      (by simp [nodeBody, Attribute.Distinct]) rfl
  exact h1.body (o := .declared 1) (b := leafBody _ (.object (.declared 0)))
    (by simp [leafBody, Body.nodes, Attribute.nodes, Value.nodes, Ty.nodes, Ty.plain, Knows])
    (by simp [leafBody, Attribute.Distinct, Value.Distinct]) rfl

theorem has_leaves : family.Has leaves := by
  simp [Has, leaves, Ty.nodes, Knows, family]

theorem eq_of_mem_children_family {a : Node} (h : a ∈ family.children (.object (.declared 1))) :
    a = .object (.declared 0) := by
  simpa [children, Store.parent?, Store.ownAttributes, body?, family, leafBody, Attribute.nodes,
    Value.nodes, Ty.nodes, Ty.plain] using h

theorem within_family (h : family.Within o p) (ho : o = .declared 0 ∨ o = .declared 1) :
    o = .declared 1 ∧ p = .declared 0 := by
  obtain ⟨hname, hp⟩ := h
  rcases ho with rfl | rfl
  · cases hname
  · exact ⟨rfl, Node.object.inj (eq_of_mem_children_family hp)⟩

theorem shown_leaves {a : Node} (h : family.Shown leaves a) :
    a = .object (.declared 0) ∨ a = .object (.declared 1) := by
  induction h with
  | leaf mem => exact .inr (by simpa [leaves, Ty.nodes] using mem)
  | @inside o c _ nameless mem ih =>
    have ho : o = .declared 0 ∨ o = .declared 1 := by simpa using ih
    rcases ho with rfl | rfl
    · cases nameless
    · exact .inl (eq_of_mem_children_family mem)

theorem legible_leaves : family.Legible familyResolver leaves where
  acyclic o ho h := by
    have ho : o = .declared 0 ∨ o = .declared 1 := by simpa using shown_leaves ho
    obtain ⟨p, hp, hrest⟩ := Relation.TransGen.head'_iff.1 h
    obtain ⟨rfl, rfl⟩ := within_family hp ho
    obtain h | ⟨q, hq, _⟩ := Relation.ReflTransGen.cases_head hrest
    · cases h
    · cases hq.1
  objects o name ho hname := by
    have ho : o = .declared 0 ∨ o = .declared 1 := by simpa using shown_leaves ho
    rcases ho with rfl | rfl
    · obtain rfl : "Node" = name := Option.some.inj hname
      exact ⟨identifier_of_letters (by decide) (by decide), rfl⟩
    · cases hname
  typeSets a name ha := by
    rcases shown_leaves ha with h | h <;> cases h
  builtins name u hu := by
    by_cases hname : name = "Node"
    · subst hname
      cases hu
    · rw [familyResolver, if_neg hname, hu]
  defaults o ho nameless e he v hv := by
    have ho : o = .declared 0 ∨ o = .declared 1 := by simpa using shown_leaves ho
    rcases ho with rfl | rfl
    · cases nameless
    · have he : e ∈ (leafBody ObjectId (.declared 0)).attributes.entries := he
      simp only [leafBody, List.mem_cons, List.not_mem_nil, or_false] at he
      rcases he with rfl | rfl
      · obtain rfl := Option.some.inj hv
        exact .inl (.string _)
      · obtain rfl := Option.some.inj hv
        exact .inr ⟨_, rfl, by decide⟩

theorem leaves_reads_back : family.Built ∧ family.Has leaves ∧ family.Legible familyResolver leaves ∧
    ∃ u s', TypeExpr.read familyResolver (family.text leaves) family = .ok u s' ∧
      s'.equals u leaves = true := by
  obtain ⟨_, u, s', hu, _, _, hequal⟩ := read_text built_family has_leaves legible_leaves
  exact ⟨built_family, has_leaves, legible_leaves, u, s', hu, hequal⟩

example : family.text leaves =
    "Array[Object[\x7bparent => Node, attributes => \x7b'it\\'s' => \x7btype => String, " ++
      "value => 'a\\\\b'\x7d, 'kind' => \x7btype => Type, value => Node\x7d\x7d\x7d]]" := by
  decide +kernel

end TypeLattice.Store
