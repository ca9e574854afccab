import TypeLattice.Proofs.Frames

/-!
# What expressions denote

A type expression denotes types in a store: a name what its resolver says, a former a type of that
former, a declaration an object type whose body stands for the declared one.
-/
namespace TypeLattice

variable {Expr : Type}

/-- A former on its parameter has some mark, whatever the parameter is. -/
theorem Ty.formed_eq (f : Former) (t : Ty) (m : ℕ) : ∃ n, Ty.formed f t m = .former f t n := by
  unfold Ty.formed
  split_ifs
  · exact ⟨0, rfl⟩
  · exact ⟨m, rfl⟩

/-- The body with its parent as a type. -/
def Body.asked (b : Body ObjectId) : Body Ty := b.withParent (b.parent.map .object)

/-- A value stands for a declared one, given what expressions denote. -/
inductive DefaultExpr.Stands (D : Expr → Ty → Prop) : DefaultExpr Expr → Value → Prop
  | literal (v : Value) : Stands D (.literal v) v
  | type {e : Expr} {t : Ty} (type : D e t) : Stands D (.type e) (.type t)

inductive AttributeDecl.Stands (D : Expr → Ty → Prop) : AttributeDecl Expr → Attribute → Prop
  | mk {e : Expr} {t : Ty} {d : Option (DefaultExpr Expr)} {v : Option Value} (type : D e t)
      (default : Option.Rel (DefaultExpr.Stands D) d v) : Stands D ⟨e, d⟩ ⟨t, v⟩

/-- An attribute stands for a declared one of its name. -/
inductive NamedStands (D : Expr → Ty → Prop) :
    String × AttributeDecl Expr → String × Attribute → Prop
  | mk {k : String} {d : AttributeDecl Expr} {a : Attribute} (stands : d.Stands D a) :
      NamedStands D (k, d) (k, a)

/-- A body stands for a declaration. Of several attributes with one name it has the last one. -/
inductive Declaration.Stands (D : Expr → Ty → Prop) : Declaration Expr → Body Ty → Prop
  | mk {name : Option String} {e : Option Expr} {t : Option Ty}
      {ds : List (String × AttributeDecl Expr)} {as : List (String × Attribute)}
      {constructor : Option Constructor} (parent : Option.Rel D e t)
      (attributes : List.Forall₂ (NamedStands D) ds as) :
      Stands D ⟨name, e, ds, constructor⟩ ⟨t, Table.ofList as, constructor⟩

/-- The type is denoted by the expression. An object type has literal default values only. -/
inductive Store.Denotes (s : Store) (r : Resolver) : TypeExpr → Ty → Prop
  | name {n : String} {t : Ty} (resolved : r n = some t) : Denotes s r (.named n []) t
  | former {n : String} {f : Former} {e : TypeExpr} {t : Ty} (m : ℕ)
      (variant : Variant.ofName? n = some (.former f)) (parameter : Denotes s r e t) :
      Denotes s r (.named n [e]) (.formed f t m)
  | object {d : ObjectDecl} {o : ObjectId} {b : Body ObjectId} (name : s.name? o = d.name)
      (body : s.body? o = some b) (stands : d.Stands (Denotes s r) b.asked)
      (literal : Store.badDefault? b.attributes = none) : Denotes s r (.object d) (.object o)

section Related

variable {α β : Type} {P : α → β → Prop} {es : List (String × α)} {fs : List (String × β)}

/-- Related entries under the same names in the same order. -/
def EntriesRelated (P : α → β → Prop) : List (String × α) → List (String × β) → Prop :=
  List.Forall₂ fun a b => a.1 = b.1 ∧ P a.2 b.2

theorem EntriesRelated.put (h : EntriesRelated P es fs) (k : String) {v : α} {w : β}
    (hvw : P v w) : EntriesRelated P (put k v es) (put k w fs) := by
  induction h with
  | nil => exact .cons ⟨rfl, hvw⟩ .nil
  | @cons a b es fs hab hrest ih =>
    by_cases hk : a.1 = k
    · simp only [TypeLattice.put, hk, hab.1 ▸ hk, if_true]
      exact .cons ⟨rfl, hvw⟩ hrest
    · simp only [TypeLattice.put, hk, hab.1 ▸ hk, if_false]
      exact .cons hab ih

theorem EntriesRelated.ofList (h : EntriesRelated P es fs) :
    EntriesRelated P (Table.ofList es).entries (Table.ofList fs).entries := by
  have key : ∀ gs hs, EntriesRelated P gs hs → EntriesRelated P
      (es.foldl (fun gs e => TypeLattice.put e.1 e.2 gs) gs)
      (fs.foldl (fun gs e => TypeLattice.put e.1 e.2 gs) hs) := by
    induction h with
    | nil => exact fun _ _ h => h
    | cons hab _ ih =>
      intro gs hs hgs
      refine ih _ _ ?_
      dsimp only
      rw [hab.1]
      exact hgs.put _ hab.2
  rw [Table.ofList, Table.ofList, Table.entries_foldl_insert, Table.entries_foldl_insert]
  exact key [] [] .nil

end Related

/-- The same value, or related types. -/
inductive Value.Matched (R : Ty → Ty → Prop) : Value → Value → Prop
  | same (v : Value) : Matched R v v
  | type {t u : Ty} (type : R t u) : Matched R (.type t) (.type u)

structure Attribute.Matched (R : Ty → Ty → Prop) (a b : Attribute) : Prop where
  type : R a.type b.type
  default : Option.Rel (Value.Matched R) a.default b.default

structure Body.Matched (R : Ty → Ty → Prop) (b c : Body Ty) : Prop where
  parent : Option.Rel R b.parent c.parent
  attributes : EntriesRelated (Attribute.Matched R) b.attributes.entries c.attributes.entries
  constructor : b.constructor = c.constructor

section Stands

variable {D D' : Expr → Ty → Prop} {R : Ty → Ty → Prop}

theorem DefaultExpr.Stands.matched {d : DefaultExpr Expr} {v w : Value} (h : d.Stands D v)
    (h' : d.Stands D' w) (hR : ∀ e ∈ d.parts, ∀ t u, D e t → D' e u → R t u) : v.Matched R w := by
  cases h with
  | literal v =>
    cases h'
    exact .same v
  | type ht =>
    cases h' with
    | type ht' => exact .type (hR _ List.mem_cons_self _ _ ht ht')

theorem AttributeDecl.Stands.matched {d : AttributeDecl Expr} {a b : Attribute}
    (h : d.Stands D a) (h' : d.Stands D' b)
    (hR : ∀ e ∈ d.parts, ∀ t u, D e t → D' e u → R t u) : a.Matched R b := by
  cases h with
  | mk type default =>
    cases h' with
    | mk type' default' =>
      refine ⟨hR _ List.mem_cons_self _ _ type type', ?_⟩
      cases default with
      | none =>
        cases default'
        exact .none
      | some hd =>
        cases default' with
        | some hd' =>
          exact .some (hd.matched hd' fun e he => hR e (List.mem_cons_of_mem _ he))

/-- Two bodies that stand for one declaration match. -/
theorem Declaration.Stands.matched {d : Declaration Expr} {b c : Body Ty} (h : d.Stands D b)
    (h' : d.Stands D' c) (hR : ∀ e ∈ d.parts, ∀ t u, D e t → D' e u → R t u) : b.Matched R c := by
  cases h with
  | @mk _ e t ds as _ parent attributes =>
    cases h' with
    | @mk _ _ u _ bs _ parent' attributes' =>
      simp only [parts, List.forall_mem_append] at hR
      refine ⟨?_, EntriesRelated.ofList ?_, rfl⟩
      · cases parent with
        | none =>
          cases parent'
          exact .none
        | some hp =>
          cases parent' with
          | some hp' => exact .some (hR.1 _ (by simp) _ _ hp hp')
      · obtain ⟨-, hR⟩ := hR
        show EntriesRelated _ as bs
        induction attributes generalizing bs with
        | nil =>
          cases attributes'
          exact .nil
        | cons ha _ ih =>
          rw [List.flatMap_cons, List.forall_mem_append] at hR
          cases attributes' with
          | cons hb hrest =>
            cases ha with
            | mk ha =>
              cases hb with
              | mk hb => exact .cons ⟨rfl, ha.matched hb hR.1⟩ (ih hrest hR.2)

theorem DefaultExpr.Stands.mono {d : DefaultExpr Expr} {v : Value} (h : d.Stands D v)
    (hD : ∀ e ∈ d.parts, ∀ t, D e t → D' e t) : d.Stands D' v := by
  cases h with
  | literal v => exact .literal v
  | type ht => exact .type (hD _ List.mem_cons_self _ ht)

theorem AttributeDecl.Stands.mono {d : AttributeDecl Expr} {a : Attribute} (h : d.Stands D a)
    (hD : ∀ e ∈ d.parts, ∀ t, D e t → D' e t) : d.Stands D' a := by
  cases h with
  | mk type default =>
    refine .mk (hD _ List.mem_cons_self _ type) ?_
    cases default with
    | none => exact .none
    | some hd => exact .some (hd.mono fun e he => hD e (List.mem_cons_of_mem _ he))

theorem Declaration.Stands.mono {d : Declaration Expr} {b : Body Ty} (h : d.Stands D b)
    (hD : ∀ e ∈ d.parts, ∀ t, D e t → D' e t) : d.Stands D' b := by
  cases h with
  | mk parent attributes =>
    simp only [parts, List.forall_mem_append] at hD
    refine .mk ?_ ?_
    · cases parent with
      | none => exact .none
      | some hp => exact .some (hD.1 _ (by simp) _ hp)
    · obtain ⟨-, hD⟩ := hD
      induction attributes with
      | nil => exact .nil
      | cons ha _ ih =>
        rw [List.flatMap_cons, List.forall_mem_append] at hD
        cases ha with
        | mk ha => exact .cons (.mk (ha.mono hD.1)) (ih hD.2)

end Stands

namespace Store

variable {s s' s'' : Store} {r r' : Resolver} {e : TypeExpr} {t u : Ty}

/-- A store in which more is made, and more object types have their bodies. -/
structure Grows (s s' : Store) : Prop where
  knows : ∀ a, s.Knows a → s'.Knows a
  name : ∀ o, s.Knows (.object o) → s'.name? o = s.name? o
  body : ∀ o b, s.body? o = some b → s'.body? o = some b
  set : ∀ a, s.Knows (.typeSet a) → s'.set a = s.set a

namespace Grows

theorem refl (s : Store) : s.Grows s :=
  ⟨fun _ h => h, fun _ _ => rfl, fun _ _ h => h, fun _ _ => rfl⟩

theorem trans (h : s.Grows s') (h' : s'.Grows s'') : s.Grows s'' where
  knows a ha := h'.knows a (h.knows a ha)
  name o ho := (h'.name o (h.knows _ ho)).trans (h.name o ho)
  body o b hb := h'.body o b (h.body o b hb)
  set a ha := (h'.set a (h.knows _ ha)).trans (h.set a ha)

end Grows

theorem Extends.grows (h : s.Extends s') : s.Grows s' where
  knows _ ha := h.knows ha
  name := h.name
  body o _ hb := (h.body o (knows_of_body? hb)).trans hb
  set a _ := set_congr h.typeSets a

/-- What an expression denotes, it denotes from then on. -/
theorem Denotes.later (h : s.Denotes r e t) (hs : s.Grows s') : s'.Denotes r e t := by
  induction e generalizing t with
  | named n es ih =>
    cases h with
    | name resolved => exact .name resolved
    | former m variant parameter => exact .former m variant (ih _ List.mem_cons_self parameter)
  | object d ih =>
    cases h with
    | object name body stands literal =>
      refine .object ?_ (hs.body _ _ body) (stands.mono fun e he t ht => ih e he ht) literal
      rw [hs.name _ (knows_of_body? body), name]

/-- What an expression denotes, it denotes where more names have types. -/
theorem Denotes.of_names (h : s.Denotes r e t) (hr : ∀ n t, r n = some t → r' n = some t) :
    s.Denotes r' e t := by
  induction e generalizing t with
  | named n es ih =>
    cases h with
    | name resolved => exact .name (hr _ _ resolved)
    | former m variant parameter => exact .former m variant (ih _ List.mem_cons_self parameter)
  | object d ih =>
    cases h with
    | object name body stands literal =>
      exact .object name body (stands.mono fun e he t ht => ih e he ht) literal

/-- The variant of what an expression denotes depends on the resolver only through the variants of
what it gives. -/
theorem Denotes.variant_eq (h : s.Denotes r e t) (h' : s'.Denotes r' e u)
    (hr : ∀ n, Option.Rel (fun t u => t.variant = u.variant) (r n) (r' n)) :
    t.variant = u.variant := by
  have hformed : ∀ f t m, (Ty.formed f t m).variant = .former f := by
    intro f t m
    obtain ⟨n, hn⟩ := Ty.formed_eq f t m
    rw [hn]
    rfl
  cases h with
  | @name n t resolved =>
    cases h' with
    | name resolved' =>
      have hn := hr n
      rw [resolved, resolved'] at hn
      cases hn with
      | some hn => exact hn
  | former m variant parameter =>
    cases h' with
    | former m' variant' parameter' =>
      rw [hformed, hformed]
      exact Option.some.inj (variant.symm.trans variant')
  | object => cases h' with | object => rfl

end Store
end TypeLattice
