import Mathlib.Logic.Relation
import TypeLattice.Proofs.Built
import TypeLattice.Render

/-!
# Texts that end

A nameless object type is written in full. Its parent and the types of its attributes are written
inside it, where it is shortened when it comes again; what its default values contain is written
afresh. So the writing can only go round through default values, and the text ends exactly if no
nameless type in it comes back to itself through one of its default values.
-/
namespace TypeLattice

open Relation

variable {s : Store} {f g : ObjectId → Option String} {t : Ty} {v : Value} {x : String}

theorem isSome_mapM {α β : Type} {f : α → Option β} {xs : List α} :
    (xs.mapM f).isSome ↔ ∀ x ∈ xs, (f x).isSome := by
  induction xs with
  | nil => simp
  | cons x xs ih =>
    rw [List.mapM_cons, List.forall_mem_cons, ← ih]
    cases f x <;> cases xs.mapM f <;> simp

theorem mapM_mono {α β : Type} {f g : α → Option β} {xs : List α} {ys : List β}
    (h : ∀ x y, f x = some y → g x = some y) (hf : xs.mapM f = some ys) : xs.mapM g = some ys := by
  induction xs generalizing ys with
  | nil => exact hf
  | cons x xs ih =>
    rw [List.mapM_cons] at hf ⊢
    obtain ⟨y, hy, hf⟩ := Option.bind_eq_some_iff.1 hf
    obtain ⟨ys', hys, hf⟩ := Option.bind_eq_some_iff.1 hf
    cases hf
    rw [h x y hy, ih hys]
    rfl

theorem Ty.isSome_renderWith :
    (t.renderWith s f).isSome ↔ ∀ p, .object p ∈ t.nodes → (f p).isSome := by
  induction t with
  | former h t m ih =>
    by_cases ht : t = .basic .any
    · subst ht
      simp [renderWith, nodes]
    · rw [renderWith, if_neg ht, Option.isSome_map, ih, nodes]
  | _ => simp [renderWith, nodes]

theorem Ty.renderWith_mono (h : ∀ p y, f p = some y → g p = some y)
    (hx : t.renderWith s f = some x) : t.renderWith s g = some x := by
  induction t generalizing x with
  | former k t m ih =>
    by_cases ht : t = .basic .any
    · rw [renderWith, if_pos ht] at hx ⊢
      exact hx
    · rw [renderWith, if_neg ht] at hx ⊢
      obtain ⟨y, hy, rfl⟩ := Option.map_eq_some_iff.1 hx
      rw [ih hy, Option.map_some]
  | object o => exact h o x hx
  | basic | typeSet => exact hx

namespace Value

mutual

/-- The types in the text of a value. An object is written with the name of its type only. -/
def shownTypes : Value → List Ty
  | .type t | .iterator _ t => [t]
  | .array xs => shownTypesOfList xs
  | .object _ _ fs => shownTypesOfFields fs
  | _ => []

def shownTypesOfList : List Value → List Ty
  | [] => []
  | x :: xs => shownTypes x ++ shownTypesOfList xs

def shownTypesOfFields : List (String × Value) → List Ty
  | [] => []
  | (_, x) :: fs => shownTypes x ++ shownTypesOfFields fs

end

mutual

theorem isSome_renderWith : ∀ v : Value,
    (v.renderWith s f).isSome ↔ ∀ t ∈ v.shownTypes, (t.renderWith s f).isSome
  | .undef | .bool _ | .integer _ | .float _ | .string _ => by simp [renderWith, shownTypes]
  | .type t => by simp [renderWith, shownTypes]
  | .iterator _ t => by
    by_cases ht : t = .basic .any
    · subst ht
      simp [renderWith, shownTypes, Ty.renderWith]
    · simp [renderWith, shownTypes, ht]
  | .array xs => by
    rw [renderWith, Option.isSome_map, shownTypes]
    exact isSome_renderListWith xs
  | .object _ _ fs => by
    rw [renderWith, Option.isSome_map, shownTypes]
    exact isSome_renderFieldsWith fs

theorem isSome_renderListWith : ∀ xs : List Value,
    (renderListWith s f xs).isSome ↔ ∀ t ∈ shownTypesOfList xs, (t.renderWith s f).isSome
  | [] => by simp [renderListWith, shownTypesOfList]
  | x :: xs => by
    rw [renderListWith, shownTypesOfList, List.forall_mem_append, ← isSome_renderWith x,
      ← isSome_renderListWith xs]
    cases renderWith s f x <;> cases renderListWith s f xs <;> simp

theorem isSome_renderFieldsWith : ∀ fs : List (String × Value),
    (renderFieldsWith s f fs).isSome ↔ ∀ t ∈ shownTypesOfFields fs, (t.renderWith s f).isSome
  | [] => by simp [renderFieldsWith, shownTypesOfFields]
  | (k, x) :: fs => by
    rw [renderFieldsWith, shownTypesOfFields, List.forall_mem_append, ← isSome_renderWith x,
      ← isSome_renderFieldsWith fs]
    cases renderWith s f x <;> cases renderFieldsWith s f fs <;> simp

end

mutual

theorem renderWith_mono (h : ∀ p y, f p = some y → g p = some y) : ∀ (v : Value) {x : String},
    v.renderWith s f = some x → v.renderWith s g = some x
  | .undef, _, hx | .bool _, _, hx | .integer _, _, hx | .float _, _, hx | .string _, _, hx => hx
  | .type t, _, hx => Ty.renderWith_mono h hx
  | .iterator _ t, _, hx => by
    by_cases ht : t = .basic .any
    · rw [renderWith, if_pos ht] at hx ⊢
      exact hx
    · rw [renderWith, if_neg ht] at hx ⊢
      obtain ⟨y, hy, rfl⟩ := Option.map_eq_some_iff.1 hx
      rw [Ty.renderWith_mono h hy, Option.map_some]
  | .array xs, _, hx => by
    rw [renderWith] at hx ⊢
    obtain ⟨ts, hts, rfl⟩ := Option.map_eq_some_iff.1 hx
    rw [renderListWith_mono h xs hts, Option.map_some]
  | .object _ _ fs, _, hx => by
    rw [renderWith] at hx ⊢
    obtain ⟨ts, hts, rfl⟩ := Option.map_eq_some_iff.1 hx
    rw [renderFieldsWith_mono h fs hts, Option.map_some]

theorem renderListWith_mono (h : ∀ p y, f p = some y → g p = some y) :
    ∀ (xs : List Value) {ts : List String},
    renderListWith s f xs = some ts → renderListWith s g xs = some ts
  | [], _, hts => hts
  | x :: xs, _, hts => by
    obtain ⟨y, hy, hts⟩ := Option.bind_eq_some_iff.1 hts
    obtain ⟨ys, hys, hts⟩ := Option.bind_eq_some_iff.1 hts
    cases hts
    rw [renderListWith, renderWith_mono h x hy, renderListWith_mono h xs hys]
    rfl

theorem renderFieldsWith_mono (h : ∀ p y, f p = some y → g p = some y) :
    ∀ (fs : List (String × Value)) {ts : List String},
    renderFieldsWith s f fs = some ts → renderFieldsWith s g fs = some ts
  | [], _, hts => hts
  | (k, x) :: fs, _, hts => by
    obtain ⟨y, hy, hts⟩ := Option.bind_eq_some_iff.1 hts
    obtain ⟨ys, hys, hts⟩ := Option.bind_eq_some_iff.1 hts
    cases hts
    rw [renderFieldsWith, renderWith_mono h x hy, renderFieldsWith_mono h fs hys]
    rfl

end

end Value

theorem Attribute.isSome_renderWith {e : String × Attribute} :
    (Attribute.renderWith s f g e).isSome ↔ (e.2.type.renderWith s f).isSome ∧
      ∀ v, e.2.default = some v → (v.renderWith s g).isSome := by
  unfold Attribute.renderWith
  cases e.2.default with
  | none => cases e.2.type.renderWith s f <;> simp
  | some v =>
    cases e.2.type.renderWith s f <;> cases hv : v.renderWith s g <;> simp [hv]

theorem Attribute.renderWith_mono {f' g' : ObjectId → Option String} {e : String × Attribute}
    (hf : ∀ p y, f p = some y → f' p = some y) (hg : ∀ p y, g p = some y → g' p = some y)
    (hx : Attribute.renderWith s f g e = some x) : Attribute.renderWith s f' g' e = some x := by
  unfold Attribute.renderWith at hx ⊢
  obtain ⟨y, hy, hx⟩ := Option.bind_eq_some_iff.1 hx
  rw [Ty.renderWith_mono hf hy]
  cases hd : e.2.default with
  | none =>
    rw [hd] at hx
    exact hx
  | some v =>
    rw [hd] at hx
    obtain ⟨z, hz, hx⟩ := Option.bind_eq_some_iff.1 hx
    simp only [Option.bind_eq_bind, Option.bind_some, Value.renderWith_mono hg v hz]
    exact hx

namespace Store

variable {o p q z : ObjectId} {n m : ℕ} {around : List ObjectId}

/-- The object type has no name and is not the default one, so its body is written, unless it is
inside itself. -/
def WrittenFully (s : Store) (o : ObjectId) : Prop := s.name? o = none ∧ s.isDefault o = false

/-- The other is written inside the object type, as its parent or in the type of an attribute. -/
def Inlines (s : Store) (o p : ObjectId) : Prop :=
  s.WrittenFully o ∧
    (s.parent? o = some p ∨ ∃ e ∈ (s.ownAttributes o).entries, .object p ∈ e.2.type.nodes)

/-- The other is written in a default value of the object type. -/
def Restarts (s : Store) (o p : ObjectId) : Prop :=
  s.WrittenFully o ∧ ∃ e ∈ (s.ownAttributes o).entries, ∃ v, e.2.default = some v ∧
    ∃ t ∈ v.shownTypes, .object p ∈ t.nodes

theorem isSome_bodyTextWith :
    (s.bodyTextWith f g o).isSome ↔ (∀ p, s.parent? o = some p → (f p).isSome) ∧
      ∀ e ∈ (s.ownAttributes o).entries, (Attribute.renderWith s f g e).isSome := by
  rw [← isSome_mapM]
  unfold bodyTextWith
  cases s.parent? o with
  | none => cases (s.ownAttributes o).entries.mapM (Attribute.renderWith s f g) <;> simp
  | some p =>
    cases hp : f p <;>
      cases (s.ownAttributes o).entries.mapM (Attribute.renderWith s f g) <;> simp [hp]

theorem bodyTextWith_mono {f' g' : ObjectId → Option String}
    (hf : ∀ p y, f p = some y → f' p = some y) (hg : ∀ p y, g p = some y → g' p = some y)
    (hx : s.bodyTextWith f g o = some x) : s.bodyTextWith f' g' o = some x := by
  have hattributes : ∀ ts, (s.ownAttributes o).entries.mapM (Attribute.renderWith s f g) = some ts →
      (s.ownAttributes o).entries.mapM (Attribute.renderWith s f' g') = some ts :=
    fun ts => mapM_mono fun e y => Attribute.renderWith_mono hf hg
  unfold bodyTextWith at hx ⊢
  cases hp : s.parent? o with
  | none =>
    simp only [hp, Option.bind_eq_bind, Option.pure_def, Option.bind_some] at hx ⊢
    obtain ⟨ts, hts, hx⟩ := Option.bind_eq_some_iff.1 hx
    rw [hattributes ts hts]
    exact hx
  | some p =>
    simp only [hp, Option.bind_eq_bind, Option.pure_def, Option.bind_some] at hx ⊢
    obtain ⟨y, hy, hx⟩ := Option.bind_eq_some_iff.1 hx
    obtain ⟨ts, hts, hx⟩ := Option.bind_eq_some_iff.1 hx
    rw [hf p y hy, Option.bind_some, hattributes ts hts]
    exact hx

theorem isSome_objectTextWithin_succ :
    (s.objectTextWithin (n + 1) around o).isSome ↔ (s.WrittenFully o → o ∉ around →
      (∀ p, s.Inlines o p → (s.objectTextWithin n (o :: around) p).isSome) ∧
        ∀ p, s.Restarts o p → (s.objectTextWithin n [] p).isSome) := by
  rw [objectTextWithin]
  cases hname : s.name? o with
  | some name => simp [WrittenFully, hname]
  | none =>
    by_cases hshort : s.isDefault o = true ∨ o ∈ around
    · have hnot : s.WrittenFully o → o ∈ around := fun h => by
        simpa [h.2] using hshort
      simp only [hshort, if_true, Option.isSome_some, true_iff]
      exact fun h ho => absurd (hnot h) ho
    · obtain ⟨hdefault, haround⟩ := not_or.1 hshort
      have hfull : s.WrittenFully o := ⟨hname, by simpa using hdefault⟩
      simp only [hshort, if_false, isSome_bodyTextWith, Attribute.isSome_renderWith,
        Ty.isSome_renderWith, Value.isSome_renderWith]
      constructor
      · rintro ⟨hparent, hattributes⟩ - -
        refine ⟨?_, ?_⟩
        · rintro p ⟨-, hp | ⟨e, he, hp⟩⟩
          · exact hparent p hp
          · exact (hattributes e he).1 p hp
        · rintro p ⟨-, e, he, v, hv, t, ht, hp⟩
          exact (hattributes e he).2 v hv t ht p hp
      · intro h
        obtain ⟨hinlines, hrestarts⟩ := h hfull haround
        refine ⟨fun p hp => hinlines p ⟨hfull, .inl hp⟩, fun e he => ⟨fun p hp => ?_, ?_⟩⟩
        · exact hinlines p ⟨hfull, .inr ⟨e, he, hp⟩⟩
        · exact fun v hv t ht p hp => hrestarts p ⟨hfull, e, he, v, hv, t, ht, hp⟩

/-- A text that is found stays the same with more depth. -/
theorem objectTextWithin_mono (hn : n ≤ m) (hx : s.objectTextWithin n around o = some x) :
    s.objectTextWithin m around o = some x := by
  induction n generalizing m around o x with
  | zero => cases hx
  | succ n ih =>
    obtain ⟨m, rfl⟩ := Nat.exists_eq_succ_of_ne_zero (Nat.ne_zero_of_lt hn)
    have hle : n ≤ m := Nat.le_of_succ_le_succ hn
    rw [objectTextWithin] at hx ⊢
    cases hname : s.name? o with
    | some name =>
      rw [hname] at hx
      exact hx
    | none =>
      rw [hname] at hx
      dsimp only at hx ⊢
      split_ifs at hx ⊢ with hshort
      · exact hx
      · exact bodyTextWith_mono (fun p y => ih hle) (fun p y => ih hle) hx

/-- The other is written in the text of the object type. -/
def Refers (s : Store) (o p : ObjectId) : Prop := s.Inlines o p ∨ s.Restarts o p

/-- The object type comes back to itself through one of its default values. -/
def Recurs (s : Store) (o : ObjectId) : Prop :=
  ∃ p, s.Restarts o p ∧ ReflTransGen s.Refers p o

theorem mem_objectIds_of_refers (h : s.Refers o p) : o ∈ s.objectIds := by
  have hattributes : ∀ e ∈ (s.ownAttributes o).entries, o ∈ s.objectIds := by
    intro e he
    cases hb : s.body? o with
    | none => simp [ownAttributes, hb, Table.empty] at he
    | some b => exact mem_objectIds_of_body? hb
  rcases h with ⟨-, hp | ⟨e, he, -⟩⟩ | ⟨-, e, he, -⟩
  · exact mem_objectIds_of_parent? hp
  · exact hattributes e he
  · exact hattributes e he

/-- The text ends where nothing comes back to itself through a default value. The path is what is
being written. It has no repetition, for what is on it and not around `o` was left for `o` through a
default value. -/
theorem isSome_of_path {path : List ObjectId}
    (hgood : ∀ q, ReflTransGen s.Refers o q → ¬s.Recurs q) (hnodup : path.Nodup)
    (hsub : path ⊆ s.objectIds) (hreach : ∀ q ∈ path, ReflTransGen s.Refers q o)
    (hleft : ∀ q ∈ path, q ∉ around → ∃ a b, ReflTransGen s.Refers q a ∧ s.Restarts a b ∧
      ReflTransGen s.Refers b o)
    (hn : s.nodeCount < n + path.length) : (s.objectTextWithin n around o).isSome := by
  induction n generalizing path around o with
  | zero =>
    have hle := (List.subperm_of_subset hnodup hsub).length_le
    rw [length_objectIds] at hle
    simp only [objectCount, nodeCount] at hle hn
    omega
  | succ n ih =>
    refine isSome_objectTextWithin_succ.2 fun hfull haround => ?_
    have hnot : o ∉ path := fun ho => by
      obtain ⟨a, b, hoa, hab, hbo⟩ := hleft o ho haround
      exact hgood a hoa ⟨b, hab, hbo.trans hoa⟩
    have hcount : s.nodeCount < n + (o :: path).length := by
      rw [List.length_cons]
      omega
    have hnext : ∀ p, s.Refers o p → (∀ q, ReflTransGen s.Refers p q → ¬s.Recurs q) ∧
        o :: path ⊆ s.objectIds ∧ ∀ q ∈ o :: path, ReflTransGen s.Refers q p := by
      refine fun p hp => ⟨fun q hq => hgood q (.head hp hq), ?_, fun q hq => ?_⟩
      · exact List.cons_subset.2 ⟨mem_objectIds_of_refers hp, hsub⟩
      · rcases List.mem_cons.1 hq with rfl | hq
        · exact .single hp
        · exact (hreach q hq).tail hp
    refine ⟨fun p hp => ?_, fun p hp => ?_⟩
    · obtain ⟨hgood', hsub', hreach'⟩ := hnext p (.inl hp)
      refine ih hgood' (List.nodup_cons.2 ⟨hnot, hnodup⟩) hsub' hreach' ?_ hcount
      intro q hq hqo
      rcases List.mem_cons.1 hq with rfl | hq
      · exact absurd List.mem_cons_self hqo
      · obtain ⟨a, b, hqa, hab, hbo⟩ := hleft q hq fun h => hqo (List.mem_cons_of_mem o h)
        exact ⟨a, b, hqa, hab, hbo.tail (.inl hp)⟩
    · obtain ⟨hgood', hsub', hreach'⟩ := hnext p (.inr hp)
      refine ih hgood' (List.nodup_cons.2 ⟨hnot, hnodup⟩) hsub' hreach' ?_ hcount
      intro q hq _
      rcases List.mem_cons.1 hq with rfl | hq
      · exact ⟨q, p, .refl, hp, .refl⟩
      · exact ⟨o, p, hreach q hq, hp, .refl⟩

/-- A walk from its last visit to where it starts. -/
theorem last_visit {α : Type} {R : α → α → Prop} {x z : α} (h : ReflTransGen R x z) :
    z = x ∨ ∃ p, R x p ∧ p ≠ x ∧ ReflTransGen (fun u v => R u v ∧ v ≠ x) p z := by
  induction h with
  | refl => exact .inl rfl
  | @tail y z _ hyz ih =>
    by_cases hz : z = x
    · exact .inl hz
    · rcases ih with rfl | ⟨p, hxp, hp, hpy⟩
      · exact .inr ⟨z, hyz, hz, .refl⟩
      · exact .inr ⟨p, hxp, hp, hpy.tail ⟨hyz, hz⟩⟩

/-- Where a text ends, what is in a default value of something in it ends too, and with less
depth. -/
theorem exists_isSome_of_restarts (h : (s.objectTextWithin n around o).isSome) (ho : o ∉ around)
    (hz : ReflTransGen (fun u v => s.Inlines u v ∧ v ∉ around) o z) (hp : s.Restarts z p) :
    ∃ m < n, (s.objectTextWithin m [] p).isSome := by
  induction n generalizing around o with
  | zero => simp [objectTextWithin] at h
  | succ n ih =>
    have hparts := isSome_objectTextWithin_succ.1 h
    rcases last_visit hz with rfl | ⟨q, ⟨hoq, hq⟩, hqo, hqz⟩
    · exact ⟨n, Nat.lt_succ_self n, (hparts hp.1 ho).2 p hp⟩
    · have hnot : ∀ {r}, r ∉ around → r ≠ o → r ∉ o :: around := fun hr hne hmem =>
        (List.mem_cons.1 hmem).elim hne hr
      have hinside : ReflTransGen (fun u v => s.Inlines u v ∧ v ∉ o :: around) q z :=
        ReflTransGen.mono (fun u v huv => ⟨huv.1.1, hnot huv.1.2 huv.2⟩) _ _ hqz
      obtain ⟨m, hm, hsome⟩ := ih ((hparts hoq.1 ho).1 q hoq) (hnot hq hqo) hinside
      exact ⟨m, Nat.lt_succ_of_lt hm, hsome⟩

theorem first_restart (h : ReflTransGen s.Refers o q) : ReflTransGen s.Inlines o q ∨
    ∃ z p, ReflTransGen s.Inlines o z ∧ s.Restarts z p ∧ ReflTransGen s.Refers p q := by
  induction h with
  | refl => exact .inl .refl
  | tail _ hstep ih =>
    rcases ih with hy | ⟨z, p, hz, hzp, hpy⟩
    · rcases hstep with hstep | hstep
      · exact .inl (hy.tail hstep)
      · exact .inr ⟨_, _, hy, hstep, .refl⟩
    · exact .inr ⟨z, p, hz, hzp, hpy.tail hstep⟩

/-- Where a text ends, nothing in it comes back to itself through a default value. The induction is
on the depth: each turn would leave less of it. -/
theorem not_recurs_of_isSome (h : (s.objectTextWithin n [] o).isSome)
    (hq : ReflTransGen s.Refers o q) : ¬s.Recurs q := by
  induction n using Nat.strong_induction_on generalizing o with
  | _ n ih =>
    rintro ⟨p, hqp, hpq⟩
    obtain ⟨z, r, hz, hzr, hrq⟩ : ∃ z r, ReflTransGen s.Inlines o z ∧ s.Restarts z r ∧
        ReflTransGen s.Refers r q := by
      rcases first_restart hq with hq | hq
      · exact ⟨q, p, hq, hqp, hpq⟩
      · exact hq
    obtain ⟨m, hm, hsome⟩ := exists_isSome_of_restarts h List.not_mem_nil
      (ReflTransGen.mono (fun u v huv => ⟨huv, List.not_mem_nil⟩) _ _ hz) hzr
    exact ih m hm hsome hrq ⟨p, hqp, hpq⟩

/-- The object type is written in the text of the type. -/
def Reached (s : Store) (t : Ty) (o : ObjectId) : Prop :=
  ∃ p, .object p ∈ t.nodes ∧ ReflTransGen s.Refers p o

theorem not_recurs_of_renderWith (h : t.renderWith s (s.objectTextWithin n []) = some x)
    (ho : s.Reached t o) : ¬s.Recurs o := by
  obtain ⟨p, hp, hpo⟩ := ho
  exact not_recurs_of_isSome (Ty.isSome_renderWith.1 (Option.isSome_of_eq_some h) p hp) hpo

/-- A type has a text exactly if no nameless object type that is written in it comes back to itself
through one of its default values. Whatever text is found down to some depth is this text. -/
theorem text_ends_iff (s : Store) (t : Ty) :
    ((s.render? t).isSome ↔ ∀ o, s.Reached t o → ¬s.Recurs o) ∧
      ∀ n x, t.renderWith s (s.objectTextWithin n []) = some x → s.render? t = some x := by
  have hiff : (s.render? t).isSome ↔ ∀ o, s.Reached t o → ¬s.Recurs o := by
    constructor
    · intro h o ho
      obtain ⟨x, hx⟩ := Option.isSome_iff_exists.1 h
      exact not_recurs_of_renderWith hx ho
    · intro hgood
      refine Ty.isSome_renderWith.2 fun p hp => ?_
      exact isSome_of_path (fun q hq => hgood q ⟨p, hp, hq⟩) List.nodup_nil (List.nil_subset _)
        (by simp) (by simp) (by simp)
  refine ⟨hiff, fun n x hx => ?_⟩
  obtain ⟨y, hy⟩ := Option.isSome_iff_exists.1 (hiff.2 fun o => not_recurs_of_renderWith hx)
  have hdeep : ∀ k, k ≤ n + (s.nodeCount + 1) → ∀ p z, s.objectTextWithin k [] p = some z →
      s.objectTextWithin (n + (s.nodeCount + 1)) [] p = some z :=
    fun k hk p z => objectTextWithin_mono hk
  have hx' := Ty.renderWith_mono (hdeep n (by omega)) hx
  have hy' := Ty.renderWith_mono (hdeep (s.nodeCount + 1) (by omega)) hy
  rw [hy, ← hy', hx']

def nextAttributes : Table Attribute where
  entries := [("next", { type := .object (.declared 0) })]

def kindAttributes : Table Attribute where
  entries := [("kind", { type := Ty.plain .type, default := some (.type (.object (.declared 1))) })]

/-- Two nameless object types. One refers to itself by the type of an attribute, the other in a
default value. -/
def selfReferring : Store where
  objects := #[⟨none, some { attributes := nextAttributes }⟩,
    ⟨none, some { attributes := kindAttributes }⟩]

theorem built_selfReferring : selfReferring.Built := by
  have h0 : Built { objects := #[⟨none, none⟩, ⟨none, none⟩] } :=
    (Built.empty.object none).object none
  have h1 : Built { objects := #[⟨none, some { attributes := nextAttributes }⟩, ⟨none, none⟩] } :=
    h0.body (o := .declared 0) (b := { attributes := nextAttributes })
      (by simp [Body.nodes, nextAttributes, Attribute.nodes, Ty.nodes, Knows])
      (by simp [nextAttributes, Attribute.Distinct]) rfl
  exact h1.body (o := .declared 1) (b := { attributes := kindAttributes })
    (by simp [Body.nodes, kindAttributes, Attribute.nodes, Ty.plain, Ty.nodes, Value.nodes, Knows])
    (by simp [kindAttributes, Attribute.Distinct, Value.Distinct]) rfl

/-- Through the type of an attribute the writing comes to an end. -/
theorem text_of_selfReferring :
    selfReferring.render? (.object (.declared 0)) =
      some "Object[\x7battributes => \x7b'next' => Object\x7d\x7d]" :=
  (text_ends_iff selfReferring (.object (.declared 0))).2 2 _ (by decide +kernel)

/-- Through a default value it does not, down to any depth. -/
theorem selfReferring_endless :
    selfReferring.Built ∧
      (∀ n, selfReferring.objectTextWithin n [] (.declared 1) = none) ∧
      selfReferring.render? (.object (.declared 1)) = none := by
  have hrestarts : selfReferring.Restarts (.declared 1) (.declared 1) := by
    refine ⟨⟨rfl, rfl⟩, _, List.mem_singleton.2 rfl, _, rfl, _, List.mem_singleton.2 rfl, ?_⟩
    exact List.mem_singleton.2 rfl
  have hendless : ∀ n, selfReferring.objectTextWithin n [] (.declared 1) = none := by
    intro n
    rw [← Option.not_isSome_iff_eq_none]
    exact fun h => not_recurs_of_isSome h .refl ⟨_, hrestarts, .refl⟩
  exact ⟨built_selfReferring, hendless, hendless _⟩

end Store
end TypeLattice
