import TypeLattice.Proofs.Written
import Mathlib.Logic.Relation

/-!
# Legible types

The types whose text can be read again. Their nameless object types do not come back to themselves,
so none is ever shortened, and what is named has a name that is read as it.
-/
namespace TypeLattice.Store

open Relation

variable {s s' : Store} {r : Resolver} {t u : Ty} {w : Writing} {write : Ty → Writing}
  {o p q : ObjectId} {a c : Node}

/-- What the text of a type contains: what the type refers to, and what the nameless object types
among that refer to. -/
inductive Shown (s : Store) (t : Ty) : Node → Prop
  | leaf {a : Node} (mem : a ∈ t.nodes) : Shown s t a
  | inside {o : ObjectId} {c : Node} (shown : Shown s t (.object o)) (nameless : s.name? o = none)
    (mem : c ∈ s.children (.object o)) : Shown s t c

/-- A nameless object type refers to another object type. -/
def Within (s : Store) (o p : ObjectId) : Prop :=
  s.name? o = none ∧ .object p ∈ s.children (.object o)

/-- The text of the type can be read. No nameless object type in it comes back to itself, names are
identifiers that the resolver knows, and default values are literals or types. -/
structure Legible (s : Store) (r : Resolver) (t : Ty) : Prop where
  acyclic : ∀ o, s.Shown t (.object o) → ¬TransGen s.Within o o
  objects : ∀ o name, s.Shown t (.object o) → s.name? o = some name →
    Identifier name ∧ r name = some (.object o)
  typeSets : ∀ a name, s.Shown t (.typeSet a) → (s.set a).name = some name →
    Identifier name ∧ r name = some (.typeSet a)
  builtins : ∀ name u, Resolver.builtins name = some u → r name = some u
  defaults : ∀ o, s.Shown t (.object o) → s.name? o = none →
    ∀ e ∈ (s.ownAttributes o).entries, ∀ v, e.2.default = some v →
      v.Literal ∨ ∃ u, v = .type u ∧ s.typeName u ∉ keywords

theorem Shown.known (hs : s.WellFormed) (ht : s.Has t) (h : s.Shown t a) : s.Knows a := by
  induction h with
  | leaf mem => exact ht _ mem
  | inside _ _ mem _ => exact hs.known _ _ mem

theorem Shown.of_nodes (hu : ∀ a ∈ u.nodes, s.Shown t a) (h : s.Shown u a) : s.Shown t a := by
  induction h with
  | leaf mem => exact hu _ mem
  | inside _ nameless mem ih => exact .inside ih nameless mem

/-- Whatever is shown in a legible type is legible. -/
theorem Legible.of_nodes (hl : s.Legible r t) (hu : ∀ a ∈ u.nodes, s.Shown t a) :
    s.Legible r u where
  acyclic o ho := hl.acyclic o (ho.of_nodes hu)
  objects o name ho := hl.objects o name (ho.of_nodes hu)
  typeSets a name ha := hl.typeSets a name (ha.of_nodes hu)
  builtins := hl.builtins
  defaults o ho := hl.defaults o (ho.of_nodes hu)

theorem nodes_subset_children (ht : t ∈ s.parts o) : t.nodes ⊆ s.children (.object o) := by
  intro a ha
  rcases List.mem_append.1 ht with ht | ht
  · obtain ⟨p, hp, rfl⟩ := Option.map_eq_some_iff.1 (Option.mem_toList.1 ht)
    obtain rfl := List.mem_singleton.1 ha
    simp [children, hp]
  · obtain ⟨e, he, ht⟩ := List.mem_flatMap.1 ht
    refine List.mem_append_right _ (List.mem_flatMap.2 ⟨e, he, ?_⟩)
    unfold Attribute.types at ht
    split at ht
    · rename_i v hv
      simp only [List.mem_cons, List.not_mem_nil, or_false] at ht
      rcases ht with rfl | rfl
      · exact List.mem_append_left _ ha
      · simp [Attribute.nodes, hv, Value.nodes, ha]
    · obtain rfl := List.mem_singleton.1 ht
      exact List.mem_append_left _ ha

/-- The type is written like this, and each of the renderers of object types gives the same text. -/
structure Written (s : Store) (r : Resolver) (P : (ObjectId → Option String) → Prop) (t : Ty)
    (w : Writing) : Prop where
  writes : s.Writes r t w
  head : w.lexemes.head? = some (.name (s.typeName t))
  text : ∀ f, P f → t.renderWith s f = some (String.ofList (spell w.lexemes))

variable {P : (ObjectId → Option String) → Prop}

theorem ofList_spell_named (name : String) :
    String.ofList (spell (Writing.named name).lexemes) = name := by
  simp [Writing.named, Lexeme.spelling]

theorem Written.of_name {name : String} (identifier : Identifier name) (resolved : r name = some u)
    (known : s.Has u) (equal : ∀ s', s.Extends s' → s'.Equal u t) (hn : s.typeName t = name)
    (text : ∀ f, P f → t.renderWith s f = some name) : s.Written r P t (.named name) := by
  refine ⟨.named identifier resolved known equal, by rw [hn]; rfl, fun f hf => ?_⟩
  rw [text f hf, ofList_spell_named]

/-- What equals the type of a variant may be written by the name of the variant. -/
theorem Written.of_variant (hb : ∀ name u, Resolver.builtins name = some u → r name = some u)
    (v : Variant) (equal : ∀ s', s.Extends s' → s'.Equal (.ofVariant v) t)
    (hn : s.typeName t = v.name) (text : ∀ f, P f → t.renderWith s f = some v.name) :
    s.Written r P t (.named v.name) :=
  .of_name (identifier_variant v) (hb _ _ (Resolver.builtins_name v)) (has_ofVariant v) equal hn
    text

theorem Written.former (h : s.Written r P t w) (f : Former) (m : ℕ) (ht : t ≠ .basic .any) :
    s.Written r P (.former f t m) (.former f w) := by
  refine ⟨h.writes.former f m, rfl, fun g hg => ?_⟩
  rw [Ty.renderWith, if_neg ht, h.text g hg, Option.map_some]
  apply congrArg some
  apply String.toList_inj.1
  simp [Writing.former, Lexeme.spelling, Symbol.text]

/-- A type is written if the object types in it are. -/
theorem exists_written (hb : ∀ name u, Resolver.builtins name = some u → r name = some u)
    (typeSets : ∀ a, .typeSet a ∈ t.nodes → ∃ w, s.Written r P (.typeSet a) w)
    (objects : ∀ o, .object o ∈ t.nodes → ∃ w, s.Written r P (.object o) w) :
    ∃ w, s.Written r P t w := by
  induction t with
  | basic b =>
    exact ⟨_, .of_variant hb (.basic b) (fun s' _ => Equal.refl s' _) rfl fun _ _ => rfl⟩
  | former f t m ih =>
    by_cases ht : t = .basic .any
    · subst ht
      refine ⟨_, .of_variant hb (.former f) (fun s' _ => ?_) rfl fun _ _ => if_pos rfl⟩
      exact Equal.of_alike (.former (Equal.refl s' _))
    · obtain ⟨w, hw⟩ := ih typeSets objects
      exact ⟨_, hw.former f m ht⟩
  | object o => exact objects o (by simp [Ty.nodes])
  | typeSet a => exact typeSets a (by simp [Ty.nodes])

theorem mapM_eq_some {α β : Type} {f : α → Option β} {g : α → β} {xs : List α}
    (h : ∀ x ∈ xs, f x = some (g x)) : xs.mapM f = some (xs.map g) := by
  induction xs with
  | nil => rfl
  | cons x xs ih =>
    rw [List.mapM_cons, h x List.mem_cons_self, ih fun y hy => h y (List.mem_cons_of_mem _ hy)]
    rfl

theorem renderWith_default {v : Value} {g : ObjectId → Option String} (hw : Writable write v)
    (ht : ∀ t, v = .type t → t.renderWith s g = some (String.ofList (spell (write t).lexemes))) :
    v.renderWith s g = some (String.ofList (spell (v.written write))) := by
  rcases hw with hl | ⟨t, rfl, _⟩
  · rw [hl.written_eq, hl.renderWith]
  · exact ht t rfl

variable {f g : ObjectId → Option String}

theorem renderWith_attribute {e : String × Attribute}
    (hf : ∀ t ∈ e.2.types, t.renderWith s f = some (String.ofList (spell (write t).lexemes)))
    (hg : ∀ t ∈ e.2.types, t.renderWith s g = some (String.ofList (spell (write t).lexemes)))
    (hv : ∀ v, e.2.default = some v → Writable write v) :
    Attribute.renderWith s f g e =
      some (String.ofList (spell (entry (.string e.1) (e.2.written write)))) := by
  have htype := hf _ e.2.type_mem_types
  unfold Attribute.renderWith Attribute.written
  cases hd : e.2.default with
  | none =>
    simp only [htype, Option.bind_eq_bind, Option.bind_some, Option.pure_def, Option.some.injEq]
    apply String.toList_inj.1
    simp [entry, Lexeme.spelling, Text.toList_quoted]
  | some v =>
    have hvalue := renderWith_default (hv v hd) fun t h =>
      hg t (e.2.mem_types_of_default (h ▸ hd))
    simp only [htype, hvalue, Option.bind_eq_bind, Option.bind_some, Option.pure_def,
      Option.some.injEq]
    apply String.toList_inj.1
    simp [entry, braced, joined, Lexeme.spelling, Symbol.text, Text.toList_quoted]

theorem bodyTextWith_eq
    (hf : ∀ t ∈ s.parts o, t.renderWith s f = some (String.ofList (spell (write t).lexemes)))
    (hg : ∀ t ∈ s.parts o, t.renderWith s g = some (String.ofList (spell (write t).lexemes)))
    (hv : ∀ e ∈ (s.ownAttributes o).entries, ∀ v, e.2.default = some v → Writable write v) :
    s.bodyTextWith f g o = some (String.ofList (spell (s.fullWriting write o).lexemes)) := by
  have hattributes : (s.ownAttributes o).entries.mapM (Attribute.renderWith s f g) =
      some ((s.attributesWritten write o).map fun ls => String.ofList (spell ls)) := by
    rw [attributesWritten, List.map_map]
    refine mapM_eq_some fun e he => renderWith_attribute ?_ ?_ (hv e he)
    · exact fun t ht => hf t (types_subset_parts he ht)
    · exact fun t ht => hg t (types_subset_parts he ht)
  unfold bodyTextWith fullWriting
  rw [hattributes]
  cases hp : s.parent? o with
  | none =>
    simp only [Option.bind_eq_bind, Option.bind_some, Option.pure_def, commaSeparated_spell,
      Option.some.injEq]
    apply String.toList_inj.1
    simp [entry, braced, joined, Lexeme.spelling, Symbol.text]
  | some p =>
    have hparent : f p = some (String.ofList (spell (write (.object p)).lexemes)) :=
      hf _ (parent_mem_parts hp)
    simp only [hparent, Option.bind_eq_bind, Option.bind_some, Option.pure_def,
      commaSeparated_spell, Option.some.injEq]
    apply String.toList_inj.1
    simp [entry, braced, joined, Lexeme.spelling, Symbol.text]

/-- The renderers that a path of object types allows. -/
def Renderers (s : Store) (n : ℕ) (path : List ObjectId) (f : ObjectId → Option String) : Prop :=
  ∃ around, around ⊆ path ∧ f = s.objectTextWithin n around

theorem Written.render?_eq (h : s.Written r (s.Renderers (s.nodeCount + 1) []) t w) :
    s.render? t = some (String.ofList (spell w.lexemes)) :=
  h.text _ ⟨[], List.nil_subset _, rfl⟩

theorem equal_default (ho : s.isDefault o = true) (hs' : s.Extends s') :
    s'.Equal (.object .default) (.object o) := by
  obtain ⟨b, hb, he⟩ := body?_of_isDefault ho
  have hknown := knows_of_body? hb
  refine equal_of_isDefault (by simp [isDefault]) ?_
  rw [isDefault, hs'.name o hknown, hs'.body o hknown]
  exact ho

variable (hs : s.WellFormed) (ht : s.Has t) (hl : s.Legible r t)
include hs ht hl

theorem Legible.exists_written_typeSet {a : SetId} (ha : s.Shown t (.typeSet a)) :
    ∃ w, s.Written r P (.typeSet a) w := by
  cases hname : (s.set a).name with
  | some name =>
    obtain ⟨identifier, resolved⟩ := hl.typeSets a name ha hname
    have hn : s.typeName (.typeSet a) = name := by simp [typeName, hname]
    have hknown : s.Has (.typeSet a) := has_typeSet.2 (ha.known hs ht)
    exact ⟨_, .of_name identifier resolved hknown (fun s' _ => Equal.refl s' _) hn fun _ _ =>
      congrArg some hn⟩
  | none =>
    obtain rfl : a = .default := by
      rcases a with _ | _ | n
      · rfl
      · cases hname
      · have := hs.named n (ha.known hs ht)
        simp [hname] at this
    exact ⟨_, .of_variant hl.builtins .typeSet (fun s' _ => Equal.refl s' _) rfl fun _ _ => rfl⟩

theorem Legible.exists_written_full {n : ℕ} {path : List ObjectId} (ho : s.Shown t (.object o))
    (nameless : s.name? o = none) (hd : s.isDefault o = false) (hpath : o ∉ path)
    (hparts : ∀ u ∈ s.parts o, ∃ w, s.Written r (s.Renderers n (o :: path)) u w) :
    ∃ w, s.Written r (s.Renderers (n + 1) path) (.object o) w := by
  choose! write hwrite using hparts
  have hdefaults : ∀ e ∈ (s.ownAttributes o).entries, ∀ v, e.2.default = some v →
      Writable write v := by
    intro e he v hv
    refine (hl.defaults o ho nameless e he v hv).imp id fun ⟨u, hu, hname⟩ => ⟨u, hu, ?_⟩
    intro k hk hhead
    have hmem := types_subset_parts he (e.2.mem_types_of_default (hu ▸ hv))
    rw [(hwrite u hmem).head, Option.some.injEq, Lexeme.name.injEq] at hhead
    exact hname (hhead ▸ hk)
  refine ⟨_, .full (ho.known hs ht) nameless (fun u hu => (hwrite u hu).writes) hdefaults, ?_, ?_⟩
  · simp [fullWriting, typeName, label, nameless]
  · rintro _ ⟨around, haround, rfl⟩
    have hnot : ¬(s.isDefault o = true ∨ o ∈ around) := by
      rintro (h | h)
      · simp [h] at hd
      · exact hpath (haround h)
    show s.objectTextWithin (n + 1) around o = _
    simp only [objectTextWithin, nameless, hnot, if_false]
    refine bodyTextWith_eq (fun u hu => (hwrite u hu).text _ ?_)
      (fun u hu => (hwrite u hu).text _ ?_) hdefaults
    · exact ⟨o :: around, List.cons_subset_cons o haround, rfl⟩
    · exact ⟨[], List.nil_subset _, rfl⟩

/-- Along a path of nameless object types, each of which refers to the next, there is always enough
depth left. -/
theorem Legible.exists_written_object {n : ℕ} {path : List ObjectId} (ho : s.Shown t (.object o))
    (hnodup : path.Nodup) (hpath : ∀ q ∈ path, TransGen s.Within q o)
    (hn : s.nodeCount < n + path.length) :
    ∃ w, s.Written r (s.Renderers n path) (.object o) w := by
  induction n generalizing path o with
  | zero =>
    have hsub : path ⊆ s.objectIds := by
      intro q hq
      obtain ⟨p, hp, _⟩ := TransGen.head'_iff.1 (hpath q hq)
      exact mem_objectIds_of_mem_children hp.2
    have hle := (List.subperm_of_subset hnodup hsub).length_le
    rw [length_objectIds] at hle
    simp only [objectCount, nodeCount] at hle hn
    omega
  | succ n ih =>
    cases hname : s.name? o with
    | some name =>
      obtain ⟨identifier, resolved⟩ := hl.objects o name ho hname
      have hknown : s.Has (.object o) := has_object.2 (ho.known hs ht)
      refine ⟨_, .of_name identifier resolved hknown (fun s' _ => Equal.refl s' _) ?_ ?_⟩
      · simp [typeName, label, hname]
      · rintro _ ⟨around, _, rfl⟩
        show s.objectTextWithin (n + 1) around o = _
        simp [objectTextWithin, hname]
    | none =>
      cases hd : s.isDefault o with
      | true =>
        have hn : s.typeName (.object o) = "Object" := by simp [typeName, label, hname]
        refine ⟨_, .of_variant hl.builtins .object (fun s' => equal_default hd) hn ?_⟩
        rintro _ ⟨around, _, rfl⟩
        show s.objectTextWithin (n + 1) around o = some "Object"
        simp [objectTextWithin, hname, hd]
      | false =>
        have hnot : o ∉ path := fun h => hl.acyclic o ho (hpath o h)
        refine hl.exists_written_full hs ht ho hname hd hnot fun u hu => ?_
        have hshown : ∀ a ∈ u.nodes, s.Shown t a := fun a ha =>
          .inside ho hname (nodes_subset_children hu ha)
        refine exists_written hl.builtins (fun a ha => ?_) (fun p hp => ?_)
        · exact hl.exists_written_typeSet hs ht (hshown _ ha)
        · have hwithin : s.Within o p := ⟨hname, nodes_subset_children hu hp⟩
          refine ih (hshown _ hp) (List.nodup_cons.2 ⟨hnot, hnodup⟩) ?_ ?_
          · rintro q hq
            rcases List.mem_cons.1 hq with rfl | hq
            · exact .single hwithin
            · exact (hpath q hq).tail hwithin
          · rw [List.length_cons]
            omega

theorem Legible.exists_written :
    ∃ w, s.Written r (s.Renderers (s.nodeCount + 1) []) t w := by
  have hobject : ∀ o, .object o ∈ t.nodes →
      ∃ w, s.Written r (s.Renderers (s.nodeCount + 1) []) (.object o) w := fun o ho =>
    hl.exists_written_object hs ht (.leaf ho) List.nodup_nil (by simp) (by simp)
  exact Store.exists_written hl.builtins
    (fun a ha => hl.exists_written_typeSet hs ht (.leaf ha)) hobject

/-- The text of a legible type ends, and it is what is written for it. -/
theorem Legible.exists_writes :
    ∃ w, s.Writes r t w ∧ s.render? t = some (String.ofList (spell w.lexemes)) := by
  obtain ⟨w, hw⟩ := hl.exists_written hs ht
  exact ⟨w, hw.writes, hw.render?_eq⟩

end TypeLattice.Store
