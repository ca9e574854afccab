import TypeLattice.Proofs.Alike

/-!
# Guarded comparisons

A comparison decides a proposition if it answers whether the proposition holds and leaves the guard
as it was. Each way to put comparisons together has one lemma on what it decides, given what its
parts decide.
-/
namespace TypeLattice

/-- Run with the guard `g`, the comparison leaves it as it was and answers whether `P` holds. -/
def Decides (compare : Compare) (g : Guard ObjectId) (P : Prop) : Prop :=
  ∃ r : Bool, compare g = (r, g) ∧ (r = true ↔ P)

variable {x y : Compare} {g : Guard ObjectId} {P Q : Prop}

namespace Decides

theorem congr (h : Decides x g P) (hPQ : P ↔ Q) : Decides x g Q := by
  obtain ⟨r, hr, hP⟩ := h
  exact ⟨r, hr, hP.trans hPQ⟩

theorem ofBool {b : Bool} (h : b = true ↔ P) : Decides (pure b) g P := ⟨b, rfl, h⟩

theorem yes (h : P) : Decides (pure true) g P := ofBool (by simp [h])

theorem no (h : ¬P) : Decides (pure false) g P := ofBool (by simp [h])

theorem answer (h : Decides x g P) : (x.run g).1 = true ↔ P := by
  obtain ⟨r, hr, hP⟩ := h
  simp only [StateT.run, hr]
  exact hP

/-- What is decided settles the run. -/
theorem unique (hx : Decides x g P) (hy : Decides y g P) : x g = y g := by
  obtain ⟨r, hr, hP⟩ := hx
  obtain ⟨q, hq, hQ⟩ := hy
  obtain rfl : r = q := Bool.eq_iff_iff.2 (hP.trans hQ.symm)
  rw [hr, hq]

theorem ite {c : Prop} [Decidable c] (hx : c → Decides x g P) (hy : ¬c → Decides y g P) :
    Decides (if c then x else y) g P := by
  split_ifs with h
  · exact hx h
  · exact hy h

/-- The second comparison is asked only if the first holds. -/
theorem both (hx : Decides x g P) (hy : P → Decides y g Q) : Decides (Guard.both x y) g (P ∧ Q) := by
  obtain ⟨r, hr, hP⟩ := hx
  cases r
  · have hnot : ¬P := fun h => by simp [h] at hP
    exact ⟨false, by simp [Guard.both, bind, StateT.bind, hr, pure, StateT.pure], by simp [hnot]⟩
  · have hyes : P := hP.1 rfl
    obtain ⟨q, hq, hQ⟩ := hy hyes
    exact ⟨q, by simp [Guard.both, bind, StateT.bind, hr, hq], by simp [hyes, hQ]⟩

/-- Comparisons are asked one after the other until one holds. -/
theorem anyM {α : Type} {f : α → Compare} {p : α → Prop} {xs : List α}
    (h : ∀ x ∈ xs, Decides (f x) g (p x)) : Decides (xs.anyM f) g (∃ x ∈ xs, p x) := by
  induction xs with
  | nil => exact .no (by simp)
  | cons x xs ih =>
    obtain ⟨r, hr, hP⟩ := h x (by simp)
    cases r
    · have hnot : ¬p x := fun hp => by simp [hp] at hP
      obtain ⟨q, hq, hQ⟩ := ih fun y hy => h y (by simp [hy])
      exact ⟨q, by simp [List.anyM, bind, StateT.bind, hr, hq], by simp [hQ, hnot]⟩
    · exact ⟨true, by simp [List.anyM, bind, StateT.bind, hr, pure, StateT.pure], by simp [hP.1 rfl]⟩

/-- A pair in progress is taken to hold. -/
theorem run_cut {o p : ObjectId} (h : (o, p) ∈ g.inProgress) : Decides (Guard.run o p x) g True :=
  ⟨true, by simp [Guard.run, bind, StateT.bind, get, getThe, MonadStateOf.get, StateT.get, h, pure,
    StateT.pure], by simp⟩

/-- Any other pair is in progress while its comparison runs. -/
theorem run_enter {o p : ObjectId} (h : (o, p) ∉ g.inProgress) (hx : Decides x (g.enter o p) P) :
    Decides (Guard.run o p x) g P := by
  obtain ⟨r, hr, hP⟩ := hx
  refine ⟨r, ?_, hP⟩
  simp [Guard.run, bind, StateT.bind, get, getThe, MonadStateOf.get, StateT.get, h, modify,
    modifyGet, MonadStateOf.modifyGet, StateT.modifyGet, pure, StateT.pure, hr]

end Decides

/-- A relation between nodes as one between types, through formers. -/
def Ty.Lift (N : Node → Node → Prop) : Ty → Ty → Prop
  | .basic b, .basic c => b = c
  | .former f t _, .former g u _ => f = g ∧ Lift N t u
  | .object o, .object p => N (.object o) (.object p)
  | .typeSet a, .typeSet b => N (.typeSet a) (.typeSet b)
  | _, _ => False

variable {nodes : Node → Node → Compare} {N M : Node → Node → Prop}

theorem Ty.Lift.mono (h : ∀ a b, N a b → M a b) {t u : Ty} (hl : t.Lift N u) : t.Lift M u := by
  induction t generalizing u with
  | basic | object | typeSet => cases u <;> simp_all [Ty.Lift]
  | former f t m ih =>
    cases u <;> simp only [Ty.Lift] at hl ⊢
    exact ⟨hl.1, ih hl.2⟩

/-- Only the nodes that the types refer to are compared. -/
theorem Ty.decides_equalsWith {t u : Ty}
    (h : ∀ a ∈ t.nodes, ∀ b ∈ u.nodes, Decides (nodes a b) g (N a b)) :
    Decides (t.equalsWith nodes u) g (t.Lift N u) := by
  induction t generalizing u with
  | basic b =>
    cases u with
    | basic c => exact .ofBool (by simp [Lift])
    | former | object | typeSet => exact .no (by simp [Lift])
  | former f t m ih =>
    cases u with
    | former f' u n =>
      have hparameter : f = f' → Decides (t.equalsWith nodes u) g (f = f' ∧ t.Lift N u) :=
        fun hf => (ih (u := u) h).congr (by simp [hf])
      exact .ite hparameter fun hf => .no fun hl => hf hl.1
    | basic | object | typeSet => exact .no (by simp [Lift])
  | object o =>
    cases u with
    | object p => exact h _ (by simp [Ty.nodes]) _ (by simp [Ty.nodes])
    | basic | former | typeSet => exact .no (by simp [Lift])
  | typeSet a =>
    cases u with
    | typeSet b => exact h _ (by simp [Ty.nodes]) _ (by simp [Ty.nodes])
    | basic | former | object => exact .no (by simp [Lift])

namespace Value

mutual

theorem decides_equalsWith : ∀ v w : Value,
    (∀ a ∈ v.nodes, ∀ b ∈ w.nodes, Decides (nodes a b) g (N a b)) →
    Decides (v.equalsWith nodes w) g (v.Related (Ty.Lift N) w)
  | .undef, w, _ => by
    cases w
    case undef => exact .yes trivial
    all_goals exact .no id
  | .bool a, w, _ => by
    cases w
    case bool => exact .ofBool (by simp [Related])
    all_goals exact .no id
  | .integer a, w, _ => by
    cases w
    case integer => exact .ofBool (by simp [Related])
    all_goals exact .no id
  | .float a, w, _ => by
    cases w
    case float => exact .ofBool (by simp [Related])
    all_goals exact .no id
  | .string a, w, _ => by
    cases w
    case string => exact .ofBool (by simp [Related])
    all_goals exact .no id
  | .array xs, w, h => by
    cases w
    case array ys => exact decides_equalListWith xs ys h
    all_goals exact .no id
  | .type t, w, h => by
    cases w
    case type u => exact Ty.decides_equalsWith h
    all_goals exact .no id
  | .iterator c t, w, h => by
    cases w
    case iterator d u => exact Ty.decides_equalsWith h
    all_goals exact .no id
  | .object m o fs, w, h => by
    cases w
    case object n p gs =>
      have htypes : Decides (nodes (.object o) (.object p)) g (N (.object o) (.object p)) :=
        h _ List.mem_cons_self _ List.mem_cons_self
      have hfields : Decides
          (if fs.length = gs.length then equalFieldsWith nodes fs gs else pure false) g
          (fs.length = gs.length ∧ RelatedFields (Ty.Lift N) fs gs) := by
        refine .ite (fun hl => ?_) fun hl => .no (by simp [hl])
        refine (decides_equalFieldsWith fs gs fun a ha b hb => ?_).congr (by simp [hl])
        exact h a (List.mem_cons_of_mem _ ha) b (List.mem_cons_of_mem _ hb)
      refine .ite (fun he => .yes (.inl he)) fun he => ?_
      exact (htypes.both fun _ => hfields).congr (by simp only [Related, he, false_or, Ty.Lift])
    all_goals exact .no id

theorem decides_equalListWith : ∀ xs ys : List Value,
    (∀ a ∈ nodesOfList xs, ∀ b ∈ nodesOfList ys, Decides (nodes a b) g (N a b)) →
    Decides (equalListWith nodes xs ys) g (RelatedList (Ty.Lift N) xs ys)
  | [], [], _ => .yes trivial
  | [], _ :: _, _ => .no id
  | _ :: _, [], _ => .no id
  | x :: xs, y :: ys, h => by
    refine (decides_equalsWith x y fun a ha b hb => ?_).both fun _ =>
      decides_equalListWith xs ys fun a ha b hb => ?_
    · exact h a (List.mem_append_left _ ha) b (List.mem_append_left _ hb)
    · exact h a (List.mem_append_right _ ha) b (List.mem_append_right _ hb)

theorem decides_equalFieldsWith : ∀ fs gs : List (String × Value),
    (∀ a ∈ nodesOfFields fs, ∀ b ∈ nodesOfFields gs, Decides (nodes a b) g (N a b)) →
    Decides (equalFieldsWith nodes fs gs) g (RelatedFields (Ty.Lift N) fs gs)
  | [], _, _ => .yes trivial
  | (k, x) :: fs, gs, h => by
    simp only [equalFieldsWith, RelatedFields]
    cases hk : find? k gs with
    | none => exact .no (by simp)
    | some y =>
      have hfirst := decides_equalsWith x y fun a ha b hb =>
        h a (List.mem_append_left _ ha) b (nodes_subset_of_find? hk hb)
      have hrest := decides_equalFieldsWith fs gs fun a ha b hb =>
        h a (List.mem_append_right _ ha) b hb
      exact (hfirst.both fun _ => hrest).congr (by simp)

end

end Value

theorem Attribute.decides_equalsWith {a b : Attribute}
    (h : ∀ x ∈ a.nodes, ∀ y ∈ b.nodes, Decides (nodes x y) g (N x y)) :
    Decides (a.equalsWith nodes b) g (a.Related (Ty.Lift N) b) := by
  have htypes := Ty.decides_equalsWith fun x hx y hy =>
    h x (List.mem_append_left _ hx) y (List.mem_append_left _ hy)
  refine htypes.both fun _ => ?_
  cases ha : a.default with
  | none =>
    cases hb : b.default with
    | none => exact .yes .none
    | some w => exact .no nofun
  | some v =>
    cases hb : b.default with
    | none => exact .no nofun
    | some w =>
      have hv : v.nodes ⊆ a.nodes := by simp [Attribute.nodes, ha]
      have hw : w.nodes ⊆ b.nodes := by simp [Attribute.nodes, hb]
      exact (Value.decides_equalsWith v w fun x hx y hy => h x (hv hx) y (hw hy)).congr (by simp)

theorem Attribute.decides_equalListWith : ∀ as bs : List (String × Attribute),
    (∀ x ∈ as.flatMap (·.2.nodes), ∀ y ∈ bs.flatMap (·.2.nodes), Decides (nodes x y) g (N x y)) →
    Decides (equalListWith nodes as bs) g (AttributesRelated (Ty.Lift N) as bs)
  | [], [], _ => .yes .nil
  | [], _ :: _, _ => .no nofun
  | _ :: _, [], _ => .no nofun
  | (k, a) :: as, (l, b) :: bs, h => by
    simp only [List.flatMap_cons] at h
    refine .ite (fun hk => ?_) fun hk => .no fun hr => ?_
    · have hfirst := Attribute.decides_equalsWith (a := a) (b := b) fun x hx y hy =>
        h x (List.mem_append_left _ hx) y (List.mem_append_left _ hy)
      have hrest := decides_equalListWith as bs fun x hx y hy =>
        h x (List.mem_append_right _ hx) y (List.mem_append_right _ hy)
      exact (hfirst.both fun _ => hrest).congr (by simp [AttributesRelated, hk])
    · cases hr with
      | cons hab _ => exact hk hab.1

/-- Each member of a set has a member of its name in the other that is compared with it. -/
theorem TypeSet.decides_membersEqualWith {b : TypeSet} {members : List (String × Ty)}
    (h : ∀ x ∈ members.flatMap (·.2.nodes), ∀ y, Decides (nodes x y) g (N x y)) :
    Decides (b.membersEqualWith nodes members) g
      (∀ e ∈ members, ∃ u, b.members.get? e.1 = some u ∧ e.2.Lift N u) := by
  induction members with
  | nil => exact .yes (by simp)
  | cons e members ih =>
    simp only [List.flatMap_cons] at h
    simp only [TypeSet.membersEqualWith]
    cases hk : b.members.get? e.1 with
    | none => exact .no (by simp [hk])
    | some u =>
      have hfirst := Ty.decides_equalsWith (t := e.2) (u := u) fun x hx y _ =>
        h x (List.mem_append_left _ hx) y
      have hrest := ih fun x hx => h x (List.mem_append_right _ hx)
      exact (hfirst.both fun _ => hrest).congr (by simp [hk])

end TypeLattice
