import TypeLattice.Proofs.Assignability
import TypeLattice.Relation.Instance

/-!
# Assignability is sound for values

Comparing leaves the guard as it was, so the elements of an array are judged one by one as if each
were alone. With one equation for each form of a type on the values that belong to it, the values of
a type are values of every type that accepts it. Types as values are left out: `Object` accepts the
types that describe types, but no type belongs to it.
-/
namespace TypeLattice

variable {x : Compare} {g : Guard ObjectId}

/-- Run with the guard `g`, the comparison leaves it as it was. -/
def Keeps (compare : Compare) (g : Guard ObjectId) : Prop := (compare g).2 = g

theorem Decides.keeps {P : Prop} (h : Decides x g P) : Keeps x g := by
  obtain ⟨r, hr, _⟩ := h
  rw [Keeps, hr]

theorem Keeps.decides (h : Keeps x g) : Decides x g ((x.run g).1 = true) :=
  ⟨(x g).1, Prod.ext rfl h, Iff.rfl⟩

/-- Comparisons are asked one after the other until one fails. -/
theorem Decides.allM {α : Type} {f : α → Compare} {p : α → Prop} {xs : List α}
    (h : ∀ x ∈ xs, Decides (f x) g (p x)) : Decides (xs.allM f) g (∀ x ∈ xs, p x) := by
  induction xs with
  | nil => exact .yes (by simp)
  | cons x xs ih =>
    obtain ⟨r, hr, hP⟩ := h x List.mem_cons_self
    cases r
    · have hnot : ¬p x := fun hp => by simp [hp] at hP
      exact ⟨false, by simp [List.allM, bind, StateT.bind, hr, pure, StateT.pure], by simp [hnot]⟩
    · obtain ⟨q, hq, hQ⟩ := ih fun y hy => h y (List.mem_cons_of_mem x hy)
      exact ⟨q, by simp [List.allM, bind, StateT.bind, hr, hq], by simp [hQ, hP.1 rfl]⟩

namespace Value

mutual

/-- Neither a type nor an array with a type in it, at any depth. -/
def Typeless : Value → Prop
  | .type _ => False
  | .array xs => TypelessList xs
  | _ => True

def TypelessList : List Value → Prop
  | [] => True
  | x :: xs => Typeless x ∧ TypelessList xs

end

theorem typelessList_iff {xs : List Value} : TypelessList xs ↔ ∀ x ∈ xs, Typeless x := by
  induction xs with
  | nil => simp [TypelessList]
  | cons x xs ih => simp [TypelessList, ih]

end Value

namespace Store

variable {s : Store} {o : ObjectId} {t u : Ty} {v : Value} {m : ℕ}

/-- A pair that is entered is left again, one that is in progress is not entered, and what is
compared inside keeps whatever guard it is given. -/
theorem keeps_nodesEqualWithin (s : Store) {below : Node → Node → Compare}
    (hbelow : ∀ a b g, Keeps (below a b) g) (n : ℕ) (a b : Node) (g : Guard ObjectId) :
    Keeps (s.nodesEqualWithin below n a b) g := by
  induction n generalizing a b g with
  | zero => exact hbelow a b g
  | succ n ih =>
    have hinside := fun g x y => (ih x y g).decides
    simp only [nodesEqualWithin]
    split_ifs with he hl
    · rfl
    · cases a with
      | object o =>
        cases b with
        | typeSet => simp [labelsAgree] at hl
        | object p =>
          have hname : s.name? o = s.name? p := by simpa [labelsAgree] using hl
          by_cases hg : (o, p) ∈ g.inProgress
          · exact (Decides.run_cut hg).keeps
          · have hcontents := decides_objects hname fun x _ y _ => hinside (g.enter o p) x y
            exact (Decides.run_enter hg hcontents).keeps
      | typeSet c =>
        cases b with
        | object => simp [labelsAgree] at hl
        | typeSet d => exact (decides_typeSets hl fun x _ y => hinside g x y).keeps
    · rfl

theorem keeps_nodesEqual (s : Store) (a b : Node) (g : Guard ObjectId) :
    Keeps (s.nodesEqual a b) g := by
  apply keeps_nodesEqualWithin
  intros
  rfl

theorem keeps_acceptsWith (s : Store) (t u : Ty) (g : Guard ObjectId) :
    Keeps (s.acceptsWith t u) g := by
  fun_induction acceptsWith s t u with
  | case1 | case2 | case6 | case7 | case9 | case11 => rfl
  | case3 _ _ _ _ ih | case4 _ _ _ _ _ ih | case5 _ _ _ _ _ _ _ ih => exact ih
  | case8 o p =>
    have hline : Decides (s.inheritsWith o p) g
        (∃ q ∈ s.line p, ((s.nodesEqual (.object o) (.object q)).run g).1 = true) :=
      .anyM fun q _ => (s.keeps_nodesEqual (.object o) (.object q) g).decides
    exact hline.keeps
  | case10 a b => exact s.keeps_nodesEqual (.typeSet a) (.typeSet b) g

theorem keeps_isInstanceWith (s : Store) (t : Ty) (v : Value) (g : Guard ObjectId) :
    Keeps (s.isInstanceWith t v) g := by
  fun_induction isInstanceWith s t v with
  | case1 | case2 | case8 | case10 => rfl
  | case3 _ _ _ _ ih => exact ih
  | case4 t _ xs ih =>
    have hall : Decides (xs.allM fun x => s.isInstanceWith t x) g
        (∀ x ∈ xs, ((s.isInstanceWith t x).run g).1 = true) := .allM fun x _ => (ih x).decides
    exact hall.keeps
  | case5 | case6 | case7 | case9 => exact s.keeps_acceptsWith _ _ g

theorem isInstance_optional (s : Store) (t : Ty) (m : ℕ) (v : Value) :
    s.isInstance (.former .optional t m) v = (v.isUndef || s.isInstance t v) := by
  cases hv : v.isUndef <;> simp [isInstance, isInstanceWith, hv, StateT.run, pure, StateT.pure]

theorem isInstance_array_iff :
    s.isInstance (.former .array t m) v = true ↔
      ∃ xs, v = .array xs ∧ ∀ x ∈ xs, s.isInstance t x = true := by
  cases v with
  | array xs =>
    have hall : Decides (s.isInstanceWith (.former .array t m) (.array xs)) {}
        (∀ x ∈ xs, s.isInstance t x = true) :=
      .allM fun x _ => (s.keeps_isInstanceWith t x {}).decides
    refine ⟨fun h => ⟨xs, rfl, hall.answer.1 h⟩, ?_⟩
    rintro ⟨ys, hys, h⟩
    obtain rfl := Value.array.inj hys
    exact hall.answer.2 h
  | _ => simp [isInstance, isInstanceWith, StateT.run, pure, StateT.pure]

theorem isInstance_iterator_iff :
    s.isInstance (.former .iterator t m) v = true ↔
      ∃ c u, v = .iterator c u ∧ s.accepts t u = true := by
  cases v with
  | iterator c u => simp [isInstance, isInstanceWith, accepts]
  | _ => simp [isInstance, isInstanceWith, StateT.run, pure, StateT.pure]

theorem isInstance_type_iff :
    s.isInstance (.former .type t m) v = true ↔ ∃ u, v = .type u ∧ s.accepts t u = true := by
  cases v with
  | type u => simp [isInstance, isInstanceWith, accepts]
  | _ => simp [isInstance, isInstanceWith, StateT.run, pure, StateT.pure]

theorem isInstance_object_iff :
    s.isInstance (.object o) v = true ↔
      (∃ n p fs, v = .object n p fs ∧ s.accepts (.object o) (.object p) = true) ∨
        ∃ u, v = .type u ∧ s.isDefault o = false ∧
          s.accepts (.object o) (.object u.describer) = true := by
  cases v with
  | object n p fs => simp [isInstance, isInstanceWith, accepts]
  | type u =>
    cases hd : s.isDefault o <;>
      simp [isInstance, isInstanceWith, accepts, hd, StateT.run, pure, StateT.pure]
  | _ => simp [isInstance, isInstanceWith, StateT.run, pure, StateT.pure]

theorem isInstance_typeSet (s : Store) (a : SetId) (v : Value) :
    s.isInstance (.typeSet a) v = false := rfl

theorem holds_of_accepts {b : Basic} (h : s.accepts (.basic b) u = true)
    (hv : s.isInstance u v = true) : b.holds v = true := by
  cases b with
  | any | unit => rfl
  | numeric =>
    obtain rfl | rfl | rfl : u = .basic .numeric ∨ u = .basic .integer ∨ u = .basic .float := by
      simpa [accepts_basic, Basic.accepts] using h
    · exact hv
    · cases v <;> first | rfl | exact hv
    · cases v <;> first | rfl | exact hv
  | _ =>
    obtain rfl := of_decide_eq_true h
    exact hv

/-- The values of a type, types and arrays of types apart, are values of each type that accepts
it. -/
theorem isInstance_of_accepts (hb : s.Built) (hh : s.Has t) (ht : s.Settled t)
    (hv : v.Typeless) (h : s.accepts t u = true) (hi : s.isInstance u v = true) :
    s.isInstance t v = true := by
  have hs := hb.wellFormed
  induction t generalizing u v with
  | basic b => exact holds_of_accepts h hi
  | former f t m ih =>
    have ih : ∀ {u v}, v.Typeless → s.accepts t u = true → s.isInstance u v = true →
        s.isInstance t v = true := fun hv h hi => ih hh ht hv h hi
    cases f with
    | optional =>
      rw [isInstance_optional, Bool.or_eq_true]
      rcases accepts_optional_iff.1 h with rfl | ⟨w, n, rfl, hw⟩ | ⟨_, hu⟩
      · exact .inl (by cases v <;> first | rfl | exact hi)
      · rw [isInstance_optional, Bool.or_eq_true] at hi
        exact hi.imp_right (ih hv hw)
      · exact .inr (ih hv hu hi)
    | array =>
      obtain ⟨w, n, rfl, hw⟩ := (accepts_former_iff (by decide)).1 h
      obtain ⟨xs, rfl, hxs⟩ := isInstance_array_iff.1 hi
      have hx := Value.typelessList_iff.1 hv
      exact isInstance_array_iff.2 ⟨xs, rfl, fun x hmem => ih (hx x hmem) hw (hxs x hmem)⟩
    | type =>
      obtain ⟨w, n, rfl, _⟩ := (accepts_former_iff (by decide)).1 h
      obtain ⟨x, rfl, _⟩ := isInstance_type_iff.1 hi
      exact hv.elim
    | iterator =>
      obtain ⟨w, n, rfl, hw⟩ := (accepts_former_iff (by decide)).1 h
      obtain ⟨c, x, rfl, hx⟩ := isInstance_iterator_iff.1 hi
      exact isInstance_iterator_iff.2 ⟨c, x, rfl, accepts_trans hs hh ht hw hx⟩
  | object o =>
    obtain ⟨p, rfl, _⟩ := (accepts_object_iff hs).1 h
    rcases isInstance_object_iff.1 hi with ⟨n, q, fs, rfl, hq⟩ | ⟨x, rfl, _⟩
    · exact isInstance_object_iff.2 (.inl ⟨n, q, fs, rfl, accepts_trans hs hh ht h hq⟩)
    · exact hv.elim
  | typeSet a =>
    obtain ⟨c, rfl, _⟩ := (accepts_typeSet_iff hs).1 h
    simp [isInstance_typeSet] at hi

def tops : Value := .array [.object 3 (.declared 2) [], .object 4 (.declared 2) []]

theorem lineage_isInstance : lineage.Built ∧ tops.Typeless ∧
    lineage.isInstance (.former .optional (.former .array (.object (.declared 0)) 1) 2) tops =
      true := by
  have htops : tops.Typeless := by simp [tops, Value.Typeless, Value.TypelessList]
  refine ⟨built_lineage, htops, ?_⟩
  refine isInstance_of_accepts (u := .former .array (.object (.declared 2)) 5) built_lineage
    ?_ ?_ htops ?_ ?_
  · simp [Has, Ty.nodes, Knows, lineage]
  · simp [Settled, Ty.nodes, name?, lineage]
  · decide +kernel
  · decide +kernel

end Store
end TypeLattice
