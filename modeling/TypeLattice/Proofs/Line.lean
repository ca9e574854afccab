import Mathlib
import TypeLattice.Object.Resolve

/-!
# Lines of ancestors

`Line s o l` says that the walk along parents from `o` ends and visits `l`. Where every walk ends,
no object type stands in its own line twice, so the cut-off in `Store.line` is never reached and
`Store.line` is the walk.
-/
namespace TypeLattice

theorem Variant.length_all : Variant.all.length = 14 := rfl

namespace Store

variable {s s' : Store} {o p q : ObjectId} {l m : List ObjectId}

/-- `o` and its ancestors, up to one that has no parent or no body yet. -/
inductive Line (s : Store) : ObjectId → List ObjectId → Prop
  | root {o : ObjectId} (last : s.parent? o = none) : Line s o [o]
  | link {o p : ObjectId} {l : List ObjectId} (parent : s.parent? o = some p)
      (rest : Line s p l) : Line s o (o :: l)

/-- Every walk along parents ends. -/
def Rooted (s : Store) : Prop := ∀ o, ∃ l, Line s o l

theorem Line.unique (h : Line s o l) (h' : Line s o m) : l = m := by
  induction h generalizing m with
  | root last =>
    cases h' with
    | root => rfl
    | link parent => simp [last] at parent
  | link parent _ ih =>
    cases h' with
    | root last => simp [last] at parent
    | link parent' rest' =>
      obtain rfl := Option.some.inj (parent.symm.trans parent')
      rw [ih rest']

theorem Line.self_mem (h : Line s o l) : o ∈ l := by
  cases h <;> simp

/-- The walk from an ancestor is the end of the walk. -/
theorem Line.of_mem (h : Line s o l) (hq : q ∈ l) : ∃ m, Line s q m ∧ m <:+ l := by
  induction h with
  | root last =>
    obtain rfl := List.mem_singleton.1 hq
    exact ⟨_, .root last, List.suffix_rfl⟩
  | @link o p l parent rest ih =>
    rcases List.mem_cons.1 hq with rfl | hq
    · exact ⟨_, .link parent rest, List.suffix_rfl⟩
    · obtain ⟨m, hm, hs⟩ := ih hq
      exact ⟨m, hm, hs.trans (List.suffix_cons o l)⟩

/-- Nothing is its own ancestor where walks end. -/
theorem Line.not_mem_tail (hp : s.parent? o = some p) (h : Line s p l) : o ∉ l := by
  intro ho
  obtain ⟨m, hm, hs⟩ := h.of_mem ho
  have he := hm.unique (.link hp h)
  have hle := hs.length_le
  simp [he] at hle

theorem Line.nodup (h : Line s o l) : l.Nodup := by
  induction h with
  | root => simp
  | link parent rest ih => exact List.nodup_cons.2 ⟨rest.not_mem_tail parent, ih⟩

/-- A walk meets the parent of everything that has one. -/
theorem Line.parent_mem (h : Line s o l) (hq : q ∈ l) (hp : s.parent? q = some p) : p ∈ l := by
  obtain ⟨m, hm, hs⟩ := h.of_mem hq
  cases hm with
  | root last => simp [last] at hp
  | link parent rest =>
    obtain rfl := Option.some.inj (parent.symm.trans hp)
    exact hs.subset (List.mem_cons_of_mem _ rest.self_mem)

/-- A walk only looks at the parents of what it visits. -/
theorem Line.congr (h : Line s o l) (hs : ∀ q ∈ l, s'.parent? q = s.parent? q) :
    Line s' o l := by
  induction h with
  | root last => exact .root ((hs _ (by simp)).trans last)
  | link parent _ ih =>
    exact .link ((hs _ (by simp)).trans parent) (ih fun q hq => hs q (by simp [hq]))

def objectIds (s : Store) : List ObjectId :=
  .default :: Variant.all.map .describing ++ (List.range s.objects.size).map .declared

theorem length_objectIds (s : Store) : s.objectIds.length = s.objectCount := by
  simp [objectIds, objectCount, Variant.length_all]
  omega

theorem mem_objectIds_of_body? {b : Body ObjectId} (h : s.body? o = some b) :
    o ∈ s.objectIds := by
  cases o with
  | default => simp [objectIds]
  | describing v => simp [objectIds, Variant.mem_all v]
  | declared n =>
    obtain ⟨node, hn, _⟩ := Option.bind_eq_some_iff.1 h
    have hlt := (Array.getElem?_eq_some_iff.1 hn).1
    simp [objectIds, hlt]

theorem mem_objectIds_of_parent? (h : s.parent? o = some p) : o ∈ s.objectIds := by
  obtain ⟨b, hb, _⟩ := Option.bind_eq_some_iff.1 h
  exact mem_objectIds_of_body? hb

/-- All but the last of a line have a parent, so they are among the object types of the store. -/
theorem Line.dropLast_subset (h : Line s o l) : l.dropLast ⊆ s.objectIds := by
  induction h with
  | root => simp
  | @link o p l parent rest ih =>
    have hl : l ≠ [] := List.ne_nil_of_mem rest.self_mem
    rw [List.dropLast_cons_of_ne_nil hl]
    exact List.cons_subset.2 ⟨mem_objectIds_of_parent? parent, ih⟩

theorem Line.length_le (h : Line s o l) : l.length ≤ s.nodeCount := by
  have hn : l.dropLast.Nodup := h.nodup.sublist (List.dropLast_sublist l)
  have hle := (List.subperm_of_subset hn h.dropLast_subset).length_le
  rw [List.length_dropLast, length_objectIds] at hle
  simp only [objectCount] at hle
  simp only [nodeCount]
  omega

theorem Line.lineUpTo_eq (h : Line s o l) {n : ℕ} (hn : l.length ≤ n) : s.lineUpTo n o = l := by
  induction h generalizing n with
  | root last =>
    obtain ⟨n, rfl⟩ := Nat.exists_eq_succ_of_ne_zero (Nat.pos_iff_ne_zero.1 hn)
    simp [lineUpTo, last]
  | link parent _ ih =>
    obtain ⟨n, rfl⟩ := Nat.exists_eq_succ_of_ne_zero (Nat.ne_zero_of_lt hn)
    simp [lineUpTo, parent, ih (Nat.le_of_succ_le_succ hn)]

theorem Line.line_eq (h : Line s o l) : s.line o = l := h.lineUpTo_eq h.length_le

/-- Where walks end, `line` is the walk. -/
theorem Rooted.line (h : s.Rooted) (o : ObjectId) : Line s o (s.line o) := by
  obtain ⟨l, hl⟩ := h o
  rwa [hl.line_eq]

theorem Rooted.line_of_parent (h : s.Rooted) (hp : s.parent? o = some p) :
    s.line o = o :: s.line p := (Line.link hp (h.line p)).line_eq

theorem Rooted.line_of_root (hp : s.parent? o = none) : s.line o = [o] := (Line.root hp).line_eq

/-- With `p` as the parent of `o`, `o` would be an ancestor of itself. -/
def WouldLoop (s : Store) (o p : ObjectId) : Prop :=
  Relation.TransGen (fun x y => Function.update s.parent? o (some p) x = some y) o o

theorem Line.reaches (h : Line s p l) (ho : o ∈ l) :
    Relation.ReflTransGen (fun x y => Function.update s.parent? o (some q) x = some y) p o := by
  induction h with
  | root => simp_all [Relation.ReflTransGen.refl]
  | @link x y l parent rest ih =>
    by_cases hx : x = o
    · rw [hx]
    · have hstep : Function.update s.parent? o (some q) x = some y := by simp [hx, parent]
      exact .head hstep (ih ((List.mem_cons.1 ho).resolve_left (Ne.symm hx)))

/-- A new link closes a loop exactly when the walk from the parent comes by. -/
theorem Rooted.wouldLoop_iff (h : s.Rooted) : s.WouldLoop o p ↔ o ∈ s.line p := by
  constructor
  · intro hl
    have key : ∀ y, Relation.TransGen
        (fun x y => Function.update s.parent? o (some p) x = some y) o y →
        o ∉ s.line p → y ∈ s.line p := by
      intro y hy ho
      induction hy with
      | single hstep =>
        obtain rfl : p = _ := by simpa using hstep
        exact (h.line p).self_mem
      | @tail x y _ hstep ih =>
        have hx : x ≠ o := fun he => ho (he ▸ ih)
        exact (h.line p).parent_mem ih (by simpa [hx] using hstep)
    by_contra ho
    exact ho (key o hl ho)
  · intro ho
    exact .head' (by simp) ((h.line p).reaches ho)

end Store
end TypeLattice
