import TypeLattice.Proofs.Filters
import TypeLattice.Proofs.Pipelines

/-!
# Collecting a cursor

A cursor without stages is collected in one step and not by pulling it. What is left of its array
comes back as it is, so the two ways agree as long as no iterator is left: pulling collects it.
-/
namespace TypeLattice

open Runs

variable {κ σ : Type} {cb : Callbacks κ σ} {p n : ℕ} {line : Pipeline κ} {items vs us : List Value}
  {v : Value} {w w' : World κ σ}

namespace World

theorem setSource_setSource (w : World κ σ) (i : ℕ) (a b : Source κ) :
    (w.setSource i a).setSource i b = w.setSource i b := by
  simp [setSource]

theorem Stands.setSource_self (h : w.Stands p line items n) :
    w.setSource line.source (.array items n) = w := by
  obtain ⟨hlt, hget⟩ := Array.getElem?_eq_some_iff.1 h.source
  rw [setSource, ← hget, Array.setIfInBounds_def, dif_pos hlt, Array.set_getElem_self]

end World

namespace Run

/-- The whole rest of the array at once. -/
theorem collect_cursor (cb : Callbacks κ σ) (hw : w.Stands p line items n)
    (hline : line.stages = []) :
    collect cb p w =
      .ok (items.drop n) (w.setSource line.source (.array items items.length)) := by
  have hsource := hw.source
  rw [← hw.pipeline] at hline hsource ⊢
  exact (access cb).collectWithin_cursor hline hsource

theorem pull_cursor (cb : Callbacks κ σ) (hw : w.Stands p line items n)
    (hline : line.stages = []) : pull cb p w = pullSource cb line.source w := by
  rw [pull, Access.pull_eq, hw.pipeline, hline, Access.pullStages]

theorem plain_of_collectElement {collect : ℕ → Run κ σ (List Value)} {u : Value}
    (h : collectElement collect u w = .ok v w') : v.Plain := by
  cases u with
  | iterator q t =>
    obtain ⟨vs, w₁, _, h⟩ := of_bind_ok h
    cases h
    trivial
  | _ =>
    cases h
    trivial

theorem plain_of_fold {next : Run κ σ Step} {collect : ℕ → Run κ σ (List Value)} {bound : ℕ}
    (hvs : ∀ v ∈ vs, v.Plain)
    (h : Loop.fold next (fun xs v => do return .go (xs ++ [← collectElement collect v])) bound vs
      w = .ok us w') : ∀ u ∈ us, u.Plain := by
  induction bound generalizing w vs with
  | zero => cases h
  | succ bound ih =>
    obtain ⟨step, w₁, _, h⟩ := of_bind_ok h
    cases step with
    | done | stop =>
      cases h
      exact hvs
    | value u =>
      obtain ⟨flow, w₂, hflow, h⟩ := of_bind_ok h
      obtain ⟨u', w₃, hu', hflow⟩ := of_bind_ok hflow
      cases hflow
      refine ih (fun v hv => ?_) h
      rcases List.mem_append.1 hv with hv | hv
      · exact hvs v hv
      · rw [List.mem_singleton.1 hv]
        exact plain_of_collectElement hu'

/-- No element that was pulled is an iterator. -/
theorem plain_of_drain (h : drain cb p w = .ok us w') : ∀ u ∈ us, u.Plain :=
  plain_of_fold (fun _ hv => absurd hv List.not_mem_nil) h

/-- Elements that are no iterators are pulled as they are, up to the end of the array. -/
theorem fold_cursor (collect : ℕ → Run κ σ (List Value)) (hline : line.stages = [])
    (hw : w.Stands p line items n) (hn : n ≤ items.length) {bound : ℕ}
    (hbound : items.length - n < bound) (hplain : ∀ v ∈ items.drop n, v.Plain) (vs : List Value) :
    Loop.fold (pull cb p) (fun xs v => do return .go (xs ++ [← collectElement collect v])) bound vs
      w = .ok (vs ++ items.drop n) (w.setSource line.source (.array items items.length)) := by
  induction bound generalizing n w vs with
  | zero => exact absurd hbound (Nat.not_lt_zero _)
  | succ bound ih =>
    rcases hn.eq_or_lt with rfl | hlt
    · have hpull : pull cb p w = .ok .done w := by
        rw [pull_cursor cb hw hline, pullSource_done hw.source (List.getElem?_length items)]
      rw [Loop.fold, bind_of_ok hpull, List.drop_length, List.append_nil, hw.setSource_self]
      rfl
    · have hv : items[n]? = some items[n] := List.getElem?_eq_getElem hlt
      have hpull : pull cb p w = .ok (.value items[n])
          (w.setSource line.source (.array items (n + 1))) := by
        rw [pull_cursor cb hw hline, pullSource_value hw.source hv]
      rw [List.drop_eq_getElem_cons hlt] at hplain ⊢
      have helement : ∀ w : World κ σ,
          (do return .go (vs ++ [← collectElement collect items[n]]) :
            Run κ σ (Flow (List Value))) w = .ok (.go (vs ++ [items[n]])) w := by
        intro w
        have hfirst := hplain _ List.mem_cons_self
        generalize items[n] = v at hfirst
        cases v with
        | iterator q t => exact hfirst.elim
        | _ => rfl
      rw [Loop.fold, bind_of_ok hpull]
      dsimp only
      rw [bind_of_ok (helement _)]
      dsimp only
      rw [ih hw.take hlt (by omega) (fun v hv => hplain v (List.mem_cons_of_mem _ hv)),
        World.setSource_setSource, List.append_assoc, List.singleton_append]

theorem drain_cursor (cb : Callbacks κ σ) (hw : w.Stands p line items n)
    (hline : line.stages = []) (hn : n ≤ items.length) (hplain : ∀ v ∈ items.drop n, v.Plain) :
    drain cb p w = .ok (items.drop n) (w.setSource line.source (.array items items.length)) := by
  have hpulls : w.pulls cb p = items.length - n + 1 := by
    simp [World.pulls, World.supply, hw.pipeline, hw.source]
  have hrun : drain cb p w = Loop.fold (pull cb p)
      (fun vs v => do return .go (vs ++ [← collectElement (collect cb) v])) (w.pulls cb p) [] w :=
    rfl
  rw [hrun, fold_cursor _ hline hw hn (by omega) hplain, List.nil_append]

/-- Collecting a cursor returns what is left of the array and puts the cursor to its end. That is
what pulling does exactly if no iterator is left. -/
theorem collect_eq_drain_iff (cb : Callbacks κ σ) (hw : w.Stands p line items n)
    (hline : line.stages = []) (hn : n ≤ items.length) :
    collect cb p w =
        .ok (items.drop n) (w.setSource line.source (.array items items.length)) ∧
      (collect cb p w = drain cb p w ↔ ∀ v ∈ items.drop n, v.Plain) := by
  have hcollect := collect_cursor cb hw hline
  refine ⟨hcollect, fun h => ?_, fun hplain => ?_⟩
  · exact plain_of_drain (h.symm.trans hcollect)
  · rw [hcollect, drain_cursor cb hw hline hn hplain]

end Run

/-- A cursor over an iterator and an integer. The iterator is a cursor over two integers. -/
def World.nested (position : ℕ) : World Unit (List Value) where
  sources := #[.array [.integer 1, .integer 2] 0,
    .array [.iterator 0 (.basic .integer), .integer 3] position]
  pipelines := #[{ source := 0 }, { source := 1 }]
  user := []

/-- Behind the iterator the two ways agree. -/
theorem Run.collect_eq_drain_nested :
    (World.nested 1).Stands 1 { source := 1 } [.iterator 0 (.basic .integer), .integer 3] 1 ∧
      collect .noting 1 (.nested 1) = drain .noting 1 (.nested 1) := by
  have hw : (World.nested 1).Stands 1 { source := 1 }
      [.iterator 0 (.basic .integer), .integer 3] 1 := ⟨rfl, rfl⟩
  have hagree := (collect_eq_drain_iff .noting hw rfl (by decide)).2
  exact ⟨hw, hagree.2 (by simp [Value.Plain])⟩

/-- The iterator comes back from the one way and its elements from the other. -/
theorem Run.collect_ne_drain_nested :
    (do ofArray (.basic .any) [← ofArray (.basic .integer) [.integer 1, .integer 2], .integer 3])
        { user := [] } = .ok (.iterator 1 (.basic .any)) (World.nested 0) ∧
      collect .noting 1 (.nested 0) =
        .ok [.iterator 0 (.basic .integer), .integer 3] (.nested 2) ∧
      ∃ w, drain .noting 1 (.nested 0) =
        .ok [.array [.integer 1, .integer 2], .integer 3] w :=
  ⟨rfl, rfl, _, rfl⟩

end TypeLattice
