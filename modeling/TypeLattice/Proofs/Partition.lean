import TypeLattice.Proofs.Pipelines

/-!
# Selecting and rejecting

Two iterators over one array, of which one keeps the elements that pass a test and the other those
that fail it, are collected. Both walks are cut off at the same element, the first one at which the
test stops or fails. The elements before it are divided among the two results, which is said of
their positions, since the array may hold a value more than once.
-/
namespace TypeLattice

open Runs

variable {κ σ α : Type}

/-- The computation ends with `r`, in whichever world it is run. -/
def Run.Gives (x : Run κ σ α) (r : Except Failure α) : Prop := ∀ w, ∃ w', x w = ending r w'

variable {f : Value → Except Failure (Flow Bool)} {items : List Value} {m : ℕ}

/-- The answer of a test that goes on. -/
def answer? : Except Failure (Flow Bool) → Option Bool
  | .ok (.go b) => some b
  | .ok .stop | .error _ => none

theorem answer?_eq_some_iff {r : Except Failure (Flow Bool)} {b : Bool} :
    answer? r = some b ↔ r = .ok (.go b) := by
  rcases r with e | _ | b' <;> simp [answer?]

/-- The elements before the first one at which the test stops, or the error with which it fails
before that. -/
def cut (f : Value → Except Failure (Flow Bool)) : List Value → Except Failure (List Value)
  | [] => .ok []
  | v :: vs =>
    match f v with
    | .ok (.go _) => (cut f vs).map (v :: ·)
    | .ok .stop => .ok []
    | .error e => .error e

/-- The test goes on at the first `m` elements. -/
def GoesOn (f : Value → Except Failure (Flow Bool)) (items : List Value) (m : ℕ) : Prop :=
  ∀ i < m, ∃ v b, items[i]? = some v ∧ f v = .ok (.go b)

theorem GoesOn.zero : GoesOn f items 0 := fun _ h => (Nat.not_lt_zero _ h).elim

theorem GoesOn.cons {v : Value} {b : Bool} (hv : f v = .ok (.go b)) (h : GoesOn f items m) :
    GoesOn f (v :: items) (m + 1) := by
  intro i hi
  cases i with
  | zero => exact ⟨v, b, rfl, hv⟩
  | succ i => exact h i (Nat.lt_of_succ_lt_succ hi)

/-- The first element at which the test does not go on ends the cut: it fails with the test there,
or gives the elements before. -/
theorem cut_cases (f : Value → Except Failure (Flow Bool)) (items : List Value) :
    ∃ m ≤ items.length, GoesOn f items m ∧
      ((∃ v e, items[m]? = some v ∧ f v = .error e ∧ cut f items = .error e) ∨
        ((∀ v, items[m]? = some v → f v = .ok .stop) ∧ cut f items = .ok (items.take m))) := by
  induction items with
  | nil => exact ⟨0, Nat.le_refl 0, .zero, .inr ⟨by simp, rfl⟩⟩
  | cons v vs ih =>
    rw [cut]
    rcases hv : f v with e | b | _
    · exact ⟨0, Nat.zero_le _, .zero, .inl ⟨v, e, rfl, hv, rfl⟩⟩
    · obtain ⟨m, hm, hgo, hend⟩ := ih
      refine ⟨m + 1, Nat.succ_le_succ hm, hgo.cons hv, ?_⟩
      rcases hend with ⟨u, e, hu, he, hcut⟩ | ⟨hstop, hcut⟩
      · exact .inl ⟨u, e, hu, he, by rw [hcut]; rfl⟩
      · exact .inr ⟨hstop, by rw [hcut]; rfl⟩
    · refine ⟨0, Nat.zero_le _, .zero, .inr ⟨?_, rfl⟩⟩
      rintro _ ⟨⟩
      exact hv

section

variable {cb : Callbacks κ σ} {test : κ} {want : Bool} {i p : ℕ} {line : Pipeline κ}
  {w : World κ σ}

/-- What becomes of an element by the answer of the test. -/
def Fate.ofFlow (want : Bool) (v : Value) : Flow Bool → Fate
  | .go b => if b = want then .survives v else .dropped
  | .stop => .stopped

theorem Stage.applyAll_keep (cb : Callbacks κ σ) (test : κ) (want : Bool) (v : Value) :
    applyAll cb [.keep test want] v = Fate.ofFlow want v <$> cb.test test v := by
  simp only [applyAll, apply, bind_assoc, map_eq_pure_bind]
  congr 1
  funext flow
  cases flow with
  | stop => simp only [pure_bind, Fate.ofFlow]
  | go b => by_cases hb : b = want <;> simp [hb, Fate.ofFlow]

/-- The elements on which the test gives `want`. -/
def keptOf (f : Value → Except Failure (Flow Bool)) (want : Bool) (vs : List Value) : List Value :=
  vs.filter fun v => answer? (f v) = some want

/-- The walk collects the elements of the cut that are wanted. -/
theorem Consumer.walk_keep (htest : ∀ v, (cb.test test v).Gives (f v)) (vs : List Value) (n : ℕ)
    (kept : List Value) (w : World κ σ) :
    ∃ w', collecting.walk cb i items [.keep test want] vs n kept w =
      ending ((cut f vs).map (kept ++ keptOf f want ·)) w' := by
  induction vs generalizing n kept w with
  | nil => exact ⟨w, congrArg (EStateM.Result.ok · w) (List.append_nil kept).symm⟩
  | cons v vs ih =>
    obtain ⟨w₂, htested⟩ := htest v (w.setSource i (.array items (n + 1)))
    have happly := map_of_ending (Fate.ofFlow want v) htested
    rw [← Stage.applyAll_keep] at happly
    rw [walk, bind_of_ok (modify_eq _), cut]
    rcases hv : f v with e | b | _
    · rw [hv] at happly
      exact ⟨w₂, bind_of_error happly⟩
    · rw [hv] at happly
      rw [bind_of_ok happly]
      dsimp only [Fate.ofFlow]
      split_ifs with hb
      · obtain ⟨w', hrest⟩ := ih (n + 1) (kept ++ [v]) w₂
        refine ⟨w', hrest.trans ?_⟩
        cases cut f vs <;> simp [Except.map, keptOf, hv, answer?, hb]
      · obtain ⟨w', hrest⟩ := ih (n + 1) kept w₂
        refine ⟨w', hrest.trans ?_⟩
        cases cut f vs <;> simp [Except.map, keptOf, hv, answer?, hb]
    · rw [hv] at happly
      refine ⟨w₂, (bind_of_ok happly).trans ?_⟩
      exact congrArg (EStateM.Result.ok · w₂) (List.append_nil kept).symm

/-- Collecting fails as the cut does, or gives the elements of the cut that are wanted. -/
theorem Run.collect_keep (hitems : ∀ v ∈ items, v.Plain)
    (htest : ∀ v, (cb.test test v).Gives (f v))
    (hspares : ∀ v, (cb.test test v).Spares p line.source)
    (hline : line.stages = [.keep test want]) (hw : w.Stands p line items 0) :
    ∃ w', collect cb p w = ending ((cut f items).map (keptOf f want)) w' := by
  have hstages : ∀ s ∈ line.stages, s.Tame cb p line.source := by
    rw [hline]
    intro s hs
    rw [List.mem_singleton.1 hs]
    exact hspares
  have hcollect := collect_pull hstages hitems hw (by simp [hline])
  obtain ⟨w', hwalk⟩ : ∃ w', Consumer.collecting.walk cb line.source items [.keep test want] items
      0 [] w = ending ((cut f items).map (keptOf f want)) w' :=
    Consumer.walk_keep htest items 0 [] w
  refine ⟨w', hcollect.trans ?_⟩
  rw [hline, Consumer.walkFrom, List.drop_zero]
  exact hwalk

end

/-- Those of the first `m` positions at whose elements the test gives `want`. -/
def positions (f : Value → Except Failure (Flow Bool)) (items : List Value) (m : ℕ) (want : Bool) :
    List ℕ :=
  (List.range m).filter fun i => (items[i]?.bind fun v => answer? (f v)) = some want

variable {want : Bool}

theorem mem_positions {i : ℕ} :
    i ∈ positions f items m want ↔ i < m ∧ ∃ v, items[i]? = some v ∧ f v = .ok (.go want) := by
  simp only [positions, List.mem_filter, List.mem_range, decide_eq_true_eq, Option.bind_eq_some_iff,
    answer?_eq_some_iff]

theorem pairwise_positions : (positions f items m want).Pairwise (· < ·) :=
  List.pairwise_lt_range.filter _

theorem map_some_keptOf_take (hm : m ≤ items.length) :
    (keptOf f want (items.take m)).map some = (positions f items m want).map (items[·]?) := by
  induction m with
  | zero => rfl
  | succ m ih =>
    have hlt : m < items.length := hm
    have hget : items[m]? = some items[m] := List.getElem?_eq_getElem hlt
    have ih := ih (Nat.le_of_lt hlt)
    rw [keptOf, positions] at ih ⊢
    rw [List.take_succ_eq_append_getElem hlt, List.range_succ, List.filter_append,
      List.filter_append, List.map_append, List.map_append, ih]
    by_cases hpass : answer? (f items[m]) = some want <;> simp [hget, hpass]

/-- A test that goes on gives one of two answers. -/
theorem positions_perm (h : GoesOn f items m) :
    (positions f items m true ++ positions f items m false).Perm (List.range m) := by
  have hfalse : positions f items m false = (List.range m).filter fun i =>
      !decide ((items[i]?.bind fun v => answer? (f v)) = some true) := by
    refine List.filter_congr fun i hi => ?_
    obtain ⟨v, b, hv, hb⟩ := h i (List.mem_range.1 hi)
    cases b <;> simp [hv, hb, answer?]
  rw [hfalse]
  exact List.filter_append_perm _ _

/-- The results have the elements at two ascending rows of positions, which divide the first `m`
positions: at the ones of the first row the test passes, at those of the other it fails. -/
structure Partitioned (f : Value → Except Failure (Flow Bool)) (items : List Value) (m : ℕ)
    (selected rejected : List Value) (is js : List ℕ) : Prop where
  selected_eq : selected.map some = is.map (items[·]?)
  rejected_eq : rejected.map some = js.map (items[·]?)
  selected_ascending : is.Pairwise (· < ·)
  rejected_ascending : js.Pairwise (· < ·)
  perm : (is ++ js).Perm (List.range m)
  mem_selected : ∀ i, i ∈ is ↔ i < m ∧ ∃ v, items[i]? = some v ∧ f v = .ok (.go true)
  mem_rejected : ∀ j, j ∈ js ↔ j < m ∧ ∃ v, items[j]? = some v ∧ f v = .ok (.go false)

theorem partitioned_keptOf (hm : m ≤ items.length) (h : GoesOn f items m) :
    Partitioned f items m (keptOf f true (items.take m)) (keptOf f false (items.take m))
      (positions f items m true) (positions f items m false) where
  selected_eq := map_some_keptOf_take hm
  rejected_eq := map_some_keptOf_take hm
  selected_ascending := pairwise_positions
  rejected_ascending := pairwise_positions
  perm := positions_perm h
  mem_selected _ := mem_positions
  mem_rejected _ := mem_positions

/-- The two iterators are cut off at the same element, the first one at which the test does not go
on, if there is any. If it fails there, both fail with its error. Otherwise they divide the elements
before. -/
theorem Run.select_reject_partition {cb : Callbacks κ σ} {yes no : κ} {p q : ℕ}
    {line line' : Pipeline κ} {w w' : World κ σ} (hitems : ∀ v ∈ items, v.Plain)
    (hyes : ∀ v, (cb.test yes v).Gives (f v) ∧ (cb.test yes v).Spares p line.source)
    (hno : ∀ v, (cb.test no v).Gives (f v) ∧ (cb.test no v).Spares q line'.source)
    (hw : w.Stands p line items 0) (hline : line.stages = [.keep yes true])
    (hw' : w'.Stands q line' items 0) (hline' : line'.stages = [.keep no false]) :
    ∃ m ≤ items.length, GoesOn f items m ∧
      ((∃ v e u u', items[m]? = some v ∧ f v = .error e ∧
          collect cb p w = .error e u ∧ collect cb q w' = .error e u') ∨
        ((∀ v, items[m]? = some v → f v = .ok .stop) ∧ ∃ selected rejected u u' is js,
          collect cb p w = .ok selected u ∧ collect cb q w' = .ok rejected u' ∧
          Partitioned f items m selected rejected is js)) := by
  obtain ⟨u, hselect⟩ := collect_keep hitems (fun v => (hyes v).1) (fun v => (hyes v).2) hline hw
  obtain ⟨u', hreject⟩ := collect_keep hitems (fun v => (hno v).1) (fun v => (hno v).2) hline' hw'
  obtain ⟨m, hm, hgo, ⟨v, e, hv, he, hcut⟩ | ⟨hstop, hcut⟩⟩ := cut_cases f items
  · rw [hcut] at hselect hreject
    exact ⟨m, hm, hgo, .inl ⟨v, e, u, u', hv, he, hselect, hreject⟩⟩
  · rw [hcut] at hselect hreject
    exact ⟨m, hm, hgo, .inr ⟨hstop, _, _, u, u', _, _, hselect, hreject, partitioned_keptOf hm hgo⟩⟩

/-- What the test that notes its arguments gives. -/
def truth : Value → Except Failure (Flow Bool)
  | .bool b => .ok (.go b)
  | _ => .ok .stop

theorem Run.gives_noting (v : Value) : (Callbacks.noting.test () v).Gives (truth v) := by
  intro w
  refine ⟨{ w with user := w.user ++ [v] }, ?_⟩
  cases v <;> rfl

/-- Two cursors over the elements, with the ones that pass the test selected from the first and the
ones that fail it from the second. -/
def World.parted (m n : ℕ) (user : List Value) : World Unit (List Value) where
  sources := #[.array [.bool true, .bool false, .bool true, .undef, .bool true] m,
    .array [.bool true, .bool false, .bool true, .undef, .bool true] n]
  pipelines := #[{ source := 0, stages := [.keep () true] },
    { source := 1, stages := [.keep () false] }]
  user

/-- Both stop at the fourth element, whose position is in neither row. -/
theorem Run.partition_parted :
    let items : List Value := [.bool true, .bool false, .bool true, .undef, .bool true]
    let seen : List Value := [.bool true, .bool false, .bool true, .undef]
    collect .noting 0 (.parted 0 0 []) = .ok [.bool true, .bool true] (.parted 4 0 seen) ∧
    collect .noting 1 (.parted 4 0 seen) = .ok [.bool false] (.parted 4 4 (seen ++ seen)) ∧
    ∃ m is js, (∀ v, items[m]? = some v → truth v = .ok .stop) ∧
      Partitioned truth items m [.bool true, .bool true] [.bool false] is js := by
  intro items seen
  have hitems : ∀ v ∈ items, v.Plain := by simp [items, Value.Plain]
  have htest : ∀ (p i : ℕ) v, (Callbacks.noting.test () v).Gives (truth v) ∧
      (Callbacks.noting.test () v).Spares p i :=
    fun p i v => ⟨gives_noting v, Stage.tame_noting (.keep () true) v⟩
  have hselect : collect .noting 0 (.parted 0 0 []) =
      .ok [.bool true, .bool true] (.parted 4 0 seen) := rfl
  have hreject : collect .noting 1 (.parted 4 0 seen) =
      .ok [.bool false] (.parted 4 4 (seen ++ seen)) := rfl
  have hw : (World.parted 0 0 []).Stands 0 { source := 0, stages := [.keep () true] } items 0 :=
    ⟨rfl, rfl⟩
  have hw' : (World.parted 4 0 seen).Stands 1 { source := 1, stages := [.keep () false] } items 0 :=
    ⟨rfl, rfl⟩
  obtain ⟨m, -, -, hend⟩ :=
    select_reject_partition hitems (htest 0 0) (htest 1 1) hw rfl hw' rfl
  rcases hend with ⟨v, e, u, u', -, -, hfails, -⟩ | ⟨hstop, _, _, _, _, is, js, hs, hr, hparted⟩
  · cases hselect.symm.trans hfails
  · cases hselect.symm.trans hs
    cases hreject.symm.trans hr
    exact ⟨hselect, hreject, m, is, js, hstop, hparted⟩

end TypeLattice
