import TypeLattice.Proofs.Filters
import TypeLattice.Proofs.Pipelines

/-!
# Searches

Asking whether any element passes a test, whether all fail its negation, what the first one is that
passes, and pulling a filter for one element are the same search. How it ends is told apart from the
bound on its pulls: by one rule for each way in which a pull and a test can end it, and one for an
element that is passed over.
-/
namespace TypeLattice

open Runs

namespace Loop

variable {σ : Type} {next : EStateM Failure σ Step} {test : Value → EStateM Failure σ (Flow Bool)}
  {s s' : σ} {k n : ℕ} {x : Except Failure Finding}

/-- The search for an element that passes the test ends, after `k` pulls. It ends at the first
element that passes, or without one: because there are none left, because the iterator or the test
asks to stop, or because one of them fails. -/
inductive Searches (next : EStateM Failure σ Step) (test : Value → EStateM Failure σ (Flow Bool)) :
    σ → ℕ → Except Failure Finding → σ → Prop
  | found {s s₁ s' : σ} {v : Value} (pulled : next s = .ok (.value v) s₁)
      (tested : test v s₁ = .ok (.go true) s') : Searches next test s 1 (.ok (.found v)) s'
  | exhausted {s s' : σ} (pulled : next s = .ok .done s') :
      Searches next test s 1 (.ok .exhausted) s'
  | stopped {s s' : σ} (pulled : next s = .ok .stop s') : Searches next test s 1 (.ok .stopped) s'
  | testStopped {s s₁ s' : σ} {v : Value} (pulled : next s = .ok (.value v) s₁)
      (tested : test v s₁ = .ok .stop s') : Searches next test s 1 (.ok .stopped) s'
  | failed {s s' : σ} {e : Failure} (pulled : next s = .error e s') :
      Searches next test s 1 (.error e) s'
  | testFailed {s s₁ s' : σ} {v : Value} {e : Failure} (pulled : next s = .ok (.value v) s₁)
      (tested : test v s₁ = .error e s') : Searches next test s 1 (.error e) s'
  | passedOver {s s₁ s₂ s' : σ} {v : Value} {k : ℕ} {x : Except Failure Finding}
      (pulled : next s = .ok (.value v) s₁) (tested : test v s₁ = .ok (.go false) s₂)
      (rest : Searches next test s₂ k x s') : Searches next test s (k + 1) x s'

/-- The bound does not matter if it reaches to the end of the search. -/
theorem Searches.search_eq (h : Searches next test s k x s') (hn : k ≤ n) :
    search next test true n s = ending x s' := by
  induction h generalizing n with
  | found pulled tested | testStopped pulled tested =>
    obtain ⟨n, rfl⟩ := Nat.exists_eq_succ_of_ne_zero (Nat.ne_zero_of_lt hn)
    rw [search, bind_of_ok pulled]
    exact bind_of_ok tested
  | exhausted pulled | stopped pulled =>
    obtain ⟨n, rfl⟩ := Nat.exists_eq_succ_of_ne_zero (Nat.ne_zero_of_lt hn)
    exact bind_of_ok pulled
  | failed pulled =>
    obtain ⟨n, rfl⟩ := Nat.exists_eq_succ_of_ne_zero (Nat.ne_zero_of_lt hn)
    exact bind_of_error pulled
  | testFailed pulled tested =>
    obtain ⟨n, rfl⟩ := Nat.exists_eq_succ_of_ne_zero (Nat.ne_zero_of_lt hn)
    rw [search, bind_of_ok pulled]
    exact bind_of_error tested
  | passedOver pulled tested _ ih =>
    obtain ⟨n, rfl⟩ := Nat.exists_eq_succ_of_ne_zero (Nat.ne_zero_of_lt hn)
    rw [search, bind_of_ok pulled]
    dsimp only
    rw [bind_of_ok tested]
    exact ih (Nat.le_of_succ_le_succ hn)

/-- A search that does not run out of pulls ends within them. -/
theorem exists_searches (hx : x ≠ .error .outOfSteps)
    (h : search next test true n s = ending x s') :
    ∃ k ≤ n, Searches next test s k x s' := by
  induction n generalizing s with
  | zero =>
    cases x with
    | ok f => cases h
    | error e =>
      cases h
      exact (hx rfl).elim
  | succ n ih =>
    rw [search] at h
    cases pulled : next s with
    | error e s₁ =>
      rw [bind_of_error pulled] at h
      cases x <;> cases h
      exact ⟨1, Nat.le_add_left 1 n, .failed pulled⟩
    | ok step s₁ =>
      rw [bind_of_ok pulled] at h
      cases step with
      | done =>
        cases x <;> cases h
        exact ⟨1, Nat.le_add_left 1 n, .exhausted pulled⟩
      | stop =>
        cases x <;> cases h
        exact ⟨1, Nat.le_add_left 1 n, .stopped pulled⟩
      | value v =>
        dsimp only at h
        cases tested : test v s₁ with
        | error e s₂ =>
          rw [bind_of_error tested] at h
          cases x <;> cases h
          exact ⟨1, Nat.le_add_left 1 n, .testFailed pulled tested⟩
        | ok flow s₂ =>
          rw [bind_of_ok tested] at h
          cases flow with
          | stop =>
            cases x <;> cases h
            exact ⟨1, Nat.le_add_left 1 n, .testStopped pulled tested⟩
          | go b =>
            cases b with
            | true =>
              cases x <;> cases h
              exact ⟨1, Nat.le_add_left 1 n, .found pulled tested⟩
            | false =>
              obtain ⟨k, hk, hrest⟩ := ih h
              exact ⟨k + 1, Nat.succ_le_succ hk, .passedOver pulled tested hrest⟩

/-- Within a bound the search ends as the rules say, or it runs out of pulls. -/
theorem search_eq_iff (hx : x ≠ .error .outOfSteps) :
    search next test true n s = ending x s' ↔ ∃ k ≤ n, Searches next test s k x s' := by
  refine ⟨exists_searches hx, ?_⟩
  rintro ⟨k, hk, h⟩
  exact h.search_eq hk

/-- The search only looks at states in which `I` holds, so there it may pull in another way. -/
theorem search_congr {I : σ → Prop} {next' : EStateM Failure σ Step} (want : Bool) (hs : I s)
    (hsame : ∀ s, I s → next s = next' s)
    (hnext : ∀ s a s', I s → next s = .ok a s' → I s')
    (htest : ∀ v s a s', I s → test v s = .ok a s' → I s') (n : ℕ) :
    search next test want n s = search next' test want n s := by
  induction n generalizing s with
  | zero => rfl
  | succ n ih =>
    cases hpull : next s with
    | error e s₁ =>
      rw [search, search, bind_of_error hpull, bind_of_error ((hsame s hs).symm.trans hpull)]
    | ok step s₁ =>
      rw [search, search, bind_of_ok hpull, bind_of_ok ((hsame s hs).symm.trans hpull)]
      cases step with
      | done | stop => rfl
      | value v =>
        have hs₁ : I s₁ := hnext s _ s₁ hs hpull
        dsimp only
        cases ht : test v s₁ with
        | error e s₂ => rw [bind_of_error ht, bind_of_error ht]
        | ok flow s₂ =>
          rw [bind_of_ok ht, bind_of_ok ht]
          cases flow with
          | stop => rfl
          | go b =>
            dsimp only
            split_ifs
            · rfl
            · exact ih (htest v s₁ _ s₂ hs₁ ht)

/-- The test that passes where the other one fails, and the other way round. -/
def negated (test : Value → EStateM Failure σ (Flow Bool)) (v : Value) :
    EStateM Failure σ (Flow Bool) := do
  match ← test v with
  | .go b => return .go !b
  | .stop => return .stop

theorem search_negated (next : EStateM Failure σ Step)
    (test : Value → EStateM Failure σ (Flow Bool)) (want : Bool) (n : ℕ) :
    search next (negated test) (!want) n = search next test want n := by
  induction n with
  | zero => rfl
  | succ n ih =>
    simp only [search, negated, bind_assoc]
    congr 1
    funext step
    cases step with
    | done | stop => rfl
    | value v =>
      dsimp only
      congr 1
      funext flow
      cases flow with
      | stop => simp only [pure_bind]
      | go b => simp only [pure_bind, Bool.not_inj_iff, ih]

theorem any_eq_map (next : EStateM Failure σ Step)
    (test : Value → EStateM Failure σ (Flow Bool)) (n : ℕ) :
    any next n test = (·.value?.isSome) <$> search next test true n := by
  rw [any, map_eq_pure_bind]
  congr 1
  funext f
  cases f <;> rfl

theorem all_eq_map (next : EStateM Failure σ Step)
    (test : Value → EStateM Failure σ (Flow Bool)) (n : ℕ) :
    all next n test = (!·.value?.isSome) <$> search next test false n := by
  rw [all, map_eq_pure_bind]
  congr 1
  funext f
  cases f <;> rfl

theorem findOr_eq_map (next : EStateM Failure σ Step)
    (test : Value → EStateM Failure σ (Flow Bool)) (d : Value) (n : ℕ) :
    findOr next n test (return d) = (·.value?.getD d) <$> search next test true n := by
  rw [findOr, map_eq_pure_bind]
  congr 1
  funext f
  cases f <;> rfl

/-- All loops for the test and its negation end as the search does. -/
theorem Searches.loops_eq (h : Searches next test s k x s') (hn : k ≤ n) (d : Value) :
    any next n test s = ending (x.map (·.value?.isSome)) s' ∧
    all next n (negated test) s = ending (x.map (!·.value?.isSome)) s' ∧
    findOr next n test (return d) s = ending (x.map (·.value?.getD d)) s' ∧
    (Finding.toStep <$> search next test true n) s = ending (x.map Finding.toStep) s' ∧
    (Finding.toStep <$> search next (negated test) false n) s =
      ending (x.map Finding.toStep) s' := by
  have hsearch : search next test true n s = ending x s' := h.search_eq hn
  have hnegated : search next (negated test) false n s = ending x s' := by
    rw [← hsearch]
    exact congrFun (search_negated next test true n) s
  rw [any_eq_map, all_eq_map, findOr_eq_map]
  exact ⟨map_of_ending _ hsearch, map_of_ending _ hnegated, map_of_ending _ hsearch,
    map_of_ending _ hsearch, map_of_ending _ hnegated⟩

end Loop

namespace Run

open Loop

variable {κ σ : Type} {cb : Callbacks κ σ} {w : World κ σ} {p q : ℕ} {line : Pipeline κ}
  {test : κ} {want : Bool}

theorem pull_eq_pullStages (cb : Callbacks κ σ) (hp : w.pipelines[p]? = some line) :
    pull cb p w = pullStages cb line.source line.stages w := by
  have hline : w.pipeline p = line := by simp [World.pipeline, hp]
  rw [pull, Access.pull_eq, hline, pullStages]

/-- A pull of a filter is a search among the pulls of the iterator before it. -/
theorem pull_filter (hcb : cb.Orderly) (hp : w.pipelines[p]? = some line)
    (hq : w.pipelines[q]? = some { line with stages := .keep test want :: line.stages }) :
    pull cb q w =
      (Finding.toStep <$> search (pull cb p) (cb.test test) want (w.pulls cb p)) w := by
  have hpulls : w.pulls cb p = w.supply cb line.source + 1 := by
    simp [World.pulls, World.pipeline, hp]
  have hsearch : search (pull cb p) (cb.test test) want (w.pulls cb p) w =
      search (pullStages cb line.source line.stages) (cb.test test) want (w.pulls cb p) w :=
    search_congr (I := fun w => w.pipelines[p]? = some line) want hp
      (fun w hw => pull_eq_pullStages cb hw)
      (fun w a w' hw hr => ((orderly_pull hcb p).later hr).pipeline p line hw)
      (fun v w a w' hw hr => ((hcb.test test v).later hr).pipeline p line hw) _
  have hrun : pull cb q w = (Finding.toStep <$>
      search (pullStages cb line.source line.stages) (cb.test test) want (w.pulls cb p)) w := by
    rw [pull_eq_pullStages cb hq, map_eq_pure_bind, hpulls]
    rfl
  exact hrun.trans (map_congr _ hsearch.symm)

/-- A search ends, by one of the rules, exactly if its loop does not run out of pulls. However it
ends, the loops for the test and for its negation end with it: with one error, or with opposite
answers, with what was found or the default, and with the element or the reason for which there is
none. They leave the same state. So it is for the iterators of a world, where the last two loops are
pulls of filters. -/
theorem searches_agree :
    (∀ (σ : Type) (next : EStateM Failure σ Step) (test : Value → EStateM Failure σ (Flow Bool))
      (s s' : σ) (n : ℕ) (x : Except Failure Finding), x ≠ .error .outOfSteps →
        (search next test true n s = ending x s' ↔ ∃ k ≤ n, Searches next test s k x s')) ∧
    (∀ (σ : Type) (next : EStateM Failure σ Step) (test : Value → EStateM Failure σ (Flow Bool))
      (d : Value) (s s' : σ) (k : ℕ) (x : Except Failure Finding),
      Searches next test s k x s' → ∀ n, k ≤ n →
        any next n test s = ending (x.map (·.value?.isSome)) s' ∧
        all next n (negated test) s = ending (x.map (!·.value?.isSome)) s' ∧
        findOr next n test (return d) s = ending (x.map (·.value?.getD d)) s' ∧
        (Finding.toStep <$> search next test true n) s = ending (x.map Finding.toStep) s' ∧
        (Finding.toStep <$> search next (negated test) false n) s =
          ending (x.map Finding.toStep) s') ∧
    ∀ (κ σ : Type) (cb : Callbacks κ σ), cb.Orderly → ∀ (w w' : World κ σ) (p q r : ℕ)
      (line : Pipeline κ) (yes no : κ) (d : Value) (k : ℕ) (x : Except Failure Finding),
      cb.test no = negated (cb.test yes) → w.pipelines[p]? = some line →
      w.pipelines[q]? = some { line with stages := .keep yes true :: line.stages } →
      w.pipelines[r]? = some { line with stages := .keep no false :: line.stages } →
      Searches (pull cb p) (cb.test yes) w k x w' → k ≤ w.pulls cb p →
        drive cb p (.any (cb.test yes)) w = ending (x.map (·.value?.isSome)) w' ∧
        drive cb p (.all (cb.test no)) w = ending (x.map (!·.value?.isSome)) w' ∧
        drive cb p (.find2 (cb.test yes) d) w = ending (x.map (·.value?.getD d)) w' ∧
        pull cb q w = ending (x.map Finding.toStep) w' ∧
        pull cb r w = ending (x.map Finding.toStep) w' := by
  refine ⟨fun σ next test s s' n x hx => search_eq_iff hx,
    fun σ next test d s s' k x h n hn => h.loops_eq hn d, ?_⟩
  intro κ σ cb hcb w w' p q r line yes no d k x hno hp hq hr h hk
  rw [pull_filter hcb hp hq, pull_filter hcb hp hr, hno]
  exact h.loops_eq hk d

end Run

/-- The source counts to five. One test passes at its third call, whatever it is given, the other is
its negation. -/
def Callbacks.counting : Callbacks Bool (ℕ × ℕ) where
  transform _ v := return .go v
  test
    | true => third
    | false => Loop.negated third
  produce _ := modifyGet fun w =>
    if w.user.1 < 5 then
      (.value (.integer (.ofNat (w.user.1 + 1))), { w with user := (w.user.1 + 1, w.user.2) })
    else (.done, w)
  supply _ user := 5 - user.1
where
  third (_ : Value) : Run Bool (ℕ × ℕ) (Flow Bool) := modifyGet fun w =>
    (.go (w.user.2 = 2), { w with user := (w.user.1, w.user.2 + 1) })

theorem Callbacks.orderly_third (v : Value) : (counting.third v).Orderly :=
  fun _ => ⟨fun _ _ h => h, fun _ _ n h => ⟨n, h⟩⟩

theorem Callbacks.orderly_counting : Callbacks.counting.Orderly where
  transform _ _ := .pure _
  test key v := by
    cases key with
    | true => exact orderly_third v
    | false =>
      refine (orderly_third v).bind fun flow => ?_
      cases flow <;> exact .pure _
  produce _ := by
    intro w
    simp only [Run.worldAfter, counting, modifyGet, MonadStateOf.modifyGet, EStateM.modifyGet]
    split_ifs
    · exact ⟨fun _ _ h => h, fun _ _ n h => ⟨n, h⟩⟩
    · exact .refl w

/-- An iterator over the source that counts, and its two filters. -/
def World.counting (count calls : ℕ) : World Bool (ℕ × ℕ) where
  sources := #[.custom true]
  pipelines := #[{ source := 0 }, { source := 0, stages := [.keep true true] },
    { source := 0, stages := [.keep false false] }]
  user := (count, calls)

/-- All loops end with the third element, after three pulls and three calls of the test. -/
theorem Run.searches_agree_counting :
    let next := pull Callbacks.counting 0
    let test := Callbacks.counting.test true
    let found : Value := .integer 3
    Loop.search next test true 3 (.counting 0 0) = .ok (.found found) (.counting 3 3) ∧
    Loop.Searches next test (.counting 0 0) 3 (.ok (.found found)) (.counting 3 3) ∧
    Loop.any next 3 test (.counting 0 0) = .ok true (.counting 3 3) ∧
    Loop.all next 3 (Loop.negated test) (.counting 0 0) = .ok false (.counting 3 3) ∧
    drive .counting 0 (.find2 test .undef) (.counting 0 0) = .ok found (.counting 3 3) ∧
    pull .counting 1 (.counting 0 0) = .ok (.value found) (.counting 3 3) ∧
    pull .counting 2 (.counting 0 0) = .ok (.value found) (.counting 3 3) := by
  intro next test found
  have hends : Loop.Searches next test (.counting 0 0) 3 (.ok (.found found)) (.counting 3 3) :=
    .passedOver rfl rfl (.passedOver rfl rfl (.found rfl rfl))
  have hok : (.ok (.found found) : Except Failure Finding) ≠ .error .outOfSteps := by simp
  have hsearch := (searches_agree.1 _ next test _ _ 3 _ hok).2 ⟨3, Nat.le_refl 3, hends⟩
  have hloops := searches_agree.2.1 _ next test .undef _ _ 3 _ hends 3 (Nat.le_refl 3)
  have hpulls := searches_agree.2.2 _ _ .counting Callbacks.orderly_counting (.counting 0 0)
    (.counting 3 3) 0 1 2 { source := 0 } true false .undef 3 (.ok (.found found)) rfl rfl rfl rfl
    hends (by decide)
  obtain ⟨hany, hall, -⟩ := hloops
  obtain ⟨-, -, hfind, hselect, hreject⟩ := hpulls
  exact ⟨hsearch, hends, hany, hall, hfind, hselect, hreject⟩

end TypeLattice
