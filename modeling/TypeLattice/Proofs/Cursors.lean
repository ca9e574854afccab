import TypeLattice.Proofs.Filters
import TypeLattice.Proofs.Pipelines
import TypeLattice.Proofs.Recording

/-!
# Moving a cursor

Pulling and collecting move one cursor, forward and over just the elements that are taken from it.
They stop or fail only where a function of the user does so.
-/
namespace TypeLattice

open Runs

variable {κ σ α β : Type}

/-- However it ends, the sources and pipelines are as they were. -/
def Run.Aloof (x : Run κ σ α) : Prop :=
  ∀ w : World κ σ, (x.worldAfter w).sources = w.sources ∧ (x.worldAfter w).pipelines = w.pipelines

namespace Callbacks

/-- The functions of the user do not touch iterators, and give none. -/
structure Aloof (cb : Callbacks κ σ) : Prop where
  transform : ∀ f v, (cb.transform f v).Aloof
  test : ∀ f v, (cb.test f v).Aloof
  plain : ∀ f v w u w', cb.transform f v w = .ok (.go u) w' → u.Plain

/-- Some function of the user fails so. -/
def Raises (cb : Callbacks κ σ) (e : Failure) : Prop :=
  ∃ f v w w', cb.transform f v w = .error e w' ∨ cb.test f v w = .error e w'

/-- Some function of the user asks to stop. -/
def Stops (cb : Callbacks κ σ) : Prop :=
  ∃ f v w w', cb.transform f v w = .ok .stop w' ∨ cb.test f v w = .ok .stop w'

end Callbacks

namespace Recorded

/-- The source is a cursor over the array, and the elements before its position are those that were
taken from it. -/
structure At (r : Recorded κ σ) (i : Nat) (items : List Value) (n : Nat) : Prop where
  source : r.world.sources[i]? = some (.array items n)
  bound : n ≤ items.length
  taken : r.takenFrom i = items.take n

/-- The source is as it was, and nothing was taken from it. -/
structure Unmoved (r r' : Recorded κ σ) (i : Nat) : Prop where
  source : r'.world.sources[i]? = r.world.sources[i]?
  taken : r'.takenFrom i = r.takenFrom i

/-- The cursor `i` went from position `n` to `m`, what it passed was taken from it, and nothing else
was moved. -/
structure Moved (r : Recorded κ σ) (i : Nat) (items : List Value) (n : Nat) (r' : Recorded κ σ)
    (m : Nat) : Prop where
  le : n ≤ m
  own : r'.At i items m
  others : ∀ j, i ≠ j → r.Unmoved r' j
  size : r'.world.sources.size = r.world.sources.size
  pipelines : r'.world.pipelines = r.world.pipelines

/-- The cursor is put to a position, and the elements are noted. -/
def advanced (r : Recorded κ σ) (i : Nat) (items : List Value) (n : Nat) (vs : List Value) :
    Recorded κ σ :=
  noted { r with world := r.world.setSource i (.array items n) } i vs

variable {r r' r'' : Recorded κ σ} {i n m k : ℕ} {items others vs : List Value} {v : Value}

theorem At.unique (h : r.At i items n) (h' : r.At i others m) : items = others ∧ n = m :=
  Source.array.inj (Option.some.inj (h.source.symm.trans h'.source))

theorem Unmoved.trans (h : r.Unmoved r' i) (h' : r'.Unmoved r'' i) : r.Unmoved r'' i :=
  ⟨h'.source.trans h.source, h'.taken.trans h.taken⟩

theorem At.of_unmoved (h : r.At i items n) (hr : r.Unmoved r' i) : r'.At i items n :=
  ⟨hr.source.trans h.source, h.bound, hr.taken.trans h.taken⟩

namespace Moved

theorem refl (h : r.At i items n) : r.Moved i items n r n :=
  ⟨le_rfl, h, fun _ _ => ⟨rfl, rfl⟩, rfl, rfl⟩

theorem trans (h : r.Moved i items n r' m) (h' : r'.Moved i items m r'' k) :
    r.Moved i items n r'' k where
  le := h.le.trans h'.le
  own := h'.own
  others j hj := (h.others j hj).trans (h'.others j hj)
  size := h'.size.trans h.size
  pipelines := h'.pipelines.trans h.pipelines

theorem pipeline_eq (h : r.Moved i items n r' m) (p : ℕ) :
    r'.world.pipeline p = r.world.pipeline p := by
  rw [World.pipeline, h.pipelines, h.size, World.pipeline]

end Moved

theorem At.moved_advanced (h : r.At i items n) (hnm : n ≤ m) (hm : m ≤ items.length)
    (hvs : items.take n ++ vs = items.take m) :
    r.Moved i items n (r.advanced i items m vs) m := by
  obtain ⟨hlt, -⟩ := Array.getElem?_eq_some_iff.1 h.source
  refine ⟨hnm, ⟨?_, hm, ?_⟩, fun j hj => ⟨?_, takenFrom_noted_of_ne _ hj vs⟩, ?_, rfl⟩
  · simp [advanced, World.setSource, noted, hlt]
  · rw [advanced, takenFrom_noted, ← hvs, ← h.taken]
    rfl
  · simp [advanced, World.setSource, noted, hj]
  · simp [advanced, World.setSource, noted]

theorem At.moved_next (h : r.At i items n) (hv : items[n]? = some v) :
    r.Moved i items n (r.advanced i items (n + 1) [v]) (n + 1) := by
  obtain ⟨hlt, -⟩ := List.getElem?_eq_some_iff.1 hv
  refine h.moved_advanced (Nat.le_succ n) hlt ?_
  rw [List.take_add_one, hv, Option.toList_some]

theorem At.moved_rest (h : r.At i items n) :
    r.Moved i items n (r.advanced i items items.length (items.drop n)) items.length := by
  refine h.moved_advanced h.bound le_rfl ?_
  rw [List.take_append_drop, List.take_length]

/-- What does not touch iterators moves nothing. -/
theorem At.moved_aloof (h : r.At i items n) {x : Run κ σ α} (hx : x.Aloof) :
    r.Moved i items n { r with world := x.worldAfter r.world } n := by
  obtain ⟨hsources, hpipelines⟩ := hx r.world
  have hunmoved : ∀ j, r.Unmoved { r with world := x.worldAfter r.world } j :=
    fun j => ⟨congrArg (·[j]?) hsources, rfl⟩
  exact ⟨le_rfl, h.of_unmoved (hunmoved i), fun j _ => hunmoved j,
    congrArg Array.size hsources, hpipelines⟩

end Recorded

namespace Recording

open Recorded

/-- An end of a computation that starts with the cursor `i` at position `n`: only this cursor was
moved, the result and the new position are as `Q` says, and a failure is one of the user. -/
def EndsIn (cb : Callbacks κ σ) (i : Nat) (items : List Value) (r : Recorded κ σ) (n : Nat)
    (Q : α → Nat → Prop) : EStateM.Result Failure (Recorded κ σ) α → Prop
  | .ok a r' => ∃ m, r.Moved i items n r' m ∧ Q a m
  | .error e r' => ∃ m, r.Moved i items n r' m ∧ cb.Raises e

/-- What a pull from position `n` on tells: with an element at least one was taken, nothing comes
only at the end of the array, and a stop was asked for. No element is an iterator. -/
def Reports (cb : Callbacks κ σ) (items : List Value) (n : Nat) : Step → Nat → Prop
  | .value v, m => v.Plain ∧ n < m
  | .done, m => m = items.length
  | .stop, _ => cb.Stops

theorem Reports.mono {cb : Callbacks κ σ} {items : List Value} {n k m : ℕ} {step : Step}
    (h : Reports cb items k step m) (hn : n ≤ k) : Reports cb items n step m := by
  cases step with
  | value v => exact ⟨h.1, hn.trans_lt h.2⟩
  | done | stop => exact h

/-- The state after a computation, whether it succeeds or fails. -/
def after (x : Recording κ σ α) (r : Recorded κ σ) : Recorded κ σ :=
  match x r with
  | .ok _ r' => r'
  | .error _ r' => r'

variable {cb : Callbacks κ σ} {Q : α → ℕ → Prop} {Q' : β → ℕ → Prop} {x : Recording κ σ α}
  {f : α → Recording κ σ β} {r r' : Recorded κ σ} {i n m p : ℕ} {items : List Value} {a : α}
  {v : Value}

namespace EndsIn

protected theorem pure (h : r.At i items n) (hQ : Q a n) :
    EndsIn cb i items r n Q ((pure a : Recording κ σ α) r) := ⟨n, .refl h, hQ⟩

protected theorem bind (hx : EndsIn cb i items r n Q (x r))
    (hf : ∀ a r' m, r.Moved i items n r' m → Q a m → EndsIn cb i items r' m Q' (f a r')) :
    EndsIn cb i items r n Q' ((x >>= f) r) := by
  cases hr : x r with
  | error e r' =>
    rw [hr] at hx
    rwa [bind_of_error hr]
  | ok a r' =>
    rw [hr] at hx
    obtain ⟨m, hm, ha⟩ := hx
    rw [bind_of_ok hr]
    have hrest := hf a r' m hm ha
    cases hr' : f a r' with
    | ok b r'' =>
      rw [hr'] at hrest
      obtain ⟨k, hk, hb⟩ := hrest
      exact ⟨k, hm.trans hk, hb⟩
    | error e r'' =>
      rw [hr'] at hrest
      obtain ⟨k, hk, he⟩ := hrest
      exact ⟨k, hm.trans hk, he⟩

theorem imp {Q' : α → ℕ → Prop} (h : EndsIn cb i items r n Q (x r))
    (hQ : ∀ a m, Q a m → Q' a m) : EndsIn cb i items r n Q' (x r) := by
  have hbind : EndsIn cb i items r n Q' ((x >>= pure) r) :=
    h.bind fun a r' m hm ha => .pure hm.own (hQ a m ha)
  rwa [bind_pure] at hbind

theorem moved_after (h : EndsIn cb i items r n Q (x r)) :
    ∃ m, r.Moved i items n (x.after r) m := by
  rw [after]
  cases hr : x r with
  | ok a r' | error e r' =>
    rw [hr] at h
    obtain ⟨m, hm, -⟩ := h
    exact ⟨m, hm⟩

/-- A function of the user leaves the cursor where it is. -/
theorem ofRun {y : Run κ σ α} (hy : y.Aloof) (hraises : ∀ w e w', y w = .error e w' → cb.Raises e)
    (h : r.At i items n) :
    EndsIn cb i items r n (fun a m => m = n ∧ ∃ w w', y w = .ok a w') (Recording.ofRun y r) := by
  have hmoved := h.moved_aloof hy
  rw [Run.worldAfter] at hmoved
  rw [Recording.ofRun]
  cases hw : y r.world with
  | ok a w =>
    rw [hw] at hmoved
    exact ⟨n, hmoved, rfl, _, _, hw⟩
  | error e w =>
    rw [hw] at hmoved
    exact ⟨n, hmoved, hraises _ _ _ hw⟩

/-- Each turn takes an element, so that a search over what is left does not run out of turns. -/
theorem search {next : Recording κ σ Step} {test : Value → Recording κ σ (Flow Bool)}
    (hnext : ∀ r n, r.At i items n → EndsIn cb i items r n (Reports cb items n) (next r))
    (htest : ∀ v r n, r.At i items n →
      EndsIn cb i items r n (fun flow m => m = n ∧ (flow = .stop → cb.Stops)) (test v r))
    (want : Bool) {bound : ℕ} (hbound : items.length - n < bound) (h : r.At i items n) :
    EndsIn cb i items r n (fun f => Reports cb items n f.toStep)
      (Loop.search next test want bound r) := by
  induction bound generalizing r n with
  | zero => exact absurd hbound (Nat.not_lt_zero _)
  | succ bound ih =>
    refine (hnext r n h).bind fun step r₁ m hr₁ hstep => ?_
    cases step with
    | done | stop => exact .pure hr₁.own hstep
    | value v =>
      refine (htest v r₁ m hr₁.own).bind fun flow r₂ k hr₂ hflow => ?_
      obtain ⟨rfl, hstop⟩ := hflow
      cases flow with
      | stop => exact .pure hr₂.own (hstop rfl)
      | go b =>
        dsimp only
        split_ifs
        · exact .pure hr₂.own hstep
        · have hlt : items.length - k < bound := by
            have := hr₂.own.bound
            have := hstep.2
            omega
          exact (ih hlt hr₂.own).imp fun f _ hf => hf.mono hr₁.le

/-- Elements that are no iterators are collected as they are. -/
theorem drain {next : Recording κ σ Step} (collect : ℕ → Recording κ σ (List Value))
    (hnext : ∀ r' m, r.Moved i items n r' m →
      EndsIn cb i items r' m (Reports cb items m) (next r'))
    {bound : ℕ} (hbound : items.length - n < bound) (h : r.At i items n) (xs : List Value) :
    EndsIn cb i items r n (fun _ m => m = items.length ∨ cb.Stops)
      (Loop.fold next (fun xs v => do return .go (xs ++ [← collectElement collect v])) bound xs
        r) := by
  induction bound generalizing r n xs with
  | zero => exact absurd hbound (Nat.not_lt_zero _)
  | succ bound ih =>
    refine (hnext r n (.refl h)).bind fun step r₁ m hr₁ hstep => ?_
    cases step with
    | done => exact .pure hr₁.own (.inl hstep)
    | stop => exact .pure hr₁.own (.inr hstep)
    | value v =>
      obtain ⟨hv, hlt⟩ := hstep
      have htake : (do return .go (xs ++ [← collectElement collect v]) :
          Recording κ σ (Flow (List Value))) r₁ = .ok (.go (xs ++ [v])) r₁ := by
        cases v with
        | iterator q t => exact hv.elim
        | _ => rfl
      have hleft : items.length - m < bound := by
        have := hr₁.own.bound
        omega
      dsimp only
      rw [bind_of_ok htake]
      exact ih (fun r' k hr' => hnext r' k (hr₁.trans hr')) hleft hr₁.own _

end EndsIn

theorem pullSource_value (cb : Callbacks κ σ) (h : r.At i items n) (hv : items[n]? = some v) :
    pullSource cb i r = .ok (.value v) (r.advanced i items (n + 1) [v]) := by
  have hrun : ofRun (Run.pullSource cb i) r =
      .ok (.value v) { r with world := r.world.setSource i (.array items (n + 1)) } := by
    rw [ofRun, Run.pullSource_value h.source hv]
  exact bind_of_ok hrun

theorem pullSource_done (cb : Callbacks κ σ) (h : r.At i items n) (hn : items[n]? = none) :
    pullSource cb i r = .ok .done r := by
  have hrun : ofRun (Run.pullSource cb i) r = .ok .done r := by
    rw [ofRun, Run.pullSource_done h.source hn]
  exact bind_of_ok hrun

theorem ends_pullSource (cb : Callbacks κ σ) (hitems : ∀ v ∈ items, v.Plain)
    (h : r.At i items n) : EndsIn cb i items r n (Reports cb items n) (pullSource cb i r) := by
  cases hv : items[n]? with
  | none =>
    have hend : n = items.length := h.bound.antisymm (List.getElem?_eq_none_iff.1 hv)
    rw [pullSource_done cb h hv]
    exact ⟨n, .refl h, hend⟩
  | some v =>
    rw [pullSource_value cb h hv]
    exact ⟨n + 1, h.moved_next hv, hitems v (List.mem_of_getElem? hv), Nat.lt_succ_self n⟩

theorem ends_pullStages (hcb : cb.Aloof) (hitems : ∀ v ∈ items, v.Plain) (stages : List (Stage κ))
    (h : r.At i items n) :
    EndsIn cb i items r n (Reports cb items n) ((access cb).pullStages i stages r) := by
  induction stages generalizing r n with
  | nil => exact ends_pullSource cb hitems h
  | cons s stages ih =>
    cases s with
    | map f =>
      refine (ih h).bind fun step r₁ m hr₁ hstep => ?_
      cases step with
      | done | stop => exact .pure hr₁.own hstep
      | value v =>
        have hraises : ∀ w e w', cb.transform f v w = .error e w' → cb.Raises e :=
          fun w e w' he => ⟨f, v, w, w', .inl he⟩
        refine (EndsIn.ofRun (hcb.transform f v) hraises hr₁.own).bind
          fun flow r₂ k hr₂ hflow => ?_
        obtain ⟨rfl, w, w', hflow⟩ := hflow
        cases flow with
        | stop => exact .pure hr₂.own ⟨f, v, w, w', .inl hflow⟩
        | go u => exact .pure hr₂.own ⟨hcb.plain f v w u w' hflow, hstep.2⟩
    | keep test want =>
      have htest : ∀ v r n, r.At i items n →
          EndsIn cb i items r n (fun flow m => m = n ∧ (flow = .stop → cb.Stops))
            (ofRun (cb.test test v) r) := by
        intro v r n h
        have hraises : ∀ w e w', cb.test test v w = .error e w' → cb.Raises e :=
          fun w e w' he => ⟨test, v, w, w', .inr he⟩
        refine (EndsIn.ofRun (hcb.test test v) hraises h).imp fun flow m hflow => ⟨hflow.1, ?_⟩
        obtain ⟨-, w, w', hflow⟩ := hflow
        rintro rfl
        exact ⟨test, v, w, w', .inr hflow⟩
      have hbound : items.length - n < r.world.supply cb i + 1 := by
        rw [World.supply, h.source]
        exact Nat.lt_succ_self _
      rw [Access.pullStages_keep, map_eq_pure_bind]
      refine (EndsIn.search (fun r n => ih) htest want hbound h).bind ?_
      exact fun f r₁ m hr₁ hf => .pure hr₁.own hf

theorem ends_pull (hcb : cb.Aloof) (hitems : ∀ v ∈ items, v.Plain)
    (hp : (r.world.pipeline p).source = i) (h : r.At i items n) :
    EndsIn cb i items r n (Reports cb items n) (pull cb p r) := by
  rw [pull, Access.pull_eq, hp]
  exact ends_pullStages hcb hitems _ h

/-- A cursor at its end gives nothing any more, through any stages. -/
theorem pullStages_of_end (cb : Callbacks κ σ) (h : r.At i items items.length)
    (stages : List (Stage κ)) : (access cb).pullStages i stages r = .ok .done r := by
  induction stages with
  | nil => exact pullSource_done cb h (List.getElem?_eq_none le_rfl)
  | cons s stages ih =>
    cases s with
    | map f => exact bind_of_ok ih
    | keep test want =>
      have hsearch : Loop.search ((access cb).pullStages i stages) (fun v => ofRun (cb.test test v))
          want (r.world.supply cb i + 1) r = .ok .exhausted r := bind_of_ok ih
      rw [Access.pullStages_keep, map_eq_pure_bind]
      exact bind_of_ok hsearch

theorem ends_drainWith (hcb : cb.Aloof) (hitems : ∀ v ∈ items, v.Plain)
    (hp : (r.world.pipeline p).source = i) (h : r.At i items n)
    (collect : ℕ → Recording κ σ (List Value)) :
    EndsIn cb i items r n (fun _ m => m = items.length ∨ cb.Stops)
      ((access cb).drainWith collect p r) := by
  have hbound : items.length - n < r.world.pulls cb p := by
    rw [World.pulls, World.supply, hp, h.source]
    exact Nat.lt_succ_self _
  rw [Access.drainWith_eq]
  refine EndsIn.drain collect (fun r' m hr' => ?_) hbound h []
  exact ends_pull hcb hitems ((congrArg _ (hr'.pipeline_eq p)).trans hp) hr'.own

/-- A cursor without stages gives what is left at once. -/
theorem collect_bare (cb : Callbacks κ σ) (hp : (r.world.pipeline p).source = i)
    (hbare : (r.world.pipeline p).stages = []) (h : r.At i items n) :
    collect cb p r =
      .ok (items.drop n) (r.advanced i items items.length (items.drop n)) := by
  subst hp
  exact (access cb).collectWithin_cursor hbare h.source

theorem ends_collect (hcb : cb.Aloof) (hitems : ∀ v ∈ items, v.Plain)
    (hp : (r.world.pipeline p).source = i) (h : r.At i items n) :
    EndsIn cb i items r n (fun _ m => m = items.length ∨ cb.Stops) (collect cb p r) := by
  by_cases hstages : (r.world.pipeline p).stages = []
  · rw [collect_bare cb hp hstages h]
    exact ⟨items.length, h.moved_rest, .inl rfl⟩
  · rw [collect, Access.collect_eq, Access.collectWithin_of_stages _ hstages]
    exact ends_drainWith hcb hitems hp h _

end Recording
end TypeLattice
