import Mathlib.Data.List.Basic
import TypeLattice.Iterator.Drive
import TypeLattice.Proofs.Runs

/-!
# Lazy pipelines

Driving a pipeline over an array is compared with a plain walk along the array: each element in
turn goes through all stages, and what survives is given to the driver. A pull of a stage is the
same walk up to the first survivor of the stages before it, so a stage can be moved from the walk
into the driver and back. The induction is on the stages, and for each of them on the elements that
are left.
-/
namespace TypeLattice

open Runs

variable {κ σ α β γ : Type}

/-- What becomes of an element on its way through the stages. -/
inductive Fate where
  | survives (v : Value)
  | dropped
  | stopped

/-- What a driver says to an element: whether it wants more of them. -/
inductive Verdict (α β : Type) where
  | more (a : α)
  | enough (b : β)

/-- What is done with the elements that are given to it. -/
structure Consumer (κ σ α β : Type) where
  take : α → Value → Run κ σ (Verdict α β)
  /-- The result when no elements are left. -/
  done : α → β
  /-- The result when a function asks to stop. -/
  stop : α → β

namespace Stage

def apply (cb : Callbacks κ σ) : Stage κ → Value → Run κ σ Fate
  | .map f, v => do
    match ← cb.transform f v with
    | .go w => return .survives w
    | .stop => return .stopped
  | .keep test want, v => do
    match ← cb.test test v with
    | .go b => return if b = want then .survives v else .dropped
    | .stop => return .stopped

/-- Sends an element through stages, in their order. -/
def applyAll (cb : Callbacks κ σ) : List (Stage κ) → Value → Run κ σ Fate
  | [], v => return .survives v
  | s :: stages, v => do
    match ← s.apply cb v with
    | .survives w => applyAll cb stages w
    | fate => return fate

end Stage

namespace Consumer

/-- Takes the elements of an array one by one, from the one at position `n` on, and gives to the
consumer what the stages leave of them. The cursor `i` shows how many elements were taken. -/
def walk (c : Consumer κ σ α β) (cb : Callbacks κ σ) (i : Nat) (items : List Value)
    (stages : List (Stage κ)) : List Value → Nat → α → Run κ σ β
  | [], _, a => return c.done a
  | v :: vs, n, a => do
    modify (·.setSource i (.array items (n + 1)))
    match ← Stage.applyAll cb stages v with
    | .survives w =>
      match ← c.take a w with
      | .more b => walk c cb i items stages vs (n + 1) b
      | .enough b => return b
    | .dropped => walk c cb i items stages vs (n + 1) a
    | .stopped => return c.stop a

/-- Wants one element only. -/
def first : Consumer κ σ Unit Step where
  take _ v := return .enough (.value v)
  done _ := .done
  stop _ := .stop

/-- Takes up elements until a function asks to stop. -/
def folding (f : α → Value → Run κ σ (Flow α)) (result : α → β) : Consumer κ σ α β where
  take a v := do
    match ← f a v with
    | .go b => return .more b
    | .stop => return .enough (result a)
  done := result
  stop := result

/-- Wants elements up to one on which the test gives `want`. -/
def searching (test : Value → Run κ σ (Flow Bool)) (want : Bool) (result : Finding → β) :
    Consumer κ σ Unit β where
  take _ v := do
    match ← test v with
    | .go b => return if b = want then .enough (result (.found v)) else .more ()
    | .stop => return .enough (result .stopped)
  done _ := result .exhausted
  stop _ := result .stopped

/-- Takes up elements into the first one. -/
def reducing (f : Value → Value → Run κ σ (Flow Value)) : Consumer κ σ (Option Value) Value where
  take
    | none, v => return .more (some v)
    | some a, v => do
      match ← f a v with
      | .go b => return .more (some b)
      | .stop => return .enough a
  done a := a.getD .undef
  stop a := a.getD .undef

def collecting : Consumer κ σ (List Value) (List Value) where
  take vs v := return .more (vs ++ [v])
  done := id
  stop := id

/-- The walk from a position on. -/
def walkFrom (c : Consumer κ σ α β) (cb : Callbacks κ σ) (i : Nat) (items : List Value)
    (stages : List (Stage κ)) (n : Nat) (a : α) : Run κ σ β :=
  c.walk cb i items stages (items.drop n) n a

end Consumer

def Finding.value? : Finding → Option Value
  | .found v => some v
  | .exhausted | .stopped => none

namespace Driver

/-- The driver on an array from a position on, without an iterator. -/
def eager (cb : Callbacks κ σ) (i : Nat) (items : List Value) (stages : List (Stage κ))
    (n : Nat) : Driver κ σ α → Run κ σ α
  | .each consume =>
    (Consumer.folding (fun _ v => consume v) id).walkFrom cb i items stages n ()
  | .eachWithIndex consume =>
    (Consumer.folding (fun k v => do
      match ← consume k v with
      | .go _ => return .go (k + 1)
      | .stop => return .stop) fun _ => ()).walkFrom cb i items stages n 0
  | .find test => findOr test (return .undef)
  | .find2 test default => findOr test (return default)
  | .find3 test default => findOr test default
  | .all test =>
    (Consumer.searching test false (·.value?.isNone)).walkFrom cb i items stages n ()
  | .any test =>
    (Consumer.searching test true (·.value?.isSome)).walkFrom cb i items stages n ()
  | .reduce f => (Consumer.reducing f).walkFrom cb i items stages n none
  | .reduce2 seed f => (Consumer.folding f id).walkFrom cb i items stages n seed
  | .asArray => Consumer.collecting.walkFrom cb i items stages n []
where
  findOr (test : Value → Run κ σ (Flow Bool)) (default : Run κ σ Value) : Run κ σ Value := do
    match ← (Consumer.searching test true Finding.value?).walkFrom cb i items stages n () with
    | some v => return v
    | none => default

end Driver

namespace Run

variable {x : Run κ σ α} {f : α → Run κ σ β} {w w' : World κ σ} {a : α} {e : Failure}

/-- A computation that succeeds leaves the pipeline `p` and the source `i` as they are. -/
def Spares (p i : Nat) (x : Run κ σ α) : Prop :=
  ∀ w a w', x w = .ok a w' → w'.pipeline p = w.pipeline p ∧ w'.sources[i]? = w.sources[i]?

variable {p i : Nat}

protected theorem Spares.pure (a : α) : (pure a : Run κ σ α).Spares p i := by
  rintro w _ _ ⟨⟩
  exact ⟨rfl, rfl⟩

protected theorem Spares.bind (hx : x.Spares p i) (hf : ∀ a, (f a).Spares p i) :
    (x >>= f).Spares p i := by
  intro w b w' h
  obtain ⟨a, w₁, hr, h⟩ := of_bind_ok h
  obtain ⟨hp, hi⟩ := hx w a w₁ hr
  obtain ⟨hp', hi'⟩ := hf a w₁ b w' h
  exact ⟨hp'.trans hp, hi'.trans hi⟩

end Run

/-- An iterator is not plain. -/
def Value.Plain : Value → Prop
  | .iterator _ _ => False
  | _ => True

/-- The function of the stage does not change the iterators and makes none. -/
def Stage.Tame (cb : Callbacks κ σ) (p i : Nat) : Stage κ → Prop
  | .map f => ∀ v, (cb.transform f v).Spares p i ∧
    ∀ w u w', cb.transform f v w = .ok (.go u) w' → u.Plain
  | .keep test _ => ∀ v, (cb.test test v).Spares p i

/-- The functions of the driver do not change the iterators. Collecting needs a stage. -/
def Driver.Tame (p : Nat) (line : Pipeline κ) : Driver κ σ α → Prop
  | .each consume => ∀ v, (consume v).Spares p line.source
  | .eachWithIndex consume => ∀ k v, (consume k v).Spares p line.source
  | .find test | .find2 test _ | .find3 test _ | .all test | .any test =>
    ∀ v, (test v).Spares p line.source
  | .reduce f | .reduce2 _ f => ∀ a v, (f a v).Spares p line.source
  | .asArray => line.stages ≠ []

/-- The pipeline stands over a cursor that has taken `n` elements of the array. -/
structure World.Stands (w : World κ σ) (p : Nat) (line : Pipeline κ) (items : List Value)
    (n : Nat) : Prop where
  pipeline : w.pipeline p = line
  source : w.sources[line.source]? = some (.array items n)

section

variable {cb : Callbacks κ σ} {p i n : Nat} {line : Pipeline κ} {items : List Value}
  {stages : List (Stage κ)} {w w' : World κ σ}

theorem World.Stands.take (h : w.Stands p line items n) :
    (w.setSource line.source (.array items (n + 1))).Stands p line items (n + 1) where
  pipeline := by
    rw [← h.pipeline]
    simp [World.pipeline, World.setSource]
  source := by
    obtain ⟨hlt, _⟩ := Array.getElem?_eq_some_iff.1 h.source
    simp [World.setSource, hlt]

theorem Run.Spares.stands {x : Run κ σ α} {a : α} (hx : x.Spares p line.source)
    (h : w.Stands p line items n) (hr : x w = .ok a w') : w'.Stands p line items n := by
  obtain ⟨hp, hi⟩ := hx w a w' hr
  exact ⟨hp.trans h.pipeline, hi.trans h.source⟩

namespace Stage

theorem Tame.apply {s : Stage κ} (h : s.Tame cb p i) (v : Value) : (s.apply cb v).Spares p i := by
  cases s with
  | map f =>
    refine (h v).1.bind fun b => ?_
    cases b <;> exact .pure _
  | keep test want =>
    refine (h v).bind fun b => ?_
    cases b <;> exact .pure _

theorem Tame.plain {s : Stage κ} (h : s.Tame cb p i) {v u : Value} (hv : v.Plain)
    (hr : s.apply cb v w = .ok (.survives u) w') : u.Plain := by
  cases s with
  | map f =>
    obtain ⟨b, w₁, hf, hb⟩ := of_bind_ok hr
    cases b with
    | stop => cases hb
    | go u' =>
      cases hb
      exact (h v).2 w _ _ hf
  | keep test want =>
    obtain ⟨b, w₁, hf, hb⟩ := of_bind_ok hr
    cases b with
    | stop => cases hb
    | go b =>
      by_cases hwant : b = want
      · simp only [hwant, if_true] at hb
        cases hb
        exact hv
      · simp only [hwant, if_false] at hb
        cases hb

theorem spares_applyAll (h : ∀ s ∈ stages, s.Tame cb p i) (v : Value) :
    (applyAll cb stages v).Spares p i := by
  induction stages generalizing v with
  | nil => exact .pure _
  | cons s stages ih =>
    refine ((h s List.mem_cons_self).apply v).bind fun fate => ?_
    cases fate with
    | survives u => exact ih (fun s hs => h s (List.mem_cons_of_mem _ hs)) u
    | dropped | stopped => exact .pure _

theorem plain_of_applyAll (h : ∀ s ∈ stages, s.Tame cb p i) {v u : Value} (hv : v.Plain)
    (hr : applyAll cb stages v w = .ok (.survives u) w') : u.Plain := by
  induction stages generalizing v w with
  | nil =>
    cases hr
    exact hv
  | cons s stages ih =>
    obtain ⟨fate, w₁, hs, hrest⟩ := of_bind_ok hr
    cases fate with
    | survives u' =>
      have hu' := (h s List.mem_cons_self).plain hv hs
      exact ih (fun s hs => h s (List.mem_cons_of_mem _ hs)) hu' hrest
    | dropped | stopped => cases hrest

/-- The last of several stages takes what the others leave. -/
theorem applyAll_append (s : Stage κ) (v : Value) :
    applyAll cb (stages ++ [s]) v = (do
      match ← applyAll cb stages v with
      | .survives u => s.apply cb u
      | fate => return fate) := by
  induction stages generalizing v with
  | nil =>
    funext w
    simp only [List.nil_append, applyAll, pure_bind]
    cases hs : s.apply cb v w with
    | error e w₁ => rw [bind_of_error hs]
    | ok fate w₁ =>
      rw [bind_of_ok hs]
      cases fate <;> rfl
  | cons t stages ih =>
    simp only [List.cons_append, applyAll, bind_assoc]
    congr 1
    funext fate
    cases fate with
    | survives u => exact ih u
    | dropped | stopped => rfl

end Stage

namespace Consumer

/-- Gives to the consumer what is pulled, one by one. -/
def pulling (c : Consumer κ σ α β) (next : Run κ σ Step) : Nat → α → Run κ σ β
  | 0, _ => throw .outOfSteps
  | bound + 1, a => do
    match ← next with
    | .value v =>
      match ← c.take a v with
      | .more b => pulling c next bound b
      | .enough b => return b
    | .done => return c.done a
    | .stop => return c.stop a

variable {c : Consumer κ σ α β}

/-- When a pull is a walk to the first survivor, pulling one survivor after another is the whole
walk. An element that is dropped does not end the pull: the rest of the pull is then the pull that
would be made after it. -/
theorem pulling_eq_walkFrom (hc : ∀ a v, v.Plain → (c.take a v).Spares p line.source)
    (hstages : ∀ s ∈ stages, s.Tame cb p line.source) (hitems : ∀ v ∈ items, v.Plain)
    {next : Run κ σ Step}
    (hnext : ∀ n w, w.Stands p line items n →
      next w = first.walkFrom cb line.source items stages n () w)
    {bound : Nat} (hbound : items.length - n < bound) (a : α) (hw : w.Stands p line items n) :
    c.pulling next bound a w = c.walkFrom cb line.source items stages n a w := by
  unfold walkFrom at *
  induction hleft : items.drop n generalizing n bound a w with
  | nil =>
    obtain ⟨bound, rfl⟩ := Nat.exists_eq_succ_of_ne_zero (Nat.ne_zero_of_lt hbound)
    have hpull := hnext n w hw
    rw [hleft] at hpull
    exact bind_of_ok hpull
  | cons v vs ih =>
    obtain ⟨bound, rfl⟩ := Nat.exists_eq_succ_of_ne_zero (Nat.ne_zero_of_lt hbound)
    have hrest : items.drop (n + 1) = vs := by rw [← List.tail_drop, hleft, List.tail_cons]
    have hlt : items.length - (n + 1) < bound := by
      have := congrArg List.length hleft
      rw [List.length_drop, List.length_cons] at this
      omega
    have hv : v.Plain := hitems v (List.mem_of_mem_drop (hleft ▸ List.mem_cons_self))
    have hpull := hnext n w hw
    have htaken := hw.take
    rw [hleft] at hpull
    rw [walk, bind_of_ok (modify_eq _)] at hpull ⊢
    generalize w.setSource line.source (.array items (n + 1)) = w₁ at htaken hpull ⊢
    cases happly : Stage.applyAll cb stages v w₁ with
    | error e w₂ =>
      rw [bind_of_error happly] at hpull ⊢
      exact bind_of_error hpull
    | ok fate w₂ =>
      rw [bind_of_ok happly] at hpull ⊢
      have hw₂ := (Stage.spares_applyAll hstages v).stands htaken happly
      cases fate with
      | dropped =>
        have hsame : next w = next w₂ := by rw [hpull, hnext _ _ hw₂, hrest]
        have hloop : c.pulling next (bound + 1) a w = c.pulling next (bound + 1) a w₂ := by
          simp only [pulling, bind, EStateM.bind, hsame]
        rw [hloop]
        exact ih (Nat.lt_succ_of_lt hlt) a hw₂ hrest
      | stopped => exact bind_of_ok hpull
      | survives u =>
        rw [pulling, bind_of_ok hpull]
        have hu := Stage.plain_of_applyAll hstages hv happly
        dsimp only
        cases htake : c.take a u w₂ with
        | error e w₃ => rw [bind_of_error htake, bind_of_error htake]
        | ok verdict w₃ =>
          rw [bind_of_ok htake, bind_of_ok htake]
          cases verdict with
          | enough b => rfl
          | more b => exact ih hlt b ((hc a u hu).stands hw₂ htake) hrest

/-- The consumer behind one more stage. -/
def through (c : Consumer κ σ α β) (cb : Callbacks κ σ) (s : Stage κ) : Consumer κ σ α β where
  take a v := do
    match ← s.apply cb v with
    | .survives u => c.take a u
    | .dropped => return .more a
    | .stopped => return .enough (c.stop a)
  done := c.done
  stop := c.stop

/-- The last stage of a walk may as well be part of the consumer. -/
theorem walk_append (c : Consumer κ σ α β) (s : Stage κ) (vs : List Value) (n : Nat) (a : α) :
    c.walk cb i items (stages ++ [s]) vs n a = (c.through cb s).walk cb i items stages vs n a := by
  induction vs generalizing n a with
  | nil => rfl
  | cons v vs ih =>
    simp only [walk, Stage.applyAll_append, bind_assoc]
    congr 1
    funext _
    congr 1
    funext fate
    cases fate with
    | survives u =>
      simp only [through, bind_assoc]
      congr 1
      funext fate
      cases fate with
      | survives u' =>
        dsimp only
        congr 1
        funext verdict
        cases verdict <;> simp only [ih, through]
      | dropped | stopped => simp only [pure_bind, ih, through]
    | dropped | stopped => simp only [pure_bind, ih, through]

theorem spares_first (a : Unit) (v : Value) :
    ((first : Consumer κ σ Unit Step).take a v).Spares p i := .pure _

theorem spares_through {s : Stage κ} (hs : s.Tame cb p i)
    (hc : ∀ a v, (c.take a v).Spares p i) (a : α) (v : Value) :
    ((c.through cb s).take a v).Spares p i := by
  refine (hs.apply v).bind fun fate => ?_
  cases fate with
  | survives u => exact hc a u
  | dropped | stopped => exact .pure _

theorem spares_folding {f : α → Value → Run κ σ (Flow α)} (hf : ∀ a v, (f a v).Spares p i)
    (result : α → β) (a : α) (v : Value) : ((folding f result).take a v).Spares p i := by
  refine (hf a v).bind fun flow => ?_
  cases flow <;> exact .pure _

theorem spares_searching {test : Value → Run κ σ (Flow Bool)} (ht : ∀ v, (test v).Spares p i)
    (want : Bool) (result : Finding → β) (a : Unit) (v : Value) :
    ((searching test want result).take a v).Spares p i := by
  refine (ht v).bind fun flow => ?_
  cases flow <;> exact .pure _

theorem spares_reducing {f : Value → Value → Run κ σ (Flow Value)}
    (hf : ∀ a v, (f a v).Spares p i) (a : Option Value) (v : Value) :
    ((reducing f).take a v).Spares p i := by
  cases a with
  | none => exact .pure _
  | some a =>
    refine (hf a v).bind fun flow => ?_
    cases flow <;> exact .pure _

/-- Only plain elements reach the consumer. -/
theorem walk_congr {d : Consumer κ σ α β} (htake : ∀ a v, v.Plain → c.take a v = d.take a v)
    (hdone : c.done = d.done) (hstop : c.stop = d.stop) (hstages : ∀ s ∈ stages, s.Tame cb p i)
    {vs : List Value} (hvs : ∀ v ∈ vs, v.Plain) (n : Nat) (a : α) (w : World κ σ) :
    c.walk cb i items stages vs n a w = d.walk cb i items stages vs n a w := by
  induction vs generalizing n a w with
  | nil => rw [walk, walk, hdone]
  | cons v vs ih =>
    obtain ⟨hv, hvs⟩ := List.forall_mem_cons.1 hvs
    rw [walk, walk, bind_of_ok (modify_eq _), bind_of_ok (modify_eq _)]
    cases happly : Stage.applyAll cb stages v (w.setSource i (.array items (n + 1))) with
    | error e w₁ => rw [bind_of_error happly, bind_of_error happly]
    | ok fate w₁ =>
      rw [bind_of_ok happly, bind_of_ok happly]
      cases fate with
      | dropped => exact ih hvs _ a w₁
      | stopped => rw [hstop]
      | survives u =>
        dsimp only
        rw [htake a u (Stage.plain_of_applyAll hstages hv happly)]
        cases htaken : d.take a u w₁ with
        | error e w₂ => rw [bind_of_error htaken, bind_of_error htaken]
        | ok verdict w₂ =>
          rw [bind_of_ok htaken, bind_of_ok htaken]
          cases verdict with
          | enough b => rfl
          | more b => exact ih hvs _ b w₂

/-- A search pulls for its consumer. -/
theorem map_search (next : Run κ σ Step) (test : Value → Run κ σ (Flow Bool)) (want : Bool)
    (result : Finding → β) (bound : Nat) :
    result <$> Loop.search next test want bound =
      (searching test want result).pulling next bound () := by
  induction bound with
  | zero => rfl
  | succ bound ih =>
    simp only [Loop.search, pulling, searching, map_eq_pure_bind, bind_assoc] at ih ⊢
    congr 1
    funext step
    cases step with
    | done | stop => simp only [pure_bind]
    | value v =>
      simp only [bind_assoc]
      congr 1
      funext flow
      cases flow with
      | stop => simp only [pure_bind]
      | go b =>
        by_cases hb : b = want
        · simp only [hb, if_true, pure_bind]
        · simp only [hb, if_false, pure_bind, ih]

/-- A fold pulls for a consumer that does the same with the elements. -/
theorem map_fold (c : Consumer κ σ γ β) (state : α → γ) {f : α → Value → Run κ σ (Flow α)}
    {result : α → β}
    (htake : ∀ a v, c.take (state a) v = do
      match ← f a v with
      | .go b => return .more (state b)
      | .stop => return .enough (result a))
    (hdone : ∀ a, c.done (state a) = result a) (hstop : ∀ a, c.stop (state a) = result a)
    (next : Run κ σ Step) (bound : Nat) (a : α) :
    result <$> Loop.fold next f bound a = c.pulling next bound (state a) := by
  induction bound generalizing a with
  | zero => rfl
  | succ bound ih =>
    simp only [Loop.fold, pulling, htake, map_eq_pure_bind, bind_assoc] at ih ⊢
    congr 1
    funext step
    cases step with
    | done | stop => simp only [pure_bind, hdone, hstop]
    | value v =>
      simp only [bind_assoc]
      congr 1
      funext flow
      cases flow with
      | stop => simp only [pure_bind]
      | go b => simp only [pure_bind, ih]

theorem map_fold_folding (next : Run κ σ Step) (f : α → Value → Run κ σ (Flow α))
    (result : α → β) (bound : Nat) (a : α) :
    result <$> Loop.fold next f bound a = (folding f result).pulling next bound a :=
  map_fold (folding f result) id (fun _ _ => rfl) (fun _ => rfl) (fun _ => rfl) next bound a

/-- A plain element is collected as it is. -/
theorem folding_collectElement {collect : Nat → Run κ σ (List Value)} {vs : List Value} {v : Value}
    (hv : v.Plain) :
    (folding (fun vs v => do return .go (vs ++ [← collectElement collect v])) id).take vs v =
      collecting.take vs v := by
  cases v with
  | iterator => exact hv.elim
  | _ => rfl

/-- A pull of the last stage pulls what is before it for one survivor. -/
theorem pullStages_cons (s : Stage κ) (hw : w.sources[i]? = some (.array items n)) :
    Run.pullStages cb i (s :: stages) w =
      (first.through cb s).pulling (Run.pullStages cb i stages) (items.length - n + 1) () w := by
  cases s with
  | map f =>
    refine congrFun ?_ w
    simp only [Run.pullStages, Access.pullStages, pulling, through, first, Stage.apply, bind_assoc]
    congr 1
    funext step
    cases step with
    | done | stop => rfl
    | value v =>
      dsimp only
      congr 1
      funext flow
      cases flow <;> simp only [pure_bind]
  | keep test want =>
    have hsupply : w.supply cb i = items.length - n := by simp [World.supply, hw]
    have hrun : Run.pullStages cb i (.keep test want :: stages) w =
        (Finding.toStep <$> Loop.search (Run.pullStages cb i stages) (cb.test test) want
          (w.supply cb i + 1)) w := (Run.access cb).pullStages_keep test want stages
    have hconsumer : searching (cb.test test) want Finding.toStep =
        first.through cb (.keep test want) := by
      simp only [searching, through, first, Stage.apply, Consumer.mk.injEq, bind_assoc]
      refine ⟨?_, rfl, rfl⟩
      funext _ v
      congr 1
      funext flow
      cases flow with
      | stop => simp only [pure_bind]; rfl
      | go b => by_cases hb : b = want <;> simp [hb, Finding.toStep]
    rw [hrun, map_search, hsupply, hconsumer]

end Consumer

namespace Run

theorem pullSource_done (hw : w.sources[i]? = some (.array items n)) (hn : items[n]? = none) :
    pullSource cb i w = .ok .done w := by
  refine (bind_of_ok get_eq).trans ?_
  simp only [hw, hn]
  rfl

theorem pullSource_value {v : Value} (hw : w.sources[i]? = some (.array items n))
    (hn : items[n]? = some v) :
    pullSource cb i w = .ok (.value v) (w.setSource i (.array items (n + 1))) := by
  refine (bind_of_ok get_eq).trans ?_
  simp only [hw, hn]
  rfl

/-- A pull is the walk to the first survivor. The stages of a pipeline are listed from the last
one. -/
theorem pullStages_eq (hstages : ∀ s ∈ stages, s.Tame cb p line.source)
    (hitems : ∀ v ∈ items, v.Plain) (hw : w.Stands p line items n) :
    pullStages cb line.source stages w =
      Consumer.first.walkFrom cb line.source items stages.reverse n () w := by
  induction stages generalizing n w with
  | nil =>
    rw [Consumer.walkFrom, List.reverse_nil]
    cases hleft : items.drop n with
    | nil =>
      have hn : items[n]? = none := by rw [← List.head?_drop, hleft, List.head?_nil]
      exact pullSource_done hw.source hn
    | cons v vs =>
      have hn : items[n]? = some v := by rw [← List.head?_drop, hleft, List.head?_cons]
      exact pullSource_value hw.source hn
  | cons s stages ih =>
    have hrest : ∀ t ∈ stages, t.Tame cb p line.source :=
      fun t ht => hstages t (List.mem_cons_of_mem _ ht)
    rw [Consumer.pullStages_cons s hw.source, List.reverse_cons, Consumer.walkFrom,
      Consumer.walk_append, ← Consumer.walkFrom]
    refine Consumer.pulling_eq_walkFrom (fun a v _ => ?_) (by simpa using hrest) hitems
      (fun n w hw => ih hrest hw) (Nat.lt_succ_self _) () hw
    exact Consumer.spares_through (hstages s List.mem_cons_self) Consumer.spares_first a v

theorem pull_eq (hstages : ∀ s ∈ line.stages, s.Tame cb p line.source)
    (hitems : ∀ v ∈ items, v.Plain) (hw : w.Stands p line items n) :
    pull cb p w = Consumer.first.walkFrom cb line.source items line.stages.reverse n () w := by
  rw [← pullStages_eq hstages hitems hw, ← hw.pipeline]
  rfl

section

variable (hstages : ∀ s ∈ line.stages, s.Tame cb p line.source)
  (hitems : ∀ v ∈ items, v.Plain) (hw : w.Stands p line items n)

include hstages hitems hw

/-- The bound on pulls is enough for the whole walk. -/
theorem pulling_pull {c : Consumer κ σ α β}
    (hc : ∀ a v, v.Plain → (c.take a v).Spares p line.source) {bound : Nat}
    (hbound : w.pulls cb p ≤ bound) (a : α) :
    c.pulling (pull cb p) bound a w =
      c.walkFrom cb line.source items line.stages.reverse n a w := by
  have hpulls : w.pulls cb p = items.length - n + 1 := by
    simp [World.pulls, World.supply, hw.pipeline, hw.source]
  exact Consumer.pulling_eq_walkFrom hc (by simpa using hstages) hitems
    (fun n w hw => pull_eq hstages hitems hw) (by omega) a hw

theorem fold_pull {f : α → Value → Run κ σ (Flow α)}
    (hf : ∀ a v, (f a v).Spares p line.source) (result : α → β) (a : α) :
    (result <$> Loop.fold (pull cb p) f (w.pulls cb p) a) w =
      (Consumer.folding f result).walkFrom cb line.source items line.stages.reverse n a w := by
  rw [Consumer.map_fold_folding]
  refine pulling_pull hstages hitems hw ?_ (Nat.le_refl _) a
  exact fun a v _ => Consumer.spares_folding hf result a v

theorem search_pull {test : Value → Run κ σ (Flow Bool)}
    (ht : ∀ v, (test v).Spares p line.source) (want : Bool) (result : Finding → β) :
    (result <$> Loop.search (pull cb p) test want (w.pulls cb p)) w =
      (Consumer.searching test want result).walkFrom cb line.source items
        line.stages.reverse n () w := by
  rw [Consumer.map_search]
  refine pulling_pull hstages hitems hw ?_ (Nat.le_refl _) ()
  exact fun a v _ => Consumer.spares_searching ht want result a v

theorem findOr_pull {test : Value → Run κ σ (Flow Bool)}
    (ht : ∀ v, (test v).Spares p line.source) (default : Run κ σ Value) :
    Loop.findOr (pull cb p) (w.pulls cb p) test default w =
      Driver.eager.findOr cb line.source items line.stages.reverse n test default w := by
  have hrun : Loop.findOr (pull cb p) (w.pulls cb p) test default =
      (Finding.value? <$> Loop.search (pull cb p) test true (w.pulls cb p) >>= fun
        | some v => pure v
        | none => default) := by
    rw [bind_map_left, Loop.findOr]
    congr 1
    funext f
    cases f <;> rfl
  have hsearch := search_pull hstages hitems hw ht true Finding.value?
  simp only [hrun, bind, EStateM.bind, hsearch]
  rfl

theorem reduce_pull {f : Value → Value → Run κ σ (Flow Value)}
    (hf : ∀ a v, (f a v).Spares p line.source) :
    Loop.reduce (pull cb p) (w.pulls cb p) f w =
      (Consumer.reducing f).walkFrom cb line.source items line.stages.reverse n none w := by
  have hrest : ∀ v, Loop.reduceFrom (pull cb p) (w.pulls cb p) v f =
      (Consumer.reducing f).pulling (pull cb p) (w.pulls cb p) (some v) := by
    intro v
    have hfold : id <$> Loop.fold (pull cb p) f (w.pulls cb p) v =
        (Consumer.reducing f).pulling (pull cb p) (w.pulls cb p) (some v) := by
      refine Consumer.map_fold (.reducing f) some (fun a v => ?_) (fun _ => rfl) (fun _ => rfl) _ _ v
      exact congrArg (f a v >>= ·) (by funext flow; cases flow <;> rfl)
    rw [← hfold, id_map]
    rfl
  have hrun : Loop.reduce (pull cb p) (w.pulls cb p) f =
      (Consumer.reducing f).pulling (pull cb p) (w.pulls cb p + 1) none := by
    rw [Loop.reduce, Consumer.pulling]
    congr 1
    funext step
    cases step with
    | done | stop => rfl
    | value v => exact hrest v
  rw [hrun]
  refine pulling_pull hstages hitems hw ?_ (Nat.le_succ _) none
  exact fun a v _ => Consumer.spares_reducing hf a v

theorem drainWith_pull (collect : Nat → Run κ σ (List Value)) :
    drainWith cb collect p w =
      Consumer.collecting.walkFrom cb line.source items line.stages.reverse n [] w := by
  have hrun : drainWith cb collect p w = Loop.fold (pull cb p)
      (fun vs v => do return .go (vs ++ [← collectElement collect v])) (w.pulls cb p) [] w := rfl
  rw [hrun, ← id_map (Loop.fold _ _ _ _), Consumer.map_fold_folding]
  refine (pulling_pull hstages hitems hw (fun vs v hv => ?_) (Nat.le_refl _) []).trans ?_
  · rw [Consumer.folding_collectElement hv]
    exact .pure _
  · exact Consumer.walk_congr (fun vs v hv => Consumer.folding_collectElement hv) rfl rfl
      (by simpa using hstages) (fun v hv => hitems v (List.mem_of_mem_drop hv)) n [] w

theorem collect_pull (hline : line.stages ≠ []) :
    collect cb p w =
      Consumer.collecting.walkFrom cb line.source items line.stages.reverse n [] w := by
  rw [← drainWith_pull hstages hitems hw (collectWithin cb (w.pipelines.size + 1))]
  rw [← hw.pipeline] at hline
  exact (access cb).collectWithin_of_stages hline

end

/-- Pulling is walking, for any driver: it has the same result or error, and the same world in the
end, the position of the cursor included. -/
theorem drive_eq_eager (hstages : ∀ s ∈ line.stages, s.Tame cb p line.source)
    (hitems : ∀ v ∈ items, v.Plain) (hw : w.Stands p line items n) :
    pull cb p w = Consumer.first.walkFrom cb line.source items line.stages.reverse n () w ∧
    ∀ (α : Type) (d : Driver κ σ α), d.Tame p line →
      drive cb p d w = d.eager cb line.source items line.stages.reverse n w := by
  refine ⟨pull_eq hstages hitems hw, fun α d hd => ?_⟩
  cases d with
  | each consume =>
    refine Eq.trans ?_ (fold_pull hstages hitems hw (fun _ => hd) id ())
    rw [id_map]
    rfl
  | eachWithIndex consume =>
    refine Eq.trans ?_ (fold_pull hstages hitems hw ?_ (fun _ => ()) 0)
    · rw [map_eq_pure_bind]
      rfl
    · refine fun k v => (hd k v).bind fun flow => ?_
      cases flow <;> exact .pure _
  | find test => exact findOr_pull hstages hitems hw hd _
  | find2 test default => exact findOr_pull hstages hitems hw hd _
  | find3 test default => exact findOr_pull hstages hitems hw hd default
  | all test =>
    refine Eq.trans ?_ (search_pull hstages hitems hw hd false (·.value?.isNone))
    show Loop.all (pull cb p) (w.pulls cb p) test w = _
    rw [map_eq_pure_bind, Loop.all]
    refine congrFun (congrArg _ ?_) w
    funext f
    cases f <;> rfl
  | any test =>
    refine Eq.trans ?_ (search_pull hstages hitems hw hd true (·.value?.isSome))
    show Loop.any (pull cb p) (w.pulls cb p) test w = _
    rw [map_eq_pure_bind, Loop.any]
    refine congrFun (congrArg _ ?_) w
    funext f
    cases f <;> rfl
  | reduce f => exact reduce_pull hstages hitems hw hd
  | reduce2 seed f =>
    refine Eq.trans ?_ (fold_pull hstages hitems hw hd id seed)
    rw [id_map]
    rfl
  | asArray => exact collect_pull hstages hitems hw hd

end Run

end

/-- Each function notes its argument. The test passes on truth values and stops at others. -/
def Callbacks.noting : Callbacks Unit (List Value) where
  transform _ v := do
    modify fun w => { w with user := w.user ++ [v] }
    return .go (.array [v])
  test _ v := do
    modify fun w => { w with user := w.user ++ [v] }
    match v with
    | .bool b => return .go b
    | _ => return .stop
  produce _ := return .done
  supply _ _ := 0

/-- A cursor behind the first of five elements, with the elements that pass the test wrapped. -/
def World.wrapping (position : Nat) (user : List Value) : World Unit (List Value) where
  sources := #[.array [.bool true, .bool false, .bool true, .undef, .bool true] position]
  pipelines := #[{ source := 0, stages := [.map (), .keep () true] }]
  user

theorem Run.spares_noting {α : Type} {p i : Nat} (v : Value) {x : Run Unit (List Value) α}
    (hx : x.Spares p i) :
    Run.Spares p i (do
      modify fun w => { w with user := w.user ++ [v] }
      x) := by
  refine Run.Spares.bind ?_ fun _ => hx
  rintro w _ _ ⟨⟩
  exact ⟨rfl, rfl⟩

theorem Stage.tame_noting {p i : Nat} (s : Stage Unit) :
    s.Tame (σ := List Value) .noting p i := by
  cases s with
  | map f =>
    refine fun v => ⟨Run.spares_noting v (.pure _), ?_⟩
    rintro w u _ ⟨⟩
    trivial
  | keep test want =>
    intro v
    refine Run.spares_noting v ?_
    cases v <;> exact .pure _

/-- The second element passes, at the fourth the test stops, and the fifth is not looked at. -/
theorem Run.drive_wrapping :
    drive .noting 0 .asArray (.wrapping 1 []) =
      .ok [.array [.bool true]] (.wrapping 4 [.bool false, .bool true, .bool true, .undef]) := by
  have hitems : ∀ v ∈ [Value.bool true, .bool false, .bool true, .undef, .bool true], v.Plain := by
    simp [Value.Plain]
  have heager := (drive_eq_eager (p := 0) (n := 1) (fun s _ => Stage.tame_noting s) hitems
    (w := .wrapping 1 []) ⟨rfl, rfl⟩).2 _ .asArray (List.cons_ne_nil _ _)
  exact heager.trans rfl

end TypeLattice
