import Mathlib.Logic.Relation
import TypeLattice.Proofs.Cursors

/-!
# Shared cursors

Handles that were made from each other share one cursor. Whatever is done with any handles, in any
order, the elements that were taken from a cursor are the first ones of its array, each taken once,
and as many as its position says.
-/
namespace TypeLattice

open Runs Recording

variable {κ σ α : Type}

/-- What can be done with iterators. A handle is known by its pipeline, so a clone of a handle is
the handle itself. -/
inductive Operation (κ : Type) where
  | create (element : Ty) (items : List Value)
  | wrap (p : Nat) (element : Ty) (s : Stage κ)
  | pull (p : Nat)
  | collect (p : Nat)

inductive Outcome where
  | handle (v : Value)
  | step (s : Step)
  | elements (vs : List Value)

/-- What is told about a cursor that was at position `n`. A collection leaves nothing behind, unless
a function asks to stop. -/
def Outcome.Tells (cb : Callbacks κ σ) (items : List Value) (n : Nat) : Outcome → Nat → Prop
  | .handle _, _ => False
  | .step s, m => Reports cb items n s m
  | .elements _, m => m = items.length ∨ cb.Stops

namespace Operation

def runWith {ω : Type} (a : Access κ σ ω) : Operation κ → EStateM Failure ω Outcome
  | .create t items => return .handle (← a.call (Run.ofArray t items))
  | .wrap p t s => return .handle (← a.call (Run.withStage p t s))
  | .pull p => return .step (← a.pull p)
  | .collect p => return .elements (← a.collect p)

def run (cb : Callbacks κ σ) (op : Operation κ) : Run κ σ Outcome := op.runWith (Run.access cb)

def record (cb : Callbacks κ σ) (op : Operation κ) : Recording κ σ Outcome :=
  op.runWith (Recording.access cb)

/-- The handle exists, and no element of the array is an iterator. -/
def Fits (w : World κ σ) : Operation κ → Prop
  | .create _ items => ∀ v ∈ items, v.Plain
  | .wrap p _ _ | .pull p | .collect p => p < w.pipelines.size

/-- The cursor that elements are taken from. -/
def source? (w : World κ σ) : Operation κ → Option Nat
  | .create _ _ | .wrap _ _ _ => none
  | .pull p | .collect p => some (w.pipeline p).source

theorem erases_record (cb : Callbacks κ σ) (op : Operation κ) :
    Erases (op.record cb) (op.run cb) := by
  cases op with
  | create t items => exact (Erases.ofRun (Run.ofArray t items)).bind fun _ => .pure _
  | wrap p t s => exact (Erases.ofRun (Run.withStage p t s)).bind fun _ => .pure _
  | pull p => exact (erases_pull cb p).bind fun _ => .pure _
  | collect p => exact (erases_collect cb p).bind fun _ => .pure _

end Operation

namespace Recorded

def start (s : Store) (user : σ) : Recorded κ σ where
  world := { store := s, user }

/-- One operation leads from the one to the other. -/
def Next (cb : Callbacks κ σ) (r r' : Recorded κ σ) : Prop :=
  ∃ op : Operation κ, op.Fits r.world ∧ r' = (op.record cb).after r

/-- Operations on any handles in any order lead from the one to the other. -/
abbrev Interleaving (cb : Callbacks κ σ) : Recorded κ σ → Recorded κ σ → Prop :=
  Relation.ReflTransGen (Next cb)

/-- Every source is a cursor over an array without iterators, and what was taken from it is what is
before its position. -/
structure Faithful (r : Recorded κ σ) : Prop where
  source : ∀ (p : ℕ) line, r.world.pipelines[p]? = some line → line.source < r.world.sources.size
  cursor : ∀ i, i < r.world.sources.size → ∃ items n, r.At i items n ∧ ∀ v ∈ items, v.Plain
  fresh : ∀ i, r.world.sources.size ≤ i → r.takenFrom i = []

/-- Handles stay over their cursors, and cursors go forward. -/
structure Onward (r r' : Recorded κ σ) : Prop where
  pipeline : ∀ (p : ℕ) line, r.world.pipelines[p]? = some line → r'.world.pipelines[p]? = some line
  cursor : ∀ i items n, r.At i items n → ∃ m, n ≤ m ∧ r'.At i items m

variable {cb : Callbacks κ σ} {r r' r'' : Recorded κ σ} {i n m p : ℕ} {items : List Value}
  {op : Operation κ} {line : Pipeline κ}

theorem Onward.refl (r : Recorded κ σ) : r.Onward r :=
  ⟨fun _ _ h => h, fun _ _ n h => ⟨n, le_rfl, h⟩⟩

theorem Onward.trans (h : r.Onward r') (h' : r'.Onward r'') : r.Onward r'' where
  pipeline p line hp := h'.pipeline p line (h.pipeline p line hp)
  cursor i items n hi := by
    obtain ⟨m, hnm, hm⟩ := h.cursor i items n hi
    obtain ⟨k, hmk, hk⟩ := h'.cursor i items m hm
    exact ⟨k, hnm.trans hmk, hk⟩

theorem faithful_start (s : Store) (user : σ) : (start s user : Recorded κ σ).Faithful where
  source p line h := by simp [start] at h
  cursor i h := by simp [start] at h
  fresh _ _ := rfl

theorem At.lt_size (h : r.At i items n) : i < r.world.sources.size :=
  (Array.getElem?_eq_some_iff.1 h.source).1

theorem Faithful.plain (h : r.Faithful) (hi : r.At i items n) : ∀ v ∈ items, v.Plain := by
  obtain ⟨others, m, hm, hothers⟩ := h.cursor i hi.lt_size
  obtain ⟨rfl, -⟩ := hi.unique hm
  exact hothers

theorem Moved.faithful (hr : r.Moved i items n r' m) (h : r.Faithful)
    (hitems : ∀ v ∈ items, v.Plain) : r'.Faithful where
  source p line hp := by
    rw [hr.pipelines] at hp
    rw [hr.size]
    exact h.source p line hp
  cursor j hj := by
    by_cases hij : i = j
    · exact ⟨items, m, hij ▸ hr.own, hitems⟩
    · rw [hr.size] at hj
      obtain ⟨others, k, hk, hothers⟩ := h.cursor j hj
      exact ⟨others, k, hk.of_unmoved (hr.others j hij), hothers⟩
  fresh j hj := by
    have hij : i ≠ j := (hr.own.lt_size.trans_le hj).ne
    exact (hr.others j hij).taken.trans (h.fresh j (hr.size ▸ hj))

theorem Moved.onward (hr : r.Moved i items n r' m) (hi : r.At i items n) : r.Onward r' where
  pipeline p line hp := by rwa [hr.pipelines]
  cursor j others k hk := by
    by_cases hij : i = j
    · subst hij
      obtain ⟨rfl, rfl⟩ := hi.unique hk
      exact ⟨m, hr.le, hr.own⟩
    · exact ⟨k, le_rfl, hk.of_unmoved (hr.others j hij)⟩

theorem Faithful.source_lt (h : r.Faithful) (hp : p < r.world.pipelines.size) :
    (r.world.pipeline p).source < r.world.sources.size := by
  have hline : r.world.pipelines[p]? = some (r.world.pipeline p) := by
    simp [World.pipeline, hp]
  exact h.source p _ hline

/-- After a new cursor was made over the array. -/
def created (r : Recorded κ σ) (items : List Value) : Recorded κ σ :=
  let w := (r.world.addSource (.array items 0)).2
  { r with world := (w.addPipeline { source := r.world.sources.size }).2 }

/-- After a stage was put behind a handle. -/
def wrapped (r : Recorded κ σ) (p : Nat) (s : Stage κ) : Recorded κ σ :=
  let line := r.world.pipeline p
  { r with world := (r.world.addPipeline { line with stages := s :: line.stages }).2 }

theorem sources_created (r : Recorded κ σ) (items : List Value) :
    (r.created items).world.sources = r.world.sources.push (.array items 0) := rfl

@[simp] theorem pipelines_created (r : Recorded κ σ) (items : List Value) :
    (r.created items).world.pipelines =
      r.world.pipelines.push { source := r.world.sources.size } := rfl

@[simp] theorem pipelines_wrapped (r : Recorded κ σ) (p : ℕ) (s : Stage κ) :
    (r.wrapped p s).world.pipelines = r.world.pipelines.push
      { source := (r.world.pipeline p).source, stages := s :: (r.world.pipeline p).stages } := rfl

theorem record_create (cb : Callbacks κ σ) (r : Recorded κ σ) (t : Ty) (items : List Value) :
    (Operation.create t items).record cb r =
      .ok (.handle (.iterator r.world.pipelines.size t)) (r.created items) := rfl

theorem record_wrap (cb : Callbacks κ σ) (r : Recorded κ σ) (p : ℕ) (t : Ty) (s : Stage κ) :
    (Operation.wrap p t s).record cb r =
      .ok (.handle (.iterator r.world.pipelines.size t)) (r.wrapped p s) := rfl

theorem pipeline_created (r : Recorded κ σ) (items : List Value) :
    (r.created items).world.pipeline r.world.pipelines.size =
      { source := r.world.sources.size } := by
  simp [World.pipeline]

theorem pipeline_wrapped (r : Recorded κ σ) (p : ℕ) (s : Stage κ) :
    (r.wrapped p s).world.pipeline r.world.pipelines.size =
      { source := (r.world.pipeline p).source, stages := s :: (r.world.pipeline p).stages } := by
  simp [World.pipeline]

theorem at_created (h : r.Faithful) (items : List Value) :
    (r.created items).At r.world.sources.size items 0 where
  source := by simp [sources_created]
  bound := Nat.zero_le _
  taken := h.fresh _ le_rfl

theorem unmoved_created (items : List Value) (hi : i < r.world.sources.size) :
    r.Unmoved (r.created items) i where
  source := by simp [sources_created, Array.getElem?_push, hi.ne]
  taken := rfl

theorem unmoved_wrapped (r : Recorded κ σ) (p : ℕ) (s : Stage κ) (i : ℕ) :
    r.Unmoved (r.wrapped p s) i := ⟨rfl, rfl⟩

theorem faithful_created (h : r.Faithful) (hitems : ∀ v ∈ items, v.Plain) :
    (r.created items).Faithful := by
  have hsize : (r.created items).world.sources.size = r.world.sources.size + 1 := by
    rw [sources_created, Array.size_push]
  refine ⟨fun p line hp => ?_, fun i hi => ?_, fun i hi => h.fresh i (by omega)⟩
  · rw [hsize]
    rw [pipelines_created, Array.getElem?_push] at hp
    split_ifs at hp
    · cases hp
      exact Nat.lt_succ_self _
    · exact Nat.lt_succ_of_lt (h.source p line hp)
  · rcases Nat.lt_succ_iff_lt_or_eq.1 (hsize ▸ hi) with hlt | rfl
    · obtain ⟨others, n, hn, hothers⟩ := h.cursor i hlt
      exact ⟨others, n, hn.of_unmoved (unmoved_created items hlt), hothers⟩
    · exact ⟨items, 0, at_created h items, hitems⟩

theorem faithful_wrapped (h : r.Faithful) (hp : p < r.world.pipelines.size) (s : Stage κ) :
    (r.wrapped p s).Faithful := by
  refine ⟨fun q line hq => ?_, fun i hi => ?_, h.fresh⟩
  · rw [pipelines_wrapped, Array.getElem?_push] at hq
    split_ifs at hq
    · cases hq
      exact h.source_lt hp
    · exact h.source q line hq
  · obtain ⟨items, n, hn, hitems⟩ := h.cursor i hi
    exact ⟨items, n, hn.of_unmoved (unmoved_wrapped r p s i), hitems⟩

/-- A new handle leaves the others where they are. -/
theorem onward_of_push (hp : r'.world.pipelines = r.world.pipelines.push line)
    (hi : ∀ i, i < r.world.sources.size → r.Unmoved r' i) : r.Onward r' where
  pipeline q line hq := by
    obtain ⟨hlt, -⟩ := Array.getElem?_eq_some_iff.1 hq
    rw [hp, Array.getElem?_push, if_neg hlt.ne, hq]
  cursor i items n hn := ⟨n, le_rfl, hn.of_unmoved (hi i hn.lt_size)⟩

theorem onward_created (r : Recorded κ σ) (items : List Value) : r.Onward (r.created items) :=
  onward_of_push (pipelines_created r items) fun _ => unmoved_created items

theorem onward_wrapped (r : Recorded κ σ) (p : ℕ) (s : Stage κ) : r.Onward (r.wrapped p s) :=
  onward_of_push (pipelines_wrapped r p s) fun i _ => unmoved_wrapped r p s i

theorem ends_record (hcb : cb.Aloof) (hitems : ∀ v ∈ items, v.Plain)
    (hop : op.source? r.world = some i) (h : r.At i items n) :
    EndsIn cb i items r n (Outcome.Tells cb items n) (op.record cb r) := by
  cases op with
  | create t items => cases hop
  | wrap p t s => cases hop
  | pull p =>
    refine (ends_pull hcb hitems (Option.some.inj hop) h).bind ?_
    exact fun step r' m hr' hstep => .pure hr'.own hstep
  | collect p =>
    refine (ends_collect hcb hitems (Option.some.inj hop) h).bind ?_
    exact fun vs r' m hr' hend => .pure hr'.own hend

/-- What one operation does: of the sources that were there only `own` may move. -/
structure StepsTo (r : Recorded κ σ) (own : Option Nat) (r' : Recorded κ σ) : Prop where
  faithful : r'.Faithful
  onward : r.Onward r'
  others : ∀ j, j < r.world.sources.size → own ≠ some j → r.Unmoved r' j

theorem stepsTo_record (hcb : cb.Aloof) (h : r.Faithful) (hop : op.Fits r.world) :
    r.StepsTo (op.source? r.world) ((op.record cb).after r) := by
  have hmoving : ∀ i, i < r.world.sources.size → op.source? r.world = some i →
      r.StepsTo (op.source? r.world) ((op.record cb).after r) := by
    intro i hi hsource
    obtain ⟨items, n, hn, hitems⟩ := h.cursor i hi
    obtain ⟨m, hm⟩ := (ends_record hcb hitems hsource hn).moved_after
    refine ⟨hm.faithful h hitems, hm.onward hn, fun j _ hj => hm.others j ?_⟩
    rintro rfl
    exact hj hsource
  cases op with
  | create t items =>
    exact ⟨faithful_created h hop, onward_created r items, fun j hj _ => unmoved_created items hj⟩
  | wrap p t s =>
    exact ⟨faithful_wrapped h hop s, onward_wrapped r p s, fun j _ _ => unmoved_wrapped r p s j⟩
  | pull p => exact hmoving _ (h.source_lt hop) rfl
  | collect p => exact hmoving _ (h.source_lt hop) rfl

theorem interleaving_onward (hcb : cb.Aloof) (h : r.Faithful) (hr : Interleaving cb r r') :
    r'.Faithful ∧ r.Onward r' := by
  induction hr with
  | refl => exact ⟨h, .refl r⟩
  | tail _ hnext ih =>
    obtain ⟨op, hop, rfl⟩ := hnext
    have hstep := stepsTo_record hcb ih.1 hop
    exact ⟨hstep.faithful, ih.2.trans hstep.onward⟩

theorem Onward.at_end (h : r.Onward r') (hend : r.At i items items.length) :
    r'.At i items items.length := by
  obtain ⟨m, hle, hm⟩ := h.cursor i items _ hend
  rwa [hle.antisymm hm.bound]

theorem Onward.pipeline_eq (h : r.Onward r') (hp : p < r.world.pipelines.size) :
    r'.world.pipeline p = r.world.pipeline p := by
  have hline := h.pipeline p _ (Array.getElem?_eq_getElem hp)
  simp [World.pipeline, hline, hp]

theorem at_end_of_done (hcb : cb.Aloof) (h : r.Faithful) (hp : p < r.world.pipelines.size)
    (hdone : (Operation.pull p).record cb r = .ok (.step .done) r') :
    ∃ items, r'.At (r.world.pipeline p).source items items.length := by
  obtain ⟨items, n, hn, hitems⟩ := h.cursor _ (h.source_lt hp)
  have hsource : (Operation.pull p).source? r.world = some (r.world.pipeline p).source := rfl
  have hends := ends_record hcb hitems hsource hn
  rw [hdone] at hends
  obtain ⟨m, hm, rfl⟩ := hends
  exact ⟨items, hm.own⟩

theorem pull_of_at_end (cb : Callbacks κ σ)
    (h : r.At (r.world.pipeline p).source items items.length) :
    (Operation.pull p).record cb r = .ok (.step .done) r := by
  have hpull : Recording.pull cb p r = .ok .done r :=
    (bind_of_ok get_eq).trans (pullStages_of_end cb h _)
  exact bind_of_ok hpull

theorem done_stays (hcb : cb.Aloof) (h : r.Faithful) (hp : p < r.world.pipelines.size)
    (hdone : (Operation.pull p).record cb r = .ok (.step .done) r')
    (hr : Interleaving cb r' r'') : (Operation.pull p).record cb r'' = .ok (.step .done) r'' := by
  obtain ⟨items, hend⟩ := at_end_of_done hcb h hp hdone
  have hfits : (Operation.pull p).Fits r.world := hp
  have hstep := stepsTo_record hcb h hfits
  have hafter : ((Operation.pull p).record cb).after r = r' := by rw [Recording.after, hdone]
  rw [hafter] at hstep
  obtain ⟨-, hlater⟩ := interleaving_onward hcb hstep.faithful hr
  have hend' := hlater.at_end hend
  rw [← (hstep.onward.trans hlater).pipeline_eq hp] at hend'
  exact pull_of_at_end cb hend'

/-- A handle without stages gives the elements themselves. -/
theorem record_bare (cb : Callbacks κ σ) (hbare : (r.world.pipeline p).stages = [])
    (h : r.At (r.world.pipeline p).source items n) :
    (∀ v, items[n]? = some v → (Operation.pull p).record cb r =
      .ok (.step (.value v)) (r.advanced (r.world.pipeline p).source items (n + 1) [v])) ∧
    (Operation.collect p).record cb r = .ok (.elements (items.drop n))
      (r.advanced (r.world.pipeline p).source items items.length (items.drop n)) := by
  refine ⟨fun v hv => ?_, ?_⟩
  · have hpull : Recording.pull cb p r =
        .ok (.value v) (r.advanced (r.world.pipeline p).source items (n + 1) [v]) := by
      rw [Recording.pull, Access.pull_eq, hbare]
      exact pullSource_value cb h hv
    exact bind_of_ok hpull
  · have hcollect : Recording.collect cb p r = .ok (items.drop n)
        (r.advanced (r.world.pipeline p).source items items.length (items.drop n)) :=
      collect_bare cb rfl hbare h
    exact bind_of_ok hcollect

/-- The record leaves the program as it is. In whatever order handles are made, pulled and
collected, each cursor has given the elements of its array up to its position, in their order, and
goes on from there. A new handle is over a new cursor, or over that of the handle it is made from;
what is done with one cursor leaves the others alone. A pull that gives an element has taken some,
one that gives none has come to the end, and it stops or fails only where a function of the user
does. A handle that is done stays so. -/
theorem cursors_lose_and_repeat_nothing (hcb : cb.Aloof) (s : Store) (user : σ) :
    (∀ (op : Operation κ) (r : Recorded κ σ), erase (op.record cb r) = op.run cb r.world) ∧
    ∀ r, Interleaving cb (start s user) r →
      (∀ i, i < r.world.sources.size → ∃ items n, r.At i items n ∧
        ∀ r', Interleaving cb r r' → ∃ m, n ≤ m ∧ r'.At i items m) ∧
      (∀ t items, (∀ v ∈ items, v.Plain) →
        ∃ q r₁, (Operation.create t items).record cb r = .ok (.handle (.iterator q t)) r₁ ∧
          ∀ r', Interleaving cb r₁ r' →
            r'.world.pipeline q = { source := r.world.sources.size } ∧
            ∃ n, r'.At r.world.sources.size items n) ∧
      (∀ p t stage, p < r.world.pipelines.size →
        ∃ q r₁, (Operation.wrap p t stage).record cb r = .ok (.handle (.iterator q t)) r₁ ∧
          ∀ r', Interleaving cb r₁ r' → r'.world.pipeline q =
            { source := (r.world.pipeline p).source
              stages := stage :: (r.world.pipeline p).stages }) ∧
      (∀ op : Operation κ, op.Fits r.world → ∀ j, j < r.world.sources.size →
        op.source? r.world ≠ some j → r.Unmoved ((op.record cb).after r) j) ∧
      (∀ (op : Operation κ) i items n, op.source? r.world = some i → r.At i items n →
        EndsIn cb i items r n (Outcome.Tells cb items n) (op.record cb r)) ∧
      (∀ p items n, (r.world.pipeline p).stages = [] →
        r.At (r.world.pipeline p).source items n →
          (∀ v, items[n]? = some v → (Operation.pull p).record cb r = .ok (.step (.value v))
            (r.advanced (r.world.pipeline p).source items (n + 1) [v])) ∧
          (Operation.collect p).record cb r = .ok (.elements (items.drop n))
            (r.advanced (r.world.pipeline p).source items items.length (items.drop n))) ∧
      ∀ p r₁, p < r.world.pipelines.size →
        (Operation.pull p).record cb r = .ok (.step .done) r₁ → ∀ r₂, Interleaving cb r₁ r₂ →
          (Operation.pull p).record cb r₂ = .ok (.step .done) r₂ := by
  refine ⟨fun op r => op.erases_record cb r, fun r hr => ?_⟩
  obtain ⟨h, -⟩ := interleaving_onward hcb (faithful_start s user) hr
  refine ⟨fun i hi => ?_, fun t items hitems => ?_, fun p t stage hp => ?_,
    fun op hop => (stepsTo_record hcb h hop).others,
    fun op i items n hop hi => ends_record hcb (h.plain hi) hop hi,
    fun p items n => record_bare cb, fun p r₁ hp hdone r₂ => done_stays hcb h hp hdone⟩
  · obtain ⟨items, n, hn, -⟩ := h.cursor i hi
    exact ⟨items, n, hn, fun r' hr' => (interleaving_onward hcb h hr').2.cursor i items n hn⟩
  · refine ⟨_, _, record_create cb r t items, fun r' hr' => ?_⟩
    obtain ⟨-, honward⟩ := interleaving_onward hcb (faithful_created h hitems) hr'
    obtain ⟨n, -, hn⟩ := honward.cursor _ _ _ (at_created h items)
    exact ⟨(honward.pipeline_eq (by simp)).trans (pipeline_created r items), n, hn⟩
  · refine ⟨_, _, record_wrap cb r p t stage, fun r' hr' => ?_⟩
    obtain ⟨-, honward⟩ := interleaving_onward hcb (faithful_wrapped h hp stage) hr'
    exact (honward.pipeline_eq (by simp)).trans (pipeline_wrapped r p stage)

theorem aloof_noting : Callbacks.noting.Aloof where
  transform _ _ _ := ⟨rfl, rfl⟩
  test _ v _ := by cases v <;> exact ⟨rfl, rfl⟩
  plain _ v w u w' h := by
    cases h
    trivial

def fiveElements : List Value := [.bool true, .bool false, .bool true, .undef, .bool true]

/-- Two cursors over one array, the first with two handles, one of which has a test, and the second
with one handle. -/
def overOneArray (n m : Nat) (user : List Value) (taken : List (Nat × Value)) :
    Recorded Unit (List Value) where
  world :=
    { sources := #[.array fiveElements n, .array fiveElements m]
      pipelines := #[⟨0, []⟩, ⟨0, [.keep () true]⟩, ⟨1, []⟩]
      user }
  taken

/-- The handle with a test stops at the fourth element, the other one takes the rest, and then the
first one is done. -/
theorem shared_array_loses_and_repeats_nothing :
    Callbacks.noting.Aloof ∧ ∃ r : Recorded Unit (List Value),
      Interleaving .noting (start {} []) r ∧
      r.At 0 fiveElements 5 ∧ r.At 1 fiveElements 1 ∧
      ∀ r', Interleaving .noting r r' →
        (Operation.pull 1).record .noting r' = .ok (.step .done) r' := by
  have hitems : ∀ v ∈ fiveElements, v.Plain := by simp [fiveElements, Value.Plain]
  let create : Operation Unit := .create (.basic .any) fiveElements
  have hmade : Interleaving .noting (start {} []) (overOneArray 0 0 [] []) :=
    .head ⟨create, hitems, rfl⟩ <|
    .head ⟨.wrap 0 (.basic .any) (.keep () true), Nat.zero_lt_one, rfl⟩ <|
    .single ⟨create, hitems, rfl⟩
  let taken₁ : List (Nat × Value) := [(0, .bool true), (1, .bool true)]
  have hfirst : Interleaving .noting (overOneArray 0 0 [] [])
      (overOneArray 1 1 [.bool true] taken₁) :=
    .head ⟨.pull 1, Nat.one_lt_succ_succ 1, rfl⟩ <|
    .single ⟨.pull 2, Nat.lt_succ_self 2, rfl⟩
  let taken₂ := taken₁ ++ [(0, .bool false), (0, .bool true), (0, .undef)]
  let user := [Value.bool true, .bool false, .bool true, .undef]
  have hstopped : Interleaving .noting (overOneArray 1 1 [.bool true] taken₁)
      (overOneArray 4 1 user taken₂) :=
    .head ⟨.pull 1, Nat.one_lt_succ_succ 1, rfl⟩ <|
    .single ⟨.pull 1, Nat.one_lt_succ_succ 1, rfl⟩
  let r := overOneArray 5 1 user (taken₂ ++ [(0, .bool true)])
  have hrest : Next .noting (overOneArray 4 1 user taken₂) r := ⟨.collect 0, Nat.succ_pos 2, rfl⟩
  have hr : Interleaving .noting (start {} []) r :=
    ((hmade.trans hfirst).trans hstopped).tail hrest
  have hdone : (Operation.pull 1).record .noting r = .ok (.step .done) r := rfl
  obtain ⟨-, -, -, -, -, -, hlater⟩ := (cursors_lose_and_repeat_nothing aloof_noting {} []).2 r hr
  exact ⟨aloof_noting, r, hr, ⟨rfl, le_rfl, rfl⟩, ⟨rfl, Nat.one_lt_succ_succ 3 |>.le, rfl⟩,
    hlater 1 r (Nat.one_lt_succ_succ 1) hdone⟩

end Recorded
end TypeLattice
