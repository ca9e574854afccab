import Mathlib.Data.List.Basic
import TypeLattice.Iterator.World
import TypeLattice.Proofs.Runs

/-!
# Recorded runs

Runs of iterators that write down, besides, each element that is taken from a source. They are the
runs that they record: without the record there is no difference.
-/
namespace TypeLattice

open Runs

variable {κ σ α β : Type}

/-- A world, and the elements that were taken so far, each with the source that it came from. -/
structure Recorded (κ σ : Type) where
  world : World κ σ
  taken : List (Nat × Value) := []

abbrev Recording (κ σ : Type) := EStateM Failure (Recorded κ σ)

namespace Recorded

/-- The elements of one source in the order in which they were taken. -/
def takenFrom (r : Recorded κ σ) (i : Nat) : List Value :=
  r.taken.filterMap fun e => if e.1 = i then some e.2 else none

/-- The elements were taken from the source too. -/
def noted (r : Recorded κ σ) (i : Nat) (vs : List Value) : Recorded κ σ :=
  { r with taken := r.taken ++ vs.map fun v => (i, v) }

theorem takenFrom_noted (r : Recorded κ σ) (i : ℕ) (vs : List Value) :
    (r.noted i vs).takenFrom i = r.takenFrom i ++ vs := by
  simp [takenFrom, noted, List.filterMap_map]

theorem takenFrom_noted_of_ne (r : Recorded κ σ) {i j : ℕ} (h : i ≠ j) (vs : List Value) :
    (r.noted i vs).takenFrom j = r.takenFrom j := by
  simp [takenFrom, noted, List.filterMap_map, h]

end Recorded

namespace Recording

def ofRun (x : Run κ σ α) : Recording κ σ α := fun r =>
  match x r.world with
  | .ok a w => .ok a { r with world := w }
  | .error e w => .error e { r with world := w }

def note (i : Nat) (vs : List Value) : Recording κ σ Unit := modify (·.noted i vs)

def pullSource (cb : Callbacks κ σ) (i : Nat) : Recording κ σ Step := do
  match ← ofRun (Run.pullSource cb i) with
  | .value v =>
    note i [v]
    return .value v
  | step => return step

def takeRest (i : Nat) (items : List Value) (position : Nat) : Recording κ σ (List Value) := do
  let vs ← ofRun (Run.takeRest i items position)
  note i vs
  return vs

/-- What is taken from a source is noted. -/
abbrev access (cb : Callbacks κ σ) : Access κ σ (Recorded κ σ) where
  callbacks := cb
  world := Recorded.world
  call := ofRun
  next := pullSource cb
  rest := takeRest

def pull (cb : Callbacks κ σ) (p : Nat) : Recording κ σ Step := (access cb).pull p

def collect (cb : Callbacks κ σ) (p : Nat) : Recording κ σ (List Value) := (access cb).collect p

def erase : EStateM.Result Failure (Recorded κ σ) α → EStateM.Result Failure (World κ σ) α
  | .ok a r => .ok a r.world
  | .error e r => .error e r.world

/-- Without the record, `x` is `y`. -/
def Erases (x : Recording κ σ α) (y : Run κ σ α) : Prop := ∀ r, erase (x r) = y r.world

namespace Erases

protected theorem pure (a : α) : Erases (pure a : Recording κ σ α) (pure a) := fun _ => rfl

protected theorem throw (e : Failure) : Erases (throw e : Recording κ σ α) (throw e) := fun _ => rfl

theorem ofRun (y : Run κ σ α) : Erases (Recording.ofRun y) y := by
  intro r
  rw [Recording.ofRun]
  cases y r.world <;> rfl

protected theorem bind {x : Recording κ σ α} {y : Run κ σ α} {f : α → Recording κ σ β}
    {g : α → Run κ σ β} (hx : Erases x y) (hf : ∀ a, Erases (f a) (g a)) :
    Erases (x >>= f) (y >>= g) := by
  intro r
  have hxr := hx r
  cases hr : x r with
  | ok a r' =>
    rw [hr] at hxr
    rw [bind_of_ok hr, bind_of_ok hxr.symm]
    exact hf a r'
  | error e r' =>
    rw [hr] at hxr
    rw [bind_of_error hr, bind_of_error hxr.symm]
    rfl

/-- What depends on the world at the start. -/
theorem bind_get {f : Recorded κ σ → Recording κ σ β} {g : World κ σ → Run κ σ β}
    (hf : ∀ r, erase (f r r) = g r.world r.world) : Erases (get >>= f) (get >>= g) := by
  intro r
  rw [bind_of_ok get_eq, bind_of_ok get_eq]
  exact hf r

/-- Only what is noted comes besides. -/
theorem noting {y : Run κ σ α} {f : α → Recording κ σ α} (hf : ∀ a, Erases (f a) (pure a)) :
    Erases (Recording.ofRun y >>= f) y := by
  have hbind := (ofRun y).bind hf
  rwa [bind_pure] at hbind

theorem search {next : Recording κ σ Step} {next' : Run κ σ Step}
    {test : Value → Recording κ σ (Flow Bool)} {test' : Value → Run κ σ (Flow Bool)}
    (hnext : Erases next next') (htest : ∀ v, Erases (test v) (test' v)) (want : Bool) (n : ℕ) :
    Erases (Loop.search next test want n) (Loop.search next' test' want n) := by
  induction n with
  | zero => exact .throw _
  | succ n ih =>
    refine hnext.bind fun step => ?_
    cases step with
    | done | stop => exact .pure _
    | value v =>
      refine (htest v).bind fun flow => ?_
      cases flow with
      | stop => exact .pure _
      | go b =>
        dsimp only
        split_ifs
        · exact .pure _
        · exact ih

theorem fold {next : Recording κ σ Step} {next' : Run κ σ Step}
    {take : α → Value → Recording κ σ (Flow α)} {take' : α → Value → Run κ σ (Flow α)}
    (hnext : Erases next next') (htake : ∀ a v, Erases (take a v) (take' a v)) (n : ℕ) (a : α) :
    Erases (Loop.fold next take n a) (Loop.fold next' take' n a) := by
  induction n generalizing a with
  | zero => exact .throw _
  | succ n ih =>
    refine hnext.bind fun step => ?_
    cases step with
    | done | stop => exact .pure _
    | value v =>
      refine (htake a v).bind fun flow => ?_
      cases flow with
      | stop => exact .pure _
      | go b => exact ih b

end Erases

variable (cb : Callbacks κ σ) (p i n : ℕ)

theorem erases_pullSource : Erases (pullSource cb i) (Run.pullSource cb i) := by
  refine .noting fun step => ?_
  cases step <;> exact fun _ => rfl

theorem erases_pullStages (stages : List (Stage κ)) :
    Erases ((access cb).pullStages i stages) (Run.pullStages cb i stages) := by
  induction stages with
  | nil => exact erases_pullSource cb i
  | cons s stages ih =>
    cases s with
    | map f =>
      refine ih.bind fun step => ?_
      cases step with
      | done | stop => exact .pure _
      | value v =>
        refine (Erases.ofRun (cb.transform f v)).bind fun flow => ?_
        cases flow <;> exact .pure _
    | keep test want =>
      refine .bind_get fun r => ?_
      exact ((ih.search (fun v => .ofRun (cb.test test v)) want _).bind fun f => .pure _) r

theorem erases_pull : Erases (pull cb p) (Run.pull cb p) :=
  .bind_get fun r => erases_pullStages cb _ _ r

theorem erases_collectWithin :
    Erases ((access cb).collectWithin n p) (Run.collectWithin cb n p) := by
  induction n generalizing p with
  | zero => exact .throw _
  | succ n ih =>
    have hdrain : Erases ((access cb).drainWith ((access cb).collectWithin n) p)
        (Run.drainWith cb (Run.collectWithin cb n) p) := by
      refine .bind_get fun r => (erases_pull cb p).fold (fun xs v => ?_) _ _ r
      have helement : Erases (collectElement ((access cb).collectWithin n) v)
          (collectElement (Run.collectWithin cb n) v) := by
        cases v with
        | iterator q t => exact (ih q).bind fun _ => .pure _
        | _ => exact .pure _
      exact helement.bind fun _ => .pure _
    refine .bind_get fun r => ?_
    dsimp only
    cases (r.world.pipeline p).stages with
    | cons s stages => exact hdrain r
    | nil =>
      cases r.world.sources[(r.world.pipeline p).source]? with
      | none => exact hdrain r
      | some s =>
        cases s with
        | array items k => exact Erases.noting (fun vs _ => rfl) r
        | custom key => exact hdrain r

theorem erases_collect : Erases (collect cb p) (Run.collect cb p) :=
  .bind_get fun r => erases_collectWithin cb p _ r

end Recording
end TypeLattice
