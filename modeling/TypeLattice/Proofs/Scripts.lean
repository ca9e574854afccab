import TypeLattice.Iterator.Script
import TypeLattice.Proofs.Filters

/-!
# Scripted functions

A scripted function may make values of any type, and so collect iterators that run other scripted
functions. Yet it moves cursors only: no iterator gets another source or other stages, and no cursor
another array. So the results on orderly functions hold of all that scripts run.
-/
namespace TypeLattice

open Runs

variable {κ σ α β : Type}

namespace World

variable {w w' : World κ σ}

theorem later_of_eq (hp : w'.pipelines = w.pipelines) (hs : w'.sources = w.sources) :
    w.Later w' :=
  ⟨fun _ _ h => hp ▸ h, fun _ _ n h => ⟨n, hs ▸ h⟩⟩

theorem later_addSource (w : World κ σ) (s : Source κ) : w.Later (w.addSource s).2 where
  pipeline _ _ h := h
  cursor i items n h := by
    obtain ⟨hlt, -⟩ := Array.getElem?_eq_some_iff.1 h
    exact ⟨n, by simp [addSource, Array.getElem?_push, hlt.ne, h]⟩

theorem later_addPipeline (w : World κ σ) (line : Pipeline κ) :
    w.Later (w.addPipeline line).2 where
  pipeline p l h := by
    obtain ⟨hlt, -⟩ := Array.getElem?_eq_some_iff.1 h
    simp [addPipeline, Array.getElem?_push, hlt.ne, h]
  cursor i items n h := ⟨n, h⟩

end World

namespace Run

theorem orderly_modifyGet {f : World κ σ → α × World κ σ}
    (h : ∀ w : World κ σ, w.Later (f w).2) :
    (modifyGet f : Run κ σ α).Orderly := h

theorem orderly_ofExcept (r : Except Failure α) : (ofExcept r : Run κ σ α).Orderly := by
  cases r with
  | ok a => exact .pure a
  | error e => exact .throw e

/-- Types are built beside the iterators. -/
theorem orderly_onStore {ε : Type} (failure : ε → Failure) (x : EStateM ε Store α) :
    (onStore failure x : Run κ σ α).Orderly := by
  intro w
  rw [worldAfter, onStore]
  cases x w.store <;> exact World.later_of_eq rfl rfl

theorem orderly_iterate? (v : Value) : (iterate? v : Run κ σ (Option Value)).Orderly := by
  cases v with
  | array xs =>
    refine .bind_get fun w => ?_
    have hmade : (ofArray (w.store.elementType xs) xs : Run κ σ Value).Orderly :=
      (orderly_modifyGet fun w => w.later_addSource _).bind fun i =>
        (orderly_modifyGet fun w => w.later_addPipeline _).bind fun p => .pure _
    exact (hmade.bind fun it => .pure (some it)) w
  | _ => exact .pure _

theorem orderly_single (name : String) (args : List Value) :
    (single name args : Run κ σ Value).Orderly := by
  match args with
  | [v] => exact .pure v
  | [] | _ :: _ :: _ => exact .throw _

theorem orderly_converted (name : String) (convert : Value → Convert.Converted α)
    (args : List Value) : (converted name convert args : Run κ σ α).Orderly := by
  refine (orderly_single name args).bind fun v => ?_
  cases convert v with
  | ok a => exact .pure a
  | error expected => exact orderly_onStore _ _

theorem orderly_written (text : Option String) : (written text : Run κ σ Value).Orderly := by
  cases text with
  | some text => exact .pure _
  | none => exact .throw _

theorem orderly_notConstructible (t : Ty) : (notConstructible t : Run κ σ α).Orderly :=
  .bind_get fun w => .refl w

theorem orderly_instanceOf (t : Ty) (v : Value) : (instanceOf t v : Run κ σ Value).Orderly := by
  refine .bind_get fun w => ?_
  dsimp only
  split_ifs <;> exact .refl w

theorem orderly_newBasic (b : Basic) (args : List Value) :
    (newBasic b args : Run κ σ Value).Orderly := by
  cases b with
  | integer | float | boolean => exact (orderly_converted _ _ args).bind fun _ => .pure _
  | numeric => exact orderly_converted _ _ args
  | string =>
    refine (orderly_single _ args).bind fun v => .bind_get fun w => ?_
    exact orderly_written _ w
  | _ => exact orderly_notConstructible _

theorem orderly_newIterator (args : List Value) : (newIterator args : Run κ σ Value).Orderly := by
  refine (orderly_single _ args).bind fun v => (orderly_iterate? v).bind fun it => ?_
  cases it with
  | some it => exact .pure it
  | none => exact orderly_onStore _ _

theorem orderly_elements {collect : ℕ → Run κ σ (List Value)} (hcollect : ∀ q, (collect q).Orderly)
    (v : Value) : (elements collect v).Orderly := by
  cases v with
  | iterator p t => exact hcollect p
  | _ => exact .pure _

theorem orderly_newWith {collect : ℕ → Run κ σ (List Value)} (hcollect : ∀ q, (collect q).Orderly)
    (t : Ty) (args : List Value) : (newWith collect t args).Orderly := by
  induction t generalizing args with
  | basic b => exact (orderly_newBasic b args).bind fun _ => orderly_instanceOf _ _
  | former f t m ih =>
    cases f with
    | optional =>
      unfold newWith
      split
      · exact orderly_instanceOf _ _
      · exact orderly_instanceOf _ _
      · exact (ih args).bind fun _ => orderly_instanceOf _ _
    | array =>
      exact (orderly_single _ args).bind fun v => (orderly_elements hcollect v).bind fun _ =>
        orderly_instanceOf _ _
    | iterator => exact (orderly_newIterator args).bind fun _ => orderly_instanceOf _ _
    | type => exact (orderly_onStore _ _).bind fun _ => orderly_instanceOf _ _
  | object o =>
    refine .bind_get fun w => ?_
    split_ifs
    · exact orderly_notConstructible _ w
    · exact ((orderly_onStore _ _).bind fun _ => orderly_instanceOf _ _) w
  | typeSet a => exact orderly_notConstructible _

/-- Making a value of any type is orderly, whatever is collected for it. -/
theorem orderly_new {cb : Callbacks κ σ} (hcb : cb.Orderly) (t : Ty) (args : List Value) :
    (new cb t args).Orderly := by
  refine orderly_newWith (fun q => .bind_get fun w => ?_) t args
  exact orderly_collectWithin hcb _ q w

end Run

namespace Scripted

open Run

variable {cb : Callbacks Nat Script}

theorem orderly_record (e : Event) : (record e).Orderly := fun _ => World.later_of_eq rfl rfl

theorem orderly_limited (s : Store) (l : Limits) (calls : ℕ) (last : Value)
    {result : Scripted α} (h : result.Orderly) : (limited s l calls last result).Orderly := by
  unfold limited
  split_ifs
  · exact .throw _
  · exact .pure _
  · exact .throw _
  · exact .pure _
  · exact h.bind fun a => .pure _

/-- A call is written down and counted beside the iterators. -/
theorem orderly_call (key : ℕ) (arguments : List Value) {run : Action → Scripted α}
    (h : ∀ a, (run a).Orderly) : (call key arguments run).Orderly := by
  refine .bind_get fun w => ?_
  dsimp only
  cases w.user.callbacks[key]? with
  | none => exact .refl w
  | some c =>
    refine ((orderly_record _).bind fun _ => ?_) w
    exact (orderly_modifyGet fun _ => World.later_of_eq rfl rfl).bind fun _ =>
      orderly_limited _ _ _ _ (h c.action)

theorem orderly_transformed (hcb : cb.Orderly) (t : Transform) (v : Value) :
    (transformed cb t v).Orderly := by
  cases t with
  | identity | constant | wrap => exact .pure _
  | add | multiply => exact (orderly_ofExcept _).bind fun _ => .pure _
  | text => exact .bind_get fun w => orderly_written _ w
  | typeOf => exact .bind_get fun w => ((orderly_onStore _ _).bind fun _ => .pure _) w
  | iterate => exact (orderly_iterate? v).bind fun _ => .pure _
  | make t => exact orderly_new hcb t [v]
  | field name => exact (orderly_ofExcept _).bind fun _ => .pure _

theorem orderly_tested (p : Predicate) (v : Value) : (tested p v).Orderly := by
  refine .bind_get fun w => ?_
  cases p with
  | constant | equal | «instance» => exact .refl w
  | below | residue => exact ((orderly_ofExcept _).bind fun _ => .pure _) w
  | truth => exact orderly_ofExcept _ w

theorem orderly_reduced (r : Reducer) (a b : Value) : (reduced r a b).Orderly := by
  cases r with
  | sum | max =>
    exact (orderly_ofExcept _).bind fun _ => (orderly_ofExcept _).bind fun _ => .pure _
  | first | second | pair => exact .pure _

theorem orderly_transform (hcb : cb.Orderly) (key : ℕ) (v : Value) :
    (transform cb key v).Orderly := by
  refine orderly_call key [v] fun a => ?_
  cases a with
  | transform t => exact orderly_transformed hcb t v
  | _ => exact .throw _

theorem orderly_test (key : ℕ) (v : Value) : (test key v).Orderly := by
  refine orderly_call key [v] fun a => ?_
  cases a with
  | test p => exact orderly_tested p v
  | _ => exact .throw _

theorem orderly_produce (key : ℕ) : (produce key).Orderly := by
  refine .bind_get fun w => ?_
  dsimp only
  cases w.user.suppliers[key]? with
  | none => exact .refl w
  | some s =>
    refine ((orderly_record _).bind fun _ => ?_) w
    refine (orderly_modifyGet fun _ => World.later_of_eq rfl rfl).bind fun _ => ?_
    cases s.steps with
    | nil => exact .pure _
    | cons x xs =>
      cases x with
      | step x => exact .pure x
      | failure f => exact .throw f

theorem orderly_callbacksWithin (n : ℕ) : (callbacksWithin n).Orderly := by
  induction n with
  | zero => exact ⟨fun _ _ => .throw _, orderly_test, orderly_produce⟩
  | succ n ih => exact ⟨orderly_transform ih, orderly_test, orderly_produce⟩

/-- All that a script runs is orderly: the functions of its stages, its sources, and the functions
that it gives to drivers. -/
theorem orderly_scripts (w : ScriptWorld) : (callbacks w).Orderly ∧
    (∀ key v, (test key v).Orderly) ∧ (∀ key a b, (reduce key a b).Orderly) ∧
      ∀ key vs, (consume key vs).Orderly := by
  refine ⟨orderly_callbacksWithin _, orderly_test, fun key a b => ?_, fun key vs => ?_⟩
  · refine orderly_call key [a, b] fun action => ?_
    cases action with
    | reduce r => exact orderly_reduced r a b
    | _ => exact .throw _
  · exact orderly_call key vs fun _ => .pure ()

end Scripted
end TypeLattice
