import TypeLattice.Proofs.Reported
import TypeLattice.Iterator.World

/-!
# What filters deliver

An iterator over an array, and any row of filters over it, delivers elements of the array, whatever
else is done with it and with others in the meantime. So all that it delivers belongs to the element
type that was reported for the array when the iterator was made.
-/
namespace TypeLattice

open Runs

variable {κ σ α β : Type}

namespace World

/-- A later world: an iterator keeps its source and stages, and a cursor its array. -/
structure Later (w w' : World κ σ) : Prop where
  pipeline : ∀ (p : ℕ) line, w.pipelines[p]? = some line → w'.pipelines[p]? = some line
  cursor : ∀ (i : ℕ) items n, w.sources[i]? = some (.array items n) →
    ∃ m, w'.sources[i]? = some (.array items m)

variable {w w' w'' : World κ σ} {i n : ℕ} {items : List Value}

theorem Later.refl (w : World κ σ) : w.Later w := ⟨fun _ _ h => h, fun _ _ n h => ⟨n, h⟩⟩

theorem Later.trans (h : w.Later w') (h' : w'.Later w'') : w.Later w'' where
  pipeline p line hp := h'.pipeline p line (h.pipeline p line hp)
  cursor i items n hi := by
    obtain ⟨m, hm⟩ := h.cursor i items n hi
    exact h'.cursor i items m hm

theorem later_setSource (h : w.sources[i]? = some (.array items n)) (m : ℕ) :
    w.Later (w.setSource i (.array items m)) where
  pipeline _ _ hp := hp
  cursor j others k hj := by
    by_cases hij : i = j
    · subst hij
      obtain ⟨rfl, -⟩ := Source.array.inj (Option.some.inj (h.symm.trans hj))
      obtain ⟨hlt, -⟩ := Array.getElem?_eq_some_iff.1 h
      exact ⟨m, by simp [setSource, hlt]⟩
    · exact ⟨k, by simpa [setSource, Array.getElem?_setIfInBounds, hij] using hj⟩

end World

namespace Run

/-- The world after a computation, whether it succeeds or fails. -/
def worldAfter (x : Run κ σ α) (w : World κ σ) : World κ σ :=
  match x w with
  | .ok _ w' => w'
  | .error _ w' => w'

/-- However the computation ends, iterators that were there are as they were, but for the positions
of cursors. -/
def Orderly (x : Run κ σ α) : Prop := ∀ w : World κ σ, w.Later (x.worldAfter w)

namespace Orderly

theorem later {x : Run κ σ α} (h : x.Orderly) {w w' : World κ σ} {a : α} (hr : x w = .ok a w') :
    w.Later w' := by
  have hw := h w
  rwa [worldAfter, hr] at hw

protected theorem pure (a : α) : (pure a : Run κ σ α).Orderly := World.Later.refl

protected theorem throw (e : Failure) : (throw e : Run κ σ α).Orderly := World.Later.refl

protected theorem bind {x : Run κ σ α} {f : α → Run κ σ β} (hx : x.Orderly)
    (hf : ∀ a, (f a).Orderly) : (x >>= f).Orderly := by
  intro w
  have hw := hx w
  simp only [worldAfter] at hw ⊢
  cases hr : x w with
  | error e w₁ =>
    rw [hr] at hw
    rwa [bind_of_error hr]
  | ok a w₁ =>
    rw [hr] at hw
    rw [bind_of_ok hr]
    exact hw.trans (hf a w₁)

/-- What depends on the world at the start. -/
theorem bind_get {f : World κ σ → Run κ σ β} (hf : ∀ w : World κ σ, w.Later ((f w).worldAfter w)) :
    (get >>= f).Orderly := by
  intro w
  rw [worldAfter, bind_of_ok get_eq]
  exact hf w

theorem search {next : Run κ σ Step} {test : Value → Run κ σ (Flow Bool)}
    (hnext : next.Orderly) (htest : ∀ v, (test v).Orderly) (want : Bool) (n : ℕ) :
    Run.Orderly (Loop.search next test want n) := by
  induction n with
  | zero => exact .throw _
  | succ n ih =>
    refine hnext.bind fun step => ?_
    cases step with
    | done | stop => exact .pure _
    | value v =>
      refine (htest v).bind fun flow => ?_
      cases flow with
      | stop => exact .pure _
      | go b =>
        dsimp only
        split_ifs
        · exact .pure _
        · exact ih

theorem fold {next : Run κ σ Step} {take : α → Value → Run κ σ (Flow α)} (hnext : next.Orderly)
    (htake : ∀ a v, (take a v).Orderly) (n : ℕ) (a : α) :
    Run.Orderly (Loop.fold next take n a) := by
  induction n generalizing a with
  | zero => exact .throw _
  | succ n ih =>
    refine hnext.bind fun step => ?_
    cases step with
    | done | stop => exact .pure _
    | value v =>
      refine (htake a v).bind fun flow => ?_
      cases flow with
      | stop => exact .pure _
      | go b => exact ih b

end Orderly
end Run

/-- The functions and sources of the user leave iterators as they are. -/
structure Callbacks.Orderly (cb : Callbacks κ σ) : Prop where
  transform : ∀ f v, (cb.transform f v).Orderly
  test : ∀ f v, (cb.test f v).Orderly
  produce : ∀ key, (cb.produce key).Orderly

namespace Run

variable {cb : Callbacks κ σ} {w w' : World κ σ} {i n p : ℕ} {items : List Value} {v : Value}

theorem orderly_pullSource (hcb : cb.Orderly) (i : ℕ) : (pullSource cb i).Orderly := by
  refine .bind_get fun w => ?_
  cases hi : w.sources[i]? with
  | none => exact .refl w
  | some s =>
    cases s with
    | custom key => exact hcb.produce key w
    | array items n =>
      dsimp only
      cases items[n]? with
      | none => exact .refl w
      | some v => exact World.later_setSource hi (n + 1)

theorem orderly_pullStages (hcb : cb.Orderly) (i : ℕ) (stages : List (Stage κ)) :
    (pullStages cb i stages).Orderly := by
  induction stages with
  | nil => exact orderly_pullSource hcb i
  | cons s stages ih =>
    cases s with
    | map f =>
      refine ih.bind fun step => ?_
      cases step with
      | done | stop => exact .pure _
      | value v =>
        refine (hcb.transform f v).bind fun flow => ?_
        cases flow <;> exact .pure _
    | keep test want =>
      refine .bind_get fun w => ?_
      exact ((ih.search (hcb.test test) want _).bind fun f => .pure _) w

/-- Pulling any iterator is orderly. -/
theorem orderly_pull (hcb : cb.Orderly) (p : ℕ) : (pull cb p).Orderly :=
  .bind_get fun w => orderly_pullStages hcb _ _ w

theorem orderly_collectElement {collect : ℕ → Run κ σ (List Value)}
    (hcollect : ∀ q, (collect q).Orderly) (v : Value) : Run.Orderly (collectElement collect v) := by
  cases v with
  | iterator q t => exact (hcollect q).bind fun _ => .pure _
  | _ => exact .pure _

theorem orderly_drainWith (hcb : cb.Orderly) {collect : ℕ → Run κ σ (List Value)}
    (hcollect : ∀ q, (collect q).Orderly) (p : ℕ) : (drainWith cb collect p).Orderly := by
  refine .bind_get fun w => ?_
  refine Orderly.fold (orderly_pull hcb p) (fun xs v => ?_) _ _ w
  exact (orderly_collectElement hcollect v).bind fun _ => .pure _

theorem orderly_collectWithin (hcb : cb.Orderly) (n p : ℕ) : (collectWithin cb n p).Orderly := by
  induction n generalizing p with
  | zero => exact .throw _
  | succ n ih =>
    refine .bind_get fun w => ?_
    dsimp only
    split
    · next hi => exact World.later_setSource hi _
    · exact orderly_drainWith hcb ih p w

/-- The source is a cursor over the array. -/
def Over (i : ℕ) (items : List Value) (w : World κ σ) : Prop :=
  ∃ n, w.sources[i]? = some (.array items n)

/-- Once it holds, it holds in all later worlds. -/
def Lasting (I : World κ σ → Prop) : Prop := ∀ w w', w.Later w' → I w → I w'

theorem lasting_over (i : ℕ) (items : List Value) : Lasting (Over i items : World κ σ → Prop) := by
  rintro w w' h ⟨n, hn⟩
  exact h.cursor i items n hn

/-- Where `I` holds, all that is delivered is in the array. -/
def Delivers (I : World κ σ → Prop) (items : List Value) (x : Run κ σ Step) : Prop :=
  ∀ w v w', I w → x w = .ok (.value v) w' → v ∈ items

variable {I : World κ σ → Prop}

theorem delivers_pullSource (cb : Callbacks κ σ) (i : ℕ) (items : List Value) :
    (pullSource cb i).Delivers (Over i items) items := by
  rintro w v w' ⟨n, hi⟩ hr
  rw [pullSource, bind_of_ok get_eq, hi] at hr
  dsimp only at hr
  cases hv : items[n]? with
  | none =>
    rw [hv] at hr
    cases hr
  | some u =>
    rw [hv] at hr
    cases hr
    exact List.mem_of_getElem? hv

/-- What a search finds was delivered to it. -/
theorem Delivers.search {next : Run κ σ Step} {test : Value → Run κ σ (Flow Bool)}
    (h : next.Delivers I items) (hI : Lasting I) (hnext : next.Orderly)
    (htest : ∀ v, (test v).Orderly) (want : Bool) (bound : ℕ) (hw : I w)
    (hr : Loop.search next test want bound w = .ok (.found v) w') : v ∈ items := by
  induction bound generalizing w with
  | zero => cases hr
  | succ bound ih =>
    obtain ⟨step, w₁, hstep, hr⟩ := of_bind_ok hr
    cases step with
    | done | stop => cases hr
    | value u =>
      obtain ⟨flow, w₂, hflow, hr⟩ := of_bind_ok hr
      cases flow with
      | stop => cases hr
      | go b =>
        dsimp only at hr
        split_ifs at hr
        · cases hr
          exact h w v w₁ hw hstep
        · have hw₁ := hI w w₁ (hnext.later hstep) hw
          exact ih (hI w₁ w₂ ((htest u).later hflow) hw₁) hr

theorem delivers_pullStages (hcb : cb.Orderly) (i : ℕ) (items : List Value)
    {stages : List (Stage κ)} (hstages : ∀ s ∈ stages, ∃ test want, s = .keep test want) :
    (pullStages cb i stages).Delivers (Over i items) items := by
  induction stages with
  | nil => exact delivers_pullSource cb i items
  | cons s stages ih =>
    obtain ⟨test, want, rfl⟩ := hstages s List.mem_cons_self
    have ih := ih fun s hs => hstages s (List.mem_cons_of_mem _ hs)
    intro w v w' hw hr
    rw [pullStages, Access.pullStages_keep, map_eq_pure_bind] at hr
    obtain ⟨finding, w₁, hsearch, hr⟩ := of_bind_ok hr
    cases finding with
    | exhausted | stopped => cases hr
    | found u =>
      cases hr
      exact ih.search (lasting_over i items) (orderly_pullStages hcb i stages) (hcb.test test) want
        _ hw hsearch

/-- An element as it is collected: one that is an iterator is collected too. -/
def Collected (u v : Value) : Prop := v = u ∨ ∃ q t vs, u = .iterator q t ∧ v = .array vs

theorem collected_of_collectElement {collect : ℕ → Run κ σ (List Value)} {u : Value}
    (h : collectElement collect u w = .ok v w') : Collected u v := by
  cases u with
  | iterator q t =>
    obtain ⟨vs, w₁, _, h⟩ := of_bind_ok h
    cases h
    exact .inr ⟨q, t, vs, rfl, rfl⟩
  | _ =>
    cases h
    exact .inl rfl

/-- What is drained was delivered. -/
theorem Delivers.drain {next : Run κ σ Step} {collect : ℕ → Run κ σ (List Value)}
    (h : next.Delivers I items) (hI : Lasting I) (hnext : next.Orderly)
    (hcollect : ∀ q, (collect q).Orderly) (bound : ℕ) {vs us : List Value} (hw : I w)
    (hvs : ∀ v ∈ vs, ∃ u ∈ items, Collected u v)
    (hr : Loop.fold next (fun xs v => do return .go (xs ++ [← collectElement collect v])) bound vs
      w = .ok us w') : ∀ v ∈ us, ∃ u ∈ items, Collected u v := by
  induction bound generalizing w vs with
  | zero => cases hr
  | succ bound ih =>
    obtain ⟨step, w₁, hstep, hr⟩ := of_bind_ok hr
    cases step with
    | done | stop =>
      cases hr
      exact hvs
    | value u =>
      obtain ⟨flow, w₂, hflow, hr⟩ := of_bind_ok hr
      obtain ⟨u', w₃, hu', hflow⟩ := of_bind_ok hflow
      cases hflow
      have hw₁ := hI w w₁ (hnext.later hstep) hw
      have hw₂ := hI w₁ w₂ ((orderly_collectElement hcollect u).later hu') hw₁
      refine ih hw₂ (fun v hv => ?_) hr
      rcases List.mem_append.1 hv with hv | hv
      · exact hvs v hv
      · rw [List.mem_singleton.1 hv]
        exact ⟨u, h w u w₁ hw hstep, collected_of_collectElement hu'⟩

end Run

/-- In the last world there is an iterator over the array, with any number of filters, that was made
with the store `s`. -/
inductive Filtering (s : Store) (xs : List Value) : World κ σ → Value → Prop
  | cursor {w w' : World κ σ} {it : Value} (store : w.store = s)
      (made : Run.iterate? (.array xs) w = .ok (some it) w') : Filtering s xs w' it
  | filter {w w' : World κ σ} {p : ℕ} {t : Ty} {test : κ} {want : Bool} {it : Value}
      (base : Filtering s xs w (.iterator p t))
      (made : Run.withStage p t (.keep test want) w = .ok it w') : Filtering s xs w' it
  | later {w w' : World κ σ} {it : Value} (base : Filtering s xs w it) (later : w.Later w') :
      Filtering s xs w' it

namespace Filtering

open Run

variable {s : Store} {xs : List Value} {w w' : World κ σ} {it : Value} {p : ℕ} {line : Pipeline κ}
  {cb : Callbacks κ σ}

/-- The iterator is made of filters over the array only. -/
structure Stands (p : ℕ) (line : Pipeline κ) (xs : List Value) (w : World κ σ) : Prop where
  pipeline : w.pipelines[p]? = some line
  stages : ∀ s ∈ line.stages, ∃ test want, s = .keep test want
  source : Over line.source xs w

theorem lasting_stands (p : ℕ) (line : Pipeline κ) (xs : List Value) :
    Lasting (Stands p line xs : World κ σ → Prop) := fun w w' h hw =>
  ⟨h.pipeline p line hw.pipeline, hw.stages, lasting_over _ _ w w' h hw.source⟩

theorem Stands.pipeline_eq (h : Stands p line xs w) : w.pipeline p = line := by
  simp [World.pipeline, h.pipeline]

theorem exists_stands (h : Filtering s xs w it) :
    ∃ p line, it = .iterator p (s.elementType xs) ∧ Stands p line xs w := by
  induction h with
  | @cursor w w' it store made =>
    subst store
    cases made
    refine ⟨_, { source := w.sources.size }, rfl, ?_, ?_, 0, ?_⟩
    · simp
    · simp
    · simp
  | @filter w w' p t test want it base made ih =>
    obtain ⟨p', line, hit, hstands⟩ := ih
    cases hit
    cases made
    refine ⟨_, { line with stages := .keep test want :: line.stages }, rfl, ?_, ?_, ?_⟩
    · simp [hstands.pipeline_eq]
    · intro s hs
      rcases List.mem_cons.1 hs with rfl | hs
      · exact ⟨test, want, rfl⟩
      · exact hstands.stages s hs
    · exact hstands.source
  | @later w w' it base later ih =>
    obtain ⟨p, line, rfl, hstands⟩ := ih
    exact ⟨p, line, rfl, lasting_stands p line xs w w' later hstands⟩

theorem delivers_pull (hcb : cb.Orderly) (p : ℕ) (line : Pipeline κ) (xs : List Value) :
    (pull cb p).Delivers (Stands p line xs) xs := by
  intro w v w' hw hr
  rw [pull, Access.pull_eq, hw.pipeline_eq] at hr
  exact delivers_pullStages hcb line.source xs hw.stages w v w' hw.source hr

theorem collected_of_collect (hcb : cb.Orderly) (hw : Stands p line xs w) {vs : List Value}
    (hr : collect cb p w = .ok vs w') : ∀ v ∈ vs, ∃ u ∈ xs, Collected u v := by
  have hdrain : drainWith cb (collectWithin cb (w.pipelines.size + 1)) p w = .ok vs w' →
      ∀ v ∈ vs, ∃ u ∈ xs, Collected u v :=
    (delivers_pull hcb p line xs).drain (lasting_stands p line xs) (orderly_pull hcb p)
      (orderly_collectWithin hcb _) _ hw (by simp)
  obtain ⟨n, hn⟩ := hw.source
  by_cases hstages : (w.pipeline p).stages = []
  · rw [← hw.pipeline_eq] at hn
    rw [collect, Access.collect_eq, Access.collectWithin_cursor _ hstages hn] at hr
    cases hr
    exact fun v hv => ⟨v, List.mem_of_mem_drop hv, .inl rfl⟩
  · rw [collect, Access.collect_eq, Access.collectWithin_of_stages _ hstages] at hr
    exact hdrain hr

end Filtering

/-- A value belongs to every type that accepts its reported type, so to that type itself. What an
iterator over an array delivers, or a row of filters over one, belongs to the element type that was
reported when it was made, and goes on to do so while more is built. -/
theorem Store.typeOf_sound {s : Store} (hb : s.Built) :
    (∀ t v, s.accepts t (s.typeOf v) = true → s.isInstance t v = true) ∧
    (∀ v, s.isInstance (s.typeOf v) v = true) ∧
    ∀ (κ σ : Type) (cb : Callbacks κ σ), cb.Orderly → ∀ xs (w : World κ σ) it,
      Filtering s xs w it → ∃ p t, it = .iterator p t ∧
        (∀ v w', Run.pull cb p w = .ok (.value v) w' →
          Filtering s xs w' it ∧ s.isInstance t v = true ∧
          ((∀ a ∈ Value.nodesOfList xs, s.Knows a) → ∀ s', s'.Built → s.Untouched s' →
            s'.isInstance t v = true)) ∧
        ∀ vs w', Run.collect cb p w = .ok vs w' → ∀ v ∈ vs,
          ∃ u, s.isInstance t u = true ∧ Run.Collected u v := by
  have hs := hb.wellFormed
  refine ⟨fun t v => isInstance_of_accepts_typeOf hs, isInstance_typeOf hs, ?_⟩
  intro κ σ cb hcb xs w it hit
  obtain ⟨p, line, rfl, hw⟩ := hit.exists_stands
  refine ⟨p, s.elementType xs, rfl, fun v w' hr => ?_, fun vs w' hr v hv => ?_⟩
  · have hv : v ∈ xs := Filtering.delivers_pull hcb p line xs w v w' hw hr
    refine ⟨.later hit ((Run.orderly_pull hcb p).later hr), isInstance_elementType hs hv, ?_⟩
    intro hknown s' hb' huntouched
    rw [← huntouched.elementType_eq hs hb'.wellFormed xs hknown]
    exact isInstance_elementType hb'.wellFormed hv
  · obtain ⟨u, hu, hcollected⟩ := Filtering.collected_of_collect hcb hw hr v hv
    exact ⟨u, isInstance_elementType hs hu, hcollected⟩

/-- The test passes on the objects with the given mark. -/
def Callbacks.marked : Callbacks ℕ Unit where
  transform _ v := return .go v
  test n v := return .go (match v with
    | .object m _ _ => m = n
    | _ => false)
  produce _ := return .done
  supply _ _ := 0

theorem Callbacks.orderly_marked : Callbacks.marked.Orderly where
  transform _ _ := .pure _
  test _ _ := .pure _
  produce _ := .pure _

/-- Of two objects of one type the second is delivered, and belongs to that type. -/
theorem Store.marked_typeOf_sound :
    let xs : List Value := [.object 3 (.declared 2) [], .object 4 (.declared 2) []]
    lineage.Built ∧ Callbacks.marked.Orderly ∧ lineage.elementType xs = .object (.declared 2) ∧
    ∃ (w w' : World ℕ Unit) (p : ℕ),
      Filtering lineage xs w (.iterator p (lineage.elementType xs)) ∧
      Run.pull .marked p w = .ok (.value (.object 4 (.declared 2) [])) w' ∧
      lineage.isInstance (lineage.elementType xs) (.object 4 (.declared 2) []) = true := by
  intro xs
  let w : World ℕ Unit := { store := lineage, user := () }
  let w₁ := ((w.addSource (.array xs 0)).2.addPipeline { source := 0 }).2
  let w₂ := (w₁.addPipeline { source := 0, stages := [.keep 4 true] }).2
  have hcursor : Filtering lineage xs w₁ (.iterator 0 (lineage.elementType xs)) :=
    .cursor (w := w) rfl rfl
  have hmade : Run.withStage 0 (lineage.elementType xs) (.keep 4 true) w₁ =
      .ok (.iterator 1 (lineage.elementType xs)) w₂ := rfl
  have hfilter := hcursor.filter hmade
  have hpull : Run.pull Callbacks.marked 1 w₂ = .ok (.value (.object 4 (.declared 2) [])) _ := rfl
  obtain ⟨p, t, hit, hdelivered, -⟩ :=
    (typeOf_sound built_lineage).2.2 ℕ Unit .marked Callbacks.orderly_marked xs _ _ hfilter
  cases hit
  exact ⟨built_lineage, Callbacks.orderly_marked, by decide +kernel, _, _, 1, hfilter, hpull,
    (hdelivered _ _ hpull).2.1⟩

end TypeLattice
