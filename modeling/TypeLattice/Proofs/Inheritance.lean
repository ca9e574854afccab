import TypeLattice.Proofs.Line

/-!
# Inheritance

Object types are made and resolved by calls in any order, some of which fail. No call makes an
object type its own ancestor, so every walk along parents ends, and a body that was given once
stays.
-/
namespace TypeLattice

/-- A use of one of the operations on object types. -/
inductive Call where
  | new (name : Option String)
  | resolve (o : ObjectId) (b : Body Ty)
  | withBody (name : Option String) (b : Body Ty)

namespace Call

def perform : Call → Building Unit
  | .new name => do
    let _ ← Building.newObject name
  | .resolve o b => Building.resolve o b
  | .withBody name b => do
    let _ ← Building.newResolved name b

/-- The store after a call, whether it succeeds or fails. -/
def after (c : Call) (s : Store) : Store :=
  match c.perform s with
  | .ok _ s' => s'
  | .error _ s' => s'

def afterAll (cs : List Call) (s : Store) : Store := cs.foldl (fun s c => c.after s) s

end Call

namespace Store

variable {s s' : Store} {o p q : ObjectId} {b : Body Ty} {c : Body ObjectId}

/-- What a successful resolution has checked, and the store it leaves. -/
theorem resolve_eq_ok_iff :
    s.resolve o b = .ok s' ↔ ∃ parent, s.checkParent o b.parent = .ok parent ∧
      badDefault? b.attributes = none ∧ s.body? o = none ∧
      s' = s.setBody o (b.withParent parent) := by
  have hres : s.isResolved o = false ↔ s.body? o = none := by
    cases h : s.body? o <;> simp [isResolved, h]
  cases hc : s.checkParent o b.parent with
  | error e => simp [resolve, hc, bind, Except.bind]
  | ok parent =>
    cases hd : badDefault? b.attributes with
    | some d => simp [resolve, hc, hd, bind, Except.bind, throw, throwThe, MonadExceptOf.throw]
    | none =>
      cases hr : s.isResolved o
      · simp [resolve, hc, hd, hr, bind, Except.bind, pure, Except.pure, hres.1 hr, eq_comm]
      · have : s.body? o ≠ none := fun h => by simp [hres.2 h] at hr
        simp [resolve, hc, hd, hr, bind, Except.bind, throw, throwThe, MonadExceptOf.throw, this]

theorem checkParent_eq_ok_iff {t : Option Ty} {parent : Option ObjectId} :
    s.checkParent o t = .ok parent ↔
      t = parent.map .object ∧ ∀ p, parent = some p → o ∉ s.line p := by
  cases t with
  | none => cases parent <;> simp [checkParent]
  | some t =>
    cases t with
    | object p =>
      by_cases ho : o ∈ s.line p
      · cases parent <;> simp_all [checkParent]
        rintro rfl
        exact ho
      · cases parent <;> simp_all [checkParent]
        rintro rfl
        exact ho
    | basic | former | typeSet => cases parent <;> simp [checkParent]

/-- A parent is refused as circular before anything else is looked at. -/
theorem resolve_eq_circular_iff (hp : b.parent = some (.object p)) :
    s.resolve o b = .error (.circularInheritance (s.label o)) ↔ o ∈ s.line p := by
  by_cases ho : o ∈ s.line p
  · simp [resolve, hp, checkParent, ho, bind, Except.bind]
  · simp only [resolve, hp, checkParent, ho, if_false, bind, Except.bind]
    cases badDefault? b.attributes with
    | none =>
      cases s.isResolved o <;> simp [throw, throwThe, MonadExceptOf.throw, pure, Except.pure]
    | some d =>
      rcases TypeError.withText_cases (s.renderValue? d.2) (.invalidDefault (s.label o) d.1) with
        ⟨text, -, h⟩ | ⟨-, h⟩ <;> simp [h, throw, throwThe, MonadExceptOf.throw]

theorem body?_newObject (s : Store) (name : Option String) (o : ObjectId) :
    (s.newObject name).2.body? o = s.body? o := by
  cases o with
  | default | describing => rfl
  | declared n =>
    simp only [newObject, body?, Array.getElem?_push]
    split
    · next h => simp [h]
    · rfl

/-- A new body is that of one object type only. -/
theorem body?_setBody_of_ne (h : q ≠ o) : (s.setBody o c).body? q = s.body? q := by
  cases o with
  | default | describing => rfl
  | declared n =>
    cases q with
    | default | describing => rfl
    | declared m =>
      have hm : n ≠ m := fun he => h (he ▸ rfl)
      simp [setBody, body?, Array.getElem?_modify, hm]

theorem body?_setBody_self {n : ℕ} (h : n < s.objects.size) :
    (s.setBody (.declared n) c).body? (.declared n) = some c := by
  simp only [setBody, body?]
  rw [Array.getElem?_modify, Array.getElem?_eq_getElem h]
  simp

/-- The new body is found, unless there is no such object type. -/
theorem body?_setBody_self_cases (h : s.body? o = none) :
    (s.setBody o c).body? o = some c ∨ (s.setBody o c).body? o = none := by
  cases o with
  | default | describing => simp [body?] at h
  | declared n =>
    by_cases hn : n < s.objects.size
    · exact .inl (body?_setBody_self hn)
    · simp [setBody, body?, hn]

theorem parent?_congr (h : s'.body? o = s.body? o) : s'.parent? o = s.parent? o := by
  simp [parent?, h]

/-- Whatever a call does is to add an object type and to resolve one. -/
inductive Change (s : Store) : Store → Prop
  | object (name : Option String) : Change s (s.newObject name).2
  | body {o : ObjectId} {b : Body Ty} {s' : Store} (h : s.resolve o b = .ok s') : Change s s'

theorem run_resolve (s : Store) (o : ObjectId) (b : Body Ty) :
    Building.resolve o b s =
      match s.resolve o b with
      | .ok s' => .ok () s'
      | .error e => .error e s := by
  have hrun : Building.resolve o b s =
      (match s.resolve o b with
        | .ok s' => MonadStateOf.set s'
        | .error e => throw e : Building Unit) s := rfl
  rw [hrun]
  cases s.resolve o b <;> rfl

theorem run_newResolved (s : Store) (name : Option String) (b : Body Ty) :
    Building.newResolved name b s =
      if name.isNone ∧ b.isEmpty then .ok .default s
      else match (s.newObject name).2.resolve (s.newObject name).1 b with
        | .ok s' => .ok (s.newObject name).1 s'
        | .error e => .error e (s.newObject name).2 := by
  simp only [Building.newResolved]
  split
  · rfl
  · have hnew : Building.newObject name s = .ok (s.newObject name).1 (s.newObject name).2 := rfl
    simp only [bind, EStateM.bind, hnew, run_resolve]
    cases (s.newObject name).2.resolve (s.newObject name).1 b <;> rfl

theorem changes_after (c : Call) (s : Store) :
    Relation.ReflTransGen Change s (c.after s) := by
  cases c with
  | new name => exact .single (.object name)
  | resolve o b =>
    simp only [Call.after, Call.perform, run_resolve]
    cases h : s.resolve o b with
    | ok s' => exact .single (.body h)
    | error e => exact .refl
  | withBody name b =>
    simp only [Call.after, Call.perform, bind, EStateM.bind, run_newResolved]
    split_ifs
    · exact .refl
    · cases h : (s.newObject name).2.resolve (s.newObject name).1 b with
      | ok s' => exact .tail (.single (.object name)) (.body h)
      | error e => exact .single (.object name)

theorem changes_afterAll (cs : List Call) (s : Store) :
    Relation.ReflTransGen Change s (Call.afterAll cs s) := by
  induction cs generalizing s with
  | nil => exact .refl
  | cons c cs ih => exact (changes_after c s).trans (ih (c.after s))

theorem rooted_empty : Rooted {} := by
  have hroot : ∀ v : Variant, v.describerParent = none → Line {} (.describing v) [.describing v] :=
    fun v hv => .root (by simp [parent?, body?, Variant.describerBody, hv])
  have hany := hroot (.basic .any) rfl
  have hnumeric : Line {} (.describing (.basic .numeric)) _ := .link rfl hany
  intro o
  cases o with
  | default => exact ⟨_, .root rfl⟩
  | declared n => exact ⟨_, .root (by simp [parent?, body?])⟩
  | describing v =>
    rcases v with b | f | _ | _
    · cases b with
      | any => exact ⟨_, hany⟩
      | integer | float => exact ⟨_, .link rfl hnumeric⟩
      | undef | unit | boolean | numeric | string => exact ⟨_, .link rfl hany⟩
    all_goals exact ⟨_, .link rfl hany⟩

/-- A body whose parent does not lead back to its owner opens no endless walk. -/
theorem Rooted.setBody (h : s.Rooted) (ho : s.body? o = none)
    (hp : ∀ p, c.parent = some p → o ∉ s.line p) : (s.setBody o c).Rooted := by
  have hother : ∀ q, q ≠ o → (s.setBody o c).parent? q = s.parent? q :=
    fun q hq => parent?_congr (body?_setBody_of_ne hq)
  have haway : ∀ q l, Line s q l → o ∉ l → Line (s.setBody o c) q l :=
    fun q l hl hol => hl.congr fun x hx => hother x fun he => hol (he ▸ hx)
  have hself : ∃ l, Line (s.setBody o c) o l := by
    rcases body?_setBody_self_cases (c := c) ho with hb | hb
    · cases hcp : c.parent with
      | none => exact ⟨_, .root (by simp [parent?, hb, hcp])⟩
      | some p =>
        exact ⟨_, .link (by simp [parent?, hb, hcp]) (haway p _ (h.line p) (hp p hcp))⟩
    · exact ⟨_, .root (by simp [parent?, hb])⟩
  intro q
  obtain ⟨l, hl⟩ := h q
  induction hl with
  | @root q last =>
    by_cases hq : q = o
    · exact hq ▸ hself
    · exact ⟨_, .root ((hother q hq).trans last)⟩
  | @link q p l parent _ ih =>
    by_cases hq : q = o
    · exact hq ▸ hself
    · obtain ⟨m, hm⟩ := ih
      exact ⟨_, .link ((hother q hq).trans parent) hm⟩

theorem Rooted.resolve (h : s.Rooted) (hr : s.resolve o b = .ok s') : s'.Rooted := by
  obtain ⟨parent, hc, _, hn, rfl⟩ := resolve_eq_ok_iff.1 hr
  exact h.setBody hn (checkParent_eq_ok_iff.1 hc).2

theorem Rooted.newObject (h : s.Rooted) (name : Option String) : (s.newObject name).2.Rooted := by
  intro o
  obtain ⟨l, hl⟩ := h o
  exact ⟨l, hl.congr fun q _ => parent?_congr (body?_newObject s name q)⟩

theorem Change.rooted (hc : Change s s') (h : s.Rooted) : s'.Rooted := by
  cases hc with
  | object name => exact h.newObject name
  | body hr => exact h.resolve hr

theorem Change.body? (hc : Change s s') (h : s.body? o = some c) : s'.body? o = some c := by
  cases hc with
  | object name => rw [body?_newObject, h]
  | @body p b _ hr =>
    obtain ⟨parent, _, _, hn, rfl⟩ := resolve_eq_ok_iff.1 hr
    have hne : o ≠ p := by
      rintro rfl
      simp [hn] at h
    rw [body?_setBody_of_ne hne, h]

theorem rooted_of_changes (hc : Relation.ReflTransGen Change s s') (h : s.Rooted) :
    s'.Rooted := by
  induction hc with
  | refl => exact h
  | tail _ hc ih => exact hc.rooted ih

theorem body?_of_changes (hc : Relation.ReflTransGen Change s s') (h : s.body? o = some c) :
    s'.body? o = some c := by
  induction hc with
  | refl => exact h
  | tail _ hc ih => exact hc.body? ih

/-- A resolution that fails changes nothing. -/
theorem eq_of_resolve_error {e : TypeError} (h : Building.resolve o b s = .error e s') :
    s' = s := by
  rw [run_resolve] at h
  cases hr : s.resolve o b <;> simp_all

theorem circular_iff_wouldLoop (h : s.Rooted) (hp : b.parent = some (.object p)) :
    (∃ s', Building.resolve o b s = .error (.circularInheritance (s.label o)) s') ↔
      s.WouldLoop o p := by
  rw [h.wouldLoop_iff, ← resolve_eq_circular_iff hp, run_resolve]
  cases s.resolve o b <;> simp

/-- After any calls, failed or not: each walk along parents ends and is the `line` that resolution,
the attribute look-ups and assignability go along; a parent is refused as circular exactly when the
link to it would close a loop; a resolution that fails changes nothing; and a body stays through
all later calls. -/
theorem inheritance_acyclic_and_bodies_kept (cs : List Call) :
    let s := Call.afterAll cs {}
    (∀ o, Line s o (s.line o)) ∧
    (∀ o p b, b.parent = some (.object p) →
      ((∃ s', Building.resolve o b s = .error (.circularInheritance (s.label o)) s') ↔
        s.WouldLoop o p)) ∧
    (∀ o b e s', Building.resolve o b s = .error e s' → s' = s) ∧
    (∀ o c, s.body? o = some c → ∀ ds, (Call.afterAll ds s).body? o = some c) := by
  intro s
  have hs : s.Rooted := rooted_of_changes (changes_afterAll cs {}) rooted_empty
  refine ⟨hs.line, ?_, ?_, ?_⟩
  · intro o p b hp
    exact circular_iff_wouldLoop hs hp
  · intro o b e s' he
    exact eq_of_resolve_error he
  · intro o c hc ds
    exact body?_of_changes (changes_afterAll ds s) hc

end Store
end TypeLattice
