import TypeLattice.Proofs.Comparing

/-!
# Equality is bisimilarity

The guarded comparison takes a pair for granted only while it is in progress. So what it decides in
the midst of other pairs is whether two nodes are related by a bisimulation up to those pairs, and
entering a pair changes nothing: whatever follows from a pair by looking alike up to it needs no
assumption. From the empty guard it decides bisimilarity.
-/
namespace TypeLattice

def Node.ty : Node → Ty
  | .object o => .object o
  | .typeSet a => .typeSet a

namespace Table

variable {α : Type}

theorem mem_of_get? {t : Table α} {k : String} {v : α} (h : t.get? k = some v) :
    (k, v) ∈ t.entries := mem_of_find? h

theorem get?_of_mem {t : Table α} {e : String × α} (h : e ∈ t.entries) :
    t.get? e.1 = some e.2 := find?_of_mem t.nodup h

theorem mem_keys_iff {t : Table α} {k : String} : k ∈ t.keys ↔ ∃ v, t.get? k = some v := by
  constructor
  · intro hk
    obtain ⟨e, he, rfl⟩ := List.mem_map.1 hk
    exact ⟨e.2, get?_of_mem he⟩
  · rintro ⟨v, hv⟩
    exact List.mem_map.2 ⟨_, mem_of_get? hv, rfl⟩

/-- Two tables with the same names are related if their entries of one name are. -/
theorem rel_get?_of_keys {β : Type} {R : α → β → Prop} {t : Table α} {u : Table β}
    (hkeys : ∀ k, k ∈ t.keys ↔ k ∈ u.keys)
    (h : ∀ k v w, t.get? k = some v → u.get? k = some w → R v w) (k : String) :
    Option.Rel R (t.get? k) (u.get? k) := by
  have hk := hkeys k
  rw [mem_keys_iff, mem_keys_iff] at hk
  cases ht : t.get? k with
  | none =>
    cases hu : u.get? k with
    | none => exact .none
    | some w => simp [ht, hu] at hk
  | some v =>
    cases hu : u.get? k with
    | none => simp [ht, hu] at hk
    | some w => exact .some (h k v w ht hu)

/-- Two tables of one size are related in each entry of the first exactly when they are related at
every name. -/
theorem rel_get?_iff {R : α → α → Prop} {t u : Table α} :
    t.size = u.size ∧ (∀ e ∈ t.entries, ∃ v, u.get? e.1 = some v ∧ R e.2 v) ↔
      ∀ k, Option.Rel R (t.get? k) (u.get? k) := by
  constructor
  · rintro ⟨hl, h⟩ k
    have hsub : t.entries.map (·.1) ⊆ u.entries.map (·.1) := by
      intro k hk
      obtain ⟨e, he, rfl⟩ := List.mem_map.1 hk
      obtain ⟨v, hv, _⟩ := h e he
      exact List.mem_map.2 ⟨_, mem_of_get? hv, rfl⟩
    cases hk : t.get? k with
    | some x =>
      obtain ⟨v, hv, hr⟩ := h _ (mem_of_get? hk)
      exact hv ▸ .some hr
    | none =>
      cases hu : u.get? k with
      | none => exact .none
      | some y =>
        have hmem := keys_subset_of_length t.nodup hl hsub (List.mem_map.2 ⟨_, mem_of_get? hu, rfl⟩)
        obtain ⟨e, he, rfl⟩ := List.mem_map.1 hmem
        rw [get?_of_mem he] at hk
        cases hk
  · intro h
    have hkeys : ∀ {t u : Table α}, (∀ k, t.get? k ≠ none → u.get? k ≠ none) →
        t.entries.map (·.1) ⊆ u.entries.map (·.1) := by
      intro t u h k hk
      obtain ⟨e, he, rfl⟩ := List.mem_map.1 hk
      obtain ⟨v, hv⟩ := Option.ne_none_iff_exists'.1 (h e.1 (by simp [get?_of_mem he]))
      exact List.mem_map.2 ⟨_, mem_of_get? hv, rfl⟩
    refine ⟨?_, ?_⟩
    · have htu : t.entries.map (·.1) ⊆ u.entries.map (·.1) := hkeys fun k hk hu => by
        have := h k
        cases ht : t.get? k <;> simp_all
      have hut : u.entries.map (·.1) ⊆ t.entries.map (·.1) := hkeys fun k hk ht => by
        have := h k
        cases hu : u.get? k <;> simp_all
      have h₁ := (List.subperm_of_subset t.nodup htu).length_le
      have h₂ := (List.subperm_of_subset u.nodup hut).length_le
      rw [List.length_map, List.length_map] at h₁ h₂
      exact Nat.le_antisymm h₁ h₂
    · intro e he
      have := h e.1
      rw [get?_of_mem he] at this
      cases hu : u.get? e.1 with
      | none => simp [hu] at this
      | some v => exact ⟨v, rfl, by simpa [hu] using this⟩

end Table

namespace Store

variable {s : Store} {o p : ObjectId} {a b : Node} {t u : Ty} {g : Guard ObjectId}
  {nodes : Node → Node → Compare} {N H K : Node → Node → Prop}

theorem decides_parentsEqualWith
    (h : ∀ a ∈ s.children (.object o), ∀ b ∈ s.children (.object p),
      Decides (nodes a b) g (N a b)) :
    Decides (s.parentsEqualWith nodes o p) g
      (Option.Rel (fun a b => N (.object a) (.object b)) (s.parent? o) (s.parent? p)) := by
  simp only [parentsEqualWith]
  cases ho : s.parent? o with
  | none =>
    cases hp : s.parent? p with
    | none => exact .yes .none
    | some q => exact .no nofun
  | some r =>
    cases hp : s.parent? p with
    | none => exact .no nofun
    | some q =>
      exact (h (.object r) (by simp [children, ho]) (.object q) (by simp [children, hp])).congr
        (by simp)

theorem decides_objects (hn : s.name? o = s.name? p)
    (h : ∀ a ∈ s.children (.object o), ∀ b ∈ s.children (.object p),
      Decides (nodes a b) g (N a b)) :
    Decides (s.contentsEqualWith nodes (.object o) (.object p)) g
      (s.Alike (Ty.Lift N) (.object o) (.object p)) := by
  have hattributes := Attribute.decides_equalListWith (s.ownAttributes o).entries
    (s.ownAttributes p).entries fun x hx y hy =>
      h x (List.mem_append_right _ hx) y (List.mem_append_right _ hy)
  refine ((decides_parentsEqualWith h).both fun _ => hattributes).congr ?_
  constructor
  · rintro ⟨hp, ha⟩
    exact .object hn hp ha
  · intro hr
    cases hr with
    | object name parent attributes => exact ⟨parent, attributes⟩

theorem decides_typeSets {a b : SetId} (hl : s.labelsAgree (.typeSet a) (.typeSet b) = true)
    (h : ∀ x ∈ s.children (.typeSet a), ∀ y, Decides (nodes x y) g (N x y)) :
    Decides (s.contentsEqualWith nodes (.typeSet a) (.typeSet b)) g
      (s.Alike (Ty.Lift N) (.typeSet a) (.typeSet b)) := by
  simp only [labelsAgree, decide_eq_true_eq] at hl
  refine (TypeSet.decides_membersEqualWith h).congr ?_
  constructor
  · intro hm
    exact .typeSet hl.1 hl.2.1 (Table.rel_get?_iff.1 ⟨hl.2.2, hm⟩)
  · intro hr
    cases hr with
    | typeSet name version members => exact (Table.rel_get?_iff.2 members).2

theorem labelsAgree_of_alike {R : Ty → Ty → Prop} (h : s.Alike R a.ty b.ty) :
    s.labelsAgree a b = true := by
  cases a <;> cases b <;> cases h
  · simpa [labelsAgree]
  · next name version members => simp [labelsAgree, name, version, (Table.rel_get?_iff.2 members).1]

/-- Some relation has the pair, each pair of which is one node, is assumed or looks alike. -/
def Assuming (s : Store) (H : Node → Node → Prop) (a b : Node) : Prop :=
  ∃ N : Node → Node → Prop, N a b ∧
    ∀ x y, N x y → x = y ∨ H x y ∨ s.Alike (Ty.Lift N) x.ty y.ty

theorem Assuming.cases (h : s.Assuming H a b) :
    a = b ∨ H a b ∨ s.Alike (Ty.Lift (s.Assuming H)) a.ty b.ty := by
  obtain ⟨N, hab, hN⟩ := h
  exact (hN a b hab).imp_right (Or.imp_right (Alike.mono fun _ _ hl =>
    hl.mono fun x y hxy => ⟨N, hxy, hN⟩))

theorem Assuming.refl (s : Store) (H : Node → Node → Prop) (a : Node) : s.Assuming H a a :=
  ⟨Eq, rfl, fun _ _ h => .inl h⟩

theorem Assuming.of_assumed (h : H a b) : s.Assuming H a b :=
  ⟨H, h, fun _ _ h => .inr (.inl h)⟩

/-- Whatever looks alike up to an assumption that includes it needs no such assumption. -/
theorem Assuming.of_alike (hK : ∀ x y, K x y → H x y ∨ x = a ∧ y = b)
    (h : s.Alike (Ty.Lift (s.Assuming K)) a.ty b.ty) : s.Assuming H a b := by
  refine ⟨fun x y => s.Assuming K x y ∨ x = a ∧ y = b, .inr ⟨rfl, rfl⟩, ?_⟩
  have hwide : ∀ x y, s.Alike (Ty.Lift (s.Assuming K)) x y →
      s.Alike (Ty.Lift fun x y => s.Assuming K x y ∨ x = a ∧ y = b) x y :=
    fun _ _ => Alike.mono fun _ _ => Ty.Lift.mono fun _ _ => .inl
  rintro x y (hxy | ⟨rfl, rfl⟩)
  · rcases hxy.cases with he | hk | ha
    · exact .inl he
    · rcases hK x y hk with hh | ⟨rfl, rfl⟩
      · exact .inr (.inl hh)
      · exact .inr (.inr (hwide _ _ h))
    · exact .inr (.inr (hwide _ _ ha))
  · exact .inr (.inr (hwide _ _ h))

theorem Assuming.mono (h : s.Assuming H a b) (hHK : ∀ x y, H x y → K x y) : s.Assuming K a b := by
  obtain ⟨N, hab, hN⟩ := h
  exact ⟨N, hab, fun x y hxy => (hN x y hxy).imp_right (Or.imp_left (hHK x y))⟩

theorem Assuming.alike_enter (h : s.Assuming H a b) (hne : a ≠ b) (hab : ¬H a b)
    (hHK : ∀ x y, H x y → K x y) : s.Alike (Ty.Lift (s.Assuming K)) a.ty b.ty := by
  rcases h.cases with he | hh | ha
  · exact absurd he hne
  · exact absurd hh hab
  · exact ha.mono fun _ _ hl => hl.mono fun x y hxy => hxy.mono hHK

/-- Where a node stands: object types below type sets, and a type set above those it refers to. -/
def rank (s : Store) : Node → ℕ
  | .object _ => 0
  | .typeSet (.declared n) => if n < s.sets.size then n + 2 else 1
  | .typeSet _ => 1

theorem rank_le (s : Store) (a : Node) : s.rank a ≤ s.sets.size + 1 := by
  rcases a with _ | _ | _ | n <;> simp only [rank]
  · omega
  · omega
  · omega
  · split_ifs <;> omega

theorem rank_lt_of_mem_children (hs : s.WellFormed) {c : SetId} (h : a ∈ s.children (.typeSet c)) :
    s.rank a < s.rank (.typeSet c) := by
  cases c with
  | default => simp [children, set, Table.empty] at h
  | pcore =>
    simp only [children, set, TypeSet.pcore, List.flatMap_map, List.mem_flatMap, Ty.nodes,
      List.mem_singleton] at h
    obtain ⟨v, _, rfl⟩ := h
    simp [rank]
  | declared n =>
    by_cases hn : n < s.sets.size
    · rcases a with _ | _ | _ | m
      · simp [rank, hn]
      · simp [rank, hn]
      · simp [rank, hn]
      · have hm := hs.earlier m n h
        simp [rank, hn, hm, hm.trans hn]
    · simp [children, set, hn, Table.empty] at h

/-- The number of pairs of object types that are not in progress. -/
def unentered (s : Store) (g : Guard ObjectId) : ℕ :=
  ((s.objectIds.toFinset ×ˢ s.objectIds.toFinset) \ g.inProgress.toFinset).card

theorem unentered_le (s : Store) (g : Guard ObjectId) :
    s.unentered g ≤ s.objectCount * s.objectCount := by
  have hle : s.objectIds.toFinset.card ≤ s.objectCount := by
    rw [← length_objectIds]
    exact List.toFinset_card_le _
  have hsub : s.unentered g ≤ (s.objectIds.toFinset ×ˢ s.objectIds.toFinset).card :=
    Finset.card_le_card Finset.sdiff_subset
  rw [Finset.card_product] at hsub
  exact hsub.trans (Nat.mul_le_mul hle hle)

theorem card_sdiff_cons_lt {α : Type} [DecidableEq α] {all : Finset α} {x : α} {xs : List α}
    (hx : x ∈ all) (hxs : x ∉ xs) :
    (all \ (x :: xs).toFinset).card < (all \ xs.toFinset).card := by
  rw [List.toFinset_cons, Finset.sdiff_insert]
  exact Finset.card_erase_lt_of_mem (by simp [hx, hxs])

theorem unentered_enter_lt (ho : o ∈ s.objectIds) (hp : p ∈ s.objectIds)
    (hg : (o, p) ∉ g.inProgress) : s.unentered (g.enter o p) < s.unentered g := by
  unfold unentered
  generalize s.objectIds = ids at ho hp ⊢
  exact card_sdiff_cons_lt (by simp [ho, hp]) hg

/-- How far a comparison of a node can go down. -/
def depthFrom (s : Store) (g : Guard ObjectId) (a : Node) : ℕ :=
  s.unentered g * (s.sets.size + 2) + s.rank a + 1

theorem depthFrom_le (s : Store) (g : Guard ObjectId) (a : Node) :
    s.depthFrom g a ≤ s.depthBound := by
  have hu := Nat.mul_le_mul_right (s.sets.size + 2) (s.unentered_le g)
  have hr := s.rank_le a
  simp only [depthFrom, depthBound, Nat.add_mul, Nat.one_mul]
  omega

/-- Entering a pair of object types takes away more than any node inside can need. -/
theorem depthFrom_enter_lt (ho : o ∈ s.objectIds) (hp : p ∈ s.objectIds)
    (hg : (o, p) ∉ g.inProgress) (a : Node) :
    s.depthFrom (g.enter o p) a < s.depthFrom g (.object o) := by
  have hu := Nat.mul_le_mul_right (s.sets.size + 2) (unentered_enter_lt ho hp hg)
  have hr := s.rank_le a
  have h0 : s.rank (.object o) = 0 := rfl
  rw [Nat.succ_mul] at hu
  simp only [depthFrom, h0]
  omega

/-- The pairs in progress of object types of one name. Others are told apart before the guard is
asked. -/
def assumed (s : Store) (g : Guard ObjectId) : Node → Node → Prop
  | .object o, .object p => (o, p) ∈ g.inProgress ∧ s.name? o = s.name? p
  | _, _ => False

theorem assumed_enter_iff (hn : s.name? o = s.name? p) :
    s.assumed (g.enter o p) a b ↔ s.assumed g a b ∨ a = .object o ∧ b = .object p := by
  rcases a with q | _ <;> rcases b with r | _ <;> simp only [assumed, reduceCtorEq, false_and,
    and_false, or_false, Node.object.injEq, Guard.enter, List.mem_cons, Prod.mk.injEq, or_and_right]
  constructor
  · rintro (⟨he, _⟩ | h)
    · exact .inr he
    · exact .inl h
  · rintro (h | ⟨rfl, rfl⟩)
    · exact .inr h
    · exact .inl ⟨⟨rfl, rfl⟩, hn⟩

theorem labelsAgree_of_assuming (h : s.Assuming (s.assumed g) a b) (hne : a ≠ b) :
    s.labelsAgree a b = true := by
  rcases h.cases with he | hg | ha
  · exact absurd he hne
  · cases a <;> cases b <;> simp_all [assumed, labelsAgree]
  · exact labelsAgree_of_alike ha

/-- With enough depth the comparison ends without looking `below`, leaves the guard as it was and
decides whether the nodes are bisimilar up to the pairs in progress. -/
theorem decides_nodesEqualWithin (hs : s.WellFormed) (below : Node → Node → Compare) {n : ℕ}
    (hn : s.depthFrom g a ≤ n) :
    Decides (s.nodesEqualWithin below n a b) g (s.Assuming (s.assumed g) a b) := by
  induction n generalizing g a b with
  | zero => simp [depthFrom] at hn
  | succ n ih =>
    refine .ite (fun he => .yes (he ▸ Assuming.refl s _ a)) fun hne => ?_
    refine .ite (fun hl => ?_) fun hl => .no fun h => hl (labelsAgree_of_assuming h hne)
    cases a with
    | object o =>
      cases b with
      | typeSet => simp [labelsAgree] at hl
      | object p =>
        have hname : s.name? o = s.name? p := by simpa [labelsAgree] using hl
        by_cases hg : (o, p) ∈ g.inProgress
        · exact (Decides.run_cut hg).congr
            (iff_of_true trivial (Assuming.of_assumed ⟨hg, hname⟩))
        · have hinside : Decides
              (s.contentsEqualWith (s.nodesEqualWithin below n) (.object o) (.object p))
              (g.enter o p) _ :=
            decides_objects hname fun x hx y hy => ih (b := y) <| Nat.le_of_lt_succ <|
              (depthFrom_enter_lt (mem_objectIds_of_mem_children hx)
                (mem_objectIds_of_mem_children hy) hg x).trans_le hn
          refine (Decides.run_enter hg hinside).congr
            ⟨fun h => Assuming.of_alike (a := .object o) (b := .object p) ?_ h, fun h => ?_⟩
          · exact fun x y hk => (assumed_enter_iff hname).1 hk
          · exact h.alike_enter hne (fun ha => hg ha.1)
              fun x y hk => (assumed_enter_iff hname).2 (.inl hk)
    | typeSet c =>
      cases b with
      | object => simp [labelsAgree] at hl
      | typeSet d =>
        have hinside : Decides
            (s.contentsEqualWith (s.nodesEqualWithin below n) (.typeSet c) (.typeSet d)) g _ :=
          decides_typeSets hl fun x hx y => ih (b := y) <| Nat.le_of_lt_succ <| by
            have := rank_lt_of_mem_children hs hx
            simp only [depthFrom] at hn ⊢
            omega
        refine hinside.congr
          ⟨fun h => Assuming.of_alike (a := .typeSet c) (b := .typeSet d) (fun _ _ => .inl) h,
            fun h => h.alike_enter hne id fun _ _ => id⟩

theorem decides_nodesEqual (hs : s.WellFormed) (g : Guard ObjectId) (a b : Node) :
    Decides (s.nodesEqual a b) g (s.Assuming (s.assumed g) a b) :=
  decides_nodesEqualWithin hs _ (s.depthFrom_le g a)

theorem Equal.lift (h : s.Equal t u) : t.Lift (fun a b => s.Equal a.ty b.ty) u := by
  induction t generalizing u with
  | basic b =>
    obtain rfl := h.eq_basic
    rfl
  | former f t m ih =>
    obtain ⟨v, n, rfl, hv⟩ := h.exists_former
    exact ⟨rfl, ih hv⟩
  | object o =>
    obtain ⟨p, rfl⟩ := h.exists_object
    exact h
  | typeSet c =>
    obtain ⟨d, rfl⟩ := h.exists_typeSet
    exact h

theorem Node.ty_injective {a b : Node} (h : a.ty = b.ty) : a = b := by
  cases a <;> cases b <;> simp_all [Node.ty]

/-- Without assumptions the nodes that types refer to are related exactly if the types are equal. -/
theorem lift_assuming_iff (hH : ∀ x y, ¬H x y) : t.Lift (s.Assuming H) u ↔ s.Equal t u := by
  constructor
  · intro h
    refine ⟨Ty.Lift (s.Assuming H), ?_, h⟩
    intro t u h
    cases t <;> cases u <;> simp only [Ty.Lift] at h
    · exact .inl (congrArg _ h)
    · obtain ⟨rfl, h⟩ := h
      exact .inr (.former h)
    all_goals
      rcases h.cases with he | hh | ha
      · exact .inl (congrArg Node.ty he)
      · exact absurd hh (hH _ _)
      · exact .inr ha
  · intro h
    refine h.lift.mono fun a b hab => ⟨fun x y => s.Equal x.ty y.ty, hab, ?_⟩
    intro x y hxy
    rcases s.equal_bisimulation _ _ hxy with he | ha
    · exact .inl (Node.ty_injective he)
    · exact .inr (.inr (ha.mono fun _ _ => Equal.lift))

theorem not_assumed_empty (s : Store) (x y : Node) : ¬s.assumed {} x y := by
  cases x <;> cases y <;> simp [assumed]

theorem decides_objectsEqual (hs : s.WellFormed) (o p : ObjectId) :
    Decides (s.nodesEqual (.object o) (.object p)) {} (s.Equal (.object o) (.object p)) :=
  (decides_nodesEqual hs {} _ _).congr
    (lift_assuming_iff (t := .object o) (u := .object p) s.not_assumed_empty)

theorem decides_typeSetsEqual (hs : s.WellFormed) (c d : SetId) :
    Decides (s.nodesEqual (.typeSet c) (.typeSet d)) {} (s.Equal (.typeSet c) (.typeSet d)) :=
  (decides_nodesEqual hs {} _ _).congr
    (lift_assuming_iff (t := .typeSet c) (u := .typeSet d) s.not_assumed_empty)

theorem decides_equalsWith_empty (hs : s.WellFormed) (t u : Ty) :
    Decides (s.equalsWith t u) {} (s.Equal t u) :=
  (Ty.decides_equalsWith fun a _ b _ => decides_nodesEqual hs {} a b).congr
    (lift_assuming_iff s.not_assumed_empty)

theorem equals_iff (hs : s.WellFormed) : s.equals t u = true ↔ s.Equal t u :=
  (decides_equalsWith_empty hs t u).answer

/-- Equality ends, whatever is asked `below` the depth it can reach, and it holds exactly of types
that some bisimulation relates. So it is an equivalence, also on types that refer back to
themselves. -/
theorem equals_iff_bisimilar (hb : s.Built) :
    (∀ below t u, t.equalsWith (s.nodesEqualWithin below s.depthBound) u = s.equalsWith t u) ∧
    (∀ t u, s.equals t u = true ↔ ∃ R, s.Bisimulation R ∧ R t u) ∧
    (∀ t, s.equals t t = true) ∧
    (∀ t u, s.equals t u = true → s.equals u t = true) ∧
    (∀ t u v, s.equals t u = true → s.equals u v = true → s.equals t v = true) := by
  have hs := hb.wellFormed
  simp only [equals_iff hs]
  refine ⟨?_, fun t u => Iff.rfl, Equal.refl s, fun t u => Equal.symm hs,
    fun t u v => Equal.trans⟩
  intro below t u
  funext g
  have hsame := Ty.decides_equalsWith (t := t) (u := u) fun a _ b _ =>
    decides_nodesEqualWithin hs below (g := g) (b := b) (s.depthFrom_le g a)
  exact hsame.unique (Ty.decides_equalsWith fun a _ b _ => decides_nodesEqual hs g a b)

/-- A body with one attribute, whose type may be another object type. -/
def nextBody (P : Type) (n : ℕ) : Body P where
  attributes := { entries := [("next", { type := .former .optional (.object (.declared n)) 1 })] }

/-- Two object types of one name, each of which has an attribute of the type of the other. -/
def linked : Store where
  objects := #[⟨some "Node", some (nextBody _ 1)⟩, ⟨some "Node", some (nextBody _ 0)⟩]

theorem built_linked : linked.Built := by
  have h0 : Built { objects := #[⟨some "Node", none⟩, ⟨some "Node", none⟩] } :=
    (Built.empty.object (some "Node")).object (some "Node")
  have h1 : Built { objects := #[⟨some "Node", some (nextBody _ 1)⟩, ⟨some "Node", none⟩] } :=
    h0.body (o := .declared 0) (b := nextBody _ 1)
      (by simp [nextBody, Body.nodes, Attribute.nodes, Ty.nodes, Knows])
      (by simp [nextBody, Attribute.Distinct]) rfl
  exact h1.body (o := .declared 1) (b := nextBody _ 0)
    (by simp [nextBody, Body.nodes, Attribute.nodes, Ty.nodes, Knows])
    (by simp [nextBody, Attribute.Distinct]) rfl

theorem linked_bisimilar : linked.Built ∧
    ∃ R, linked.Bisimulation R ∧ R (.object (.declared 0)) (.object (.declared 1)) :=
  ⟨built_linked, ((equals_iff_bisimilar built_linked).2.1 _ _).1 (by decide +kernel)⟩

end Store
end TypeLattice
