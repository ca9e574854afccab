import TypeLattice.Object.Construct
import TypeLattice.Proofs.Assignability
import TypeLattice.Proofs.Runs

/-!
# What an object has

The table of all attributes holds, for each name, the attribute of the nearest type in the line that
declares the name. An object made from arguments has a value for each entry, an instance of the type
of the entry. For an ancestor these are its own entries, but for those that a nearer type declares
again.
-/
namespace TypeLattice

open Runs

variable {α β : Type}

theorem find?_eq_none {k : String} {es : List (String × α)} (h : k ∉ es.map (·.1)) :
    find? k es = none := by
  induction es with
  | nil => rfl
  | cons e es ih =>
    simp only [List.map_cons, List.mem_cons, not_or] at h
    rw [find?, if_neg (Ne.symm h.1), ih h.2]

/-- Of the entries that are added those count, and where there is none what was there before. -/
theorem Table.get?_foldl_insert {es : List (String × α)} (hn : (es.map (·.1)).Nodup) (t : Table α)
    (k : String) :
    (es.foldl (fun t e => t.insert e.1 e.2) t).get? k = (find? k es).or (t.get? k) := by
  induction es generalizing t with
  | nil => rfl
  | cons e es ih =>
    obtain ⟨hnot, hn⟩ := List.nodup_cons.1 hn
    rw [List.foldl_cons, ih hn, Table.get?_insert, find?]
    by_cases hk : e.1 = k
    · rw [if_pos hk, if_pos hk, find?_eq_none (hk ▸ hnot), Option.none_or, Option.some_or]
    · rw [if_neg hk, if_neg hk]

theorem exists_find?_of_forall₂ {P : α → β → Prop} {es : List (String × α)}
    {fs : List (String × β)} (h : List.Forall₂ (fun e f => e.1 = f.1 ∧ P e.2 f.2) es fs)
    {k : String} {a : α} (ha : find? k es = some a) : ∃ x, find? k fs = some x ∧ P a x := by
  induction h with
  | nil => cases ha
  | @cons e f es fs hef _ ih =>
    by_cases hk : e.1 = k
    · rw [find?, if_pos hk] at ha
      obtain rfl := Option.some.inj ha
      exact ⟨f.2, if_pos (hef.1.symm.trans hk), hef.2⟩
    · rw [find?, if_neg hk] at ha
      obtain ⟨x, hx, hP⟩ := ih ha
      exact ⟨x, by rw [find?, if_neg (hef.1 ▸ hk), hx], hP⟩

namespace Store

variable {s s' : Store} {o p c : ObjectId} {k : String} {a b : Attribute} {args : List Value}
  {fields : List (String × Value)} {v : Value}

/-- The table has the attribute of the nearest type in the line that declares the name. -/
theorem get?_allAttributes (s : Store) (o : ObjectId) (k : String) :
    (s.allAttributes o).get? k = s.attribute? o k := by
  have key : ∀ l : List ObjectId,
      (l.reverse.foldl (fun (all : Table Attribute) p =>
        (s.ownAttributes p).entries.foldl (fun all e => all.insert e.1 e.2) all) .empty).get? k =
        l.findSome? fun p => (s.ownAttributes p).get? k := by
    intro l
    induction l with
    | nil => rfl
    | cons p l ih =>
      rw [List.reverse_cons, List.foldl_append, List.foldl_cons, List.foldl_nil,
        Table.get?_foldl_insert (s.ownAttributes p).nodup, ih, List.findSome?_cons]
      cases hp : find? k (s.ownAttributes p).entries with
      | none => simp [Table.get?, hp]
      | some a => simp [Table.get?, hp]
  exact key (s.line o)

/-- An attribute of an ancestor is the attribute of that name, unless a nearer type declares the
name. -/
theorem attribute?_of_mem_line (hs : s.WellFormed) (hp : p ∈ s.line c)
    (ha : s.attribute? p k = some a) :
    ∃ b, s.attribute? c k = some b ∧
      (b = a ∨ ∃ q ∈ s.line c, q ∉ s.line p ∧ (s.ownAttributes q).get? k = some b) := by
  obtain ⟨l, hl⟩ := line_suffix hs hp
  have hnodup : (l ++ s.line p).Nodup := hl ▸ (hs.rooted.line c).nodup
  have hsplit : s.attribute? c k =
      (l.findSome? fun q => (s.ownAttributes q).get? k).or (s.attribute? p k) := by
    rw [attribute?, ← hl, List.findSome?_append, attribute?]
  cases hnear : l.findSome? fun q => (s.ownAttributes q).get? k with
  | none =>
    rw [hnear, Option.none_or, ha] at hsplit
    exact ⟨a, hsplit, .inl rfl⟩
  | some b =>
    rw [hnear, Option.some_or] at hsplit
    obtain ⟨q, hq, hb⟩ := List.exists_of_findSome?_eq_some hnear
    refine ⟨b, hsplit, .inr ⟨q, ?_, ?_, hb⟩⟩
    · exact hl ▸ List.mem_append_left _ hq
    · exact (List.nodup_append'.1 hnodup).2.2 hq

theorem forall₂_of_fillFrom {function : String} {index : ℕ} {as : List (String × Attribute)}
    (h : s.fillFrom function index as args = .ok fields) :
    List.Forall₂ (fun e f => e.1 = f.1 ∧ s.isInstance e.2.type f.2 = true) as fields := by
  induction as generalizing index args fields with
  | nil =>
    cases h
    exact .nil
  | cons e as ih =>
    obtain ⟨k, a⟩ := e
    by_cases hv : s.isInstance a.type (argumentOr args.head? a) = true
    · cases hrest : s.fillFrom function (index + 1) as args.tail with
      | error e => simp [fillFrom, hv, hrest, bind, Except.bind] at h
      | ok rest =>
        simp only [fillFrom, hv, if_true, hrest, bind, Except.bind, pure, Except.pure] at h
        cases h
        exact .cons ⟨rfl, hv⟩ (ih hrest)
    · simp [fillFrom, hv, throw, throwThe, MonadExceptOf.throw] at h

theorem forall₂_of_fill (h : s.fill o args = .ok fields) :
    List.Forall₂ (fun e f => e.1 = f.1 ∧ s.isInstance e.2.type f.2 = true)
      (s.allAttributes o).entries fields := by
  unfold fill at h
  dsimp only at h
  split at h
  · cases h
  · exact forall₂_of_fillFrom h

/-- A failure leaves everything as it was, and a new object takes a mark. -/
theorem create_eq (hc : s.constructor? c = none) (args : List Value) :
    Making.create c args s = match s.fill c args with
      | .ok fields => .ok (.object s.nextMark c fields) s.freshMark.2
      | .error e => .error (.type e) s := by
  unfold Making.create
  rw [bind_of_ok get_eq, hc]
  dsimp only
  rw [bind_of_ok get_eq]
  cases s.fill c args <;> rfl

theorem of_create (hc : s.constructor? c = none) (h : Making.create c args s = .ok v s') :
    ∃ fields, s.fill c args = .ok fields ∧ v = .object s.nextMark c fields ∧
      s' = s.freshMark.2 := by
  rw [create_eq hc] at h
  cases hfill : s.fill c args with
  | error e =>
    rw [hfill] at h
    cases h
  | ok fields =>
    rw [hfill] at h
    cases h
    exact ⟨fields, rfl, rfl, rfl⟩

theorem isInstance_object_of_mem_line (hs : s.WellFormed) (hp : p ∈ s.line c) (n : ℕ)
    (fields : List (String × Value)) :
    s.isInstance (.object p) (.object n c fields) = true :=
  (accepts_object_iff hs (o := p)).2 ⟨c, rfl, .inr ⟨p, hp, .refl s _⟩⟩

/-- An object belongs to its type and the ancestors of it, and it has a value for each attribute of
each of them. The value is an instance of the type that the attribute of that name has in the type
of the object. This is the attribute of the ancestor, unless the name is declared again between the
two. -/
theorem attributes_of_create (hb : s.Built) (hc : s.constructor? c = none)
    (h : Making.create c args s = .ok v s') (hp : p ∈ s.line c) :
    s.isInstance (.object p) v = true ∧ ∃ n fields, v = .object n c fields ∧
      ∀ k a, (s.allAttributes p).get? k = some a →
        ∃ x b, find? k fields = some x ∧ s.attribute? c k = some b ∧
          s.isInstance b.type x = true ∧
          (b = a ∨ ∃ q ∈ s.line c, q ∉ s.line p ∧ (s.ownAttributes q).get? k = some b) := by
  obtain ⟨fields, hfill, rfl, -⟩ := of_create hc h
  refine ⟨isInstance_object_of_mem_line hb.wellFormed hp _ _, _, fields, rfl, fun k a ha => ?_⟩
  rw [get?_allAttributes] at ha
  obtain ⟨b, hb', hnear⟩ := attribute?_of_mem_line hb.wellFormed hp ha
  have hentry : find? k (s.allAttributes c).entries = some b :=
    (get?_allAttributes s c k).trans hb'
  obtain ⟨x, hx, hi⟩ := exists_find?_of_forall₂ (P := fun a x => s.isInstance a.type x = true)
    (forall₂_of_fill hfill) hentry
  exact ⟨x, b, hx, hb', hi, hnear⟩

def baseAttributes : Table Attribute where
  entries := [("size", { type := .basic .integer }), ("note", { type := .basic .any })]

def derivedAttributes : Table Attribute where
  entries := [("size", { type := .basic .string }), ("flag", { type := .basic .boolean })]

/-- `Derived` makes a string of the integer that `Base` declares. -/
def overriding : Store where
  objects := #[⟨some "Base", some { attributes := baseAttributes }⟩,
    ⟨some "Derived", some { parent := some (.declared 0), attributes := derivedAttributes }⟩]

theorem built_overriding : overriding.Built := by
  have h0 : Built { objects := #[⟨some "Base", none⟩, ⟨some "Derived", none⟩] } :=
    (Built.empty.object (some "Base")).object (some "Derived")
  have h1 : Built { objects := #[⟨some "Base", some { attributes := baseAttributes }⟩,
      ⟨some "Derived", none⟩] } :=
    h0.body (o := .declared 0) (b := { attributes := baseAttributes })
      (by simp [Body.nodes, baseAttributes, Attribute.nodes, Ty.nodes])
      (by simp [baseAttributes, Attribute.Distinct]) rfl
  exact h1.body (o := .declared 1)
    (b := { parent := some (.object (.declared 0)), attributes := derivedAttributes })
    (by simp [Body.nodes, derivedAttributes, Attribute.nodes, Ty.nodes, Knows])
    (by simp [derivedAttributes, Attribute.Distinct]) rfl

theorem create_overriding : Making.create (.declared 1)
    [.string "large", .undef, .bool true] overriding =
      .ok (.object 1 (.declared 1)
        [("size", .string "large"), ("note", .undef), ("flag", .bool true)])
      overriding.freshMark.2 := by
  rfl

theorem overriding_attributes_of_create :
    overriding.Built ∧ overriding.constructor? (.declared 1) = none ∧
      .declared 0 ∈ overriding.line (.declared 1) ∧
      ∃ v s', Making.create (.declared 1) [.string "large", .undef, .bool true] overriding =
        .ok v s' ∧ overriding.isInstance (.object (.declared 0)) v = true := by
  have hline : .declared 0 ∈ overriding.line (.declared 1) := by decide +kernel
  exact ⟨built_overriding, rfl, hline, _, _, create_overriding,
    (attributes_of_create built_overriding rfl create_overriding hline).1⟩

/-- An object of `Derived` is one of `Base`, but its size is no integer. -/
theorem overriding_size_mistyped :
    overriding.Built ∧ overriding.constructor? (.declared 1) = none ∧
      .declared 0 ∈ overriding.line (.declared 1) ∧
      (overriding.allAttributes (.declared 0)).get? "size" =
        some { type := .basic .integer } ∧
      ∃ fields, Making.create (.declared 1) [.string "large", .undef, .bool true] overriding =
        .ok (.object 1 (.declared 1) fields) overriding.freshMark.2 ∧
        find? "size" fields = some (.string "large") ∧
        overriding.isInstance (.basic .integer) (.string "large") = false :=
  ⟨built_overriding, rfl, by decide +kernel, by decide +kernel, _, create_overriding, rfl, rfl⟩

end Store
end TypeLattice
