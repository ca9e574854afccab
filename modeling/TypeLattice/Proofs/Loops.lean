import TypeLattice.Proofs.Parsing

/-!
# Loops of the readers end

A list is read item by item, and types and arrays are read by going down into them. Each turn takes
a token away before the next one begins, and the last token is never taken. So after as many turns
as there are tokens it does not matter what would come next: the loop without a bound has ended, and
its result is the one of the bounded readers.
-/
namespace TypeLattice.Reading

variable {α β : Type} {k n : ℕ} {ts us : List Token} {l : Lexeme} {ls : List Lexeme}
  {m m' : Reading α} {f f' : α → Reading β} {R : List Lexeme → α → Prop} {D : List Lexeme → TypeExpr → Prop}
  {type type' : Reading TypeExpr} {close : Symbol} {context : String}

/-- Among the tokens is the end of the text or a fault. -/
def Closed (ts : List Token) : Prop := ∃ t ∈ ts, ¬t.lexeme.Inner

theorem closed_scan (cs : List Char) : Closed (Token.scan cs) := by
  obtain ⟨l, hl, hnot⟩ := exists_not_inner cs
  obtain ⟨t, ht, rfl⟩ := List.mem_map.1 hl
  exact ⟨t, ht, hnot⟩

theorem Closed.length_pos (h : Closed ts) : 0 < ts.length := by
  obtain ⟨t, ht, -⟩ := h
  exact List.length_pos_of_mem ht

namespace Consumes

theorem length_eq (h : Consumes ts ls us) : ts.length = ls.length + us.length := by
  simpa using congrArg List.length h.append

/-- The last token is left. -/
theorem closed (h : Consumes ts ls us) (hts : Closed ts) : Closed us := by
  obtain ⟨t, ht, hnot⟩ := hts
  have hmem : t.lexeme ∈ ls ++ us.map (·.lexeme) := h.append ▸ List.mem_map_of_mem ht
  rcases List.mem_append.1 hmem with hls | hus
  · exact absurd (h.inner _ hls) hnot
  · obtain ⟨u, hu, heq⟩ := List.mem_map.1 hus
    exact ⟨u, hu, heq ▸ hnot⟩

end Consumes

/-- What is read is at least one token. -/
def Progresses (R : List Lexeme → α → Prop) : Prop := ∀ ls a, R ls a → ls ≠ []

theorem takes_separator (close : Symbol) (context : String) :
    Takes (separator close context) fun _ _ => True := by
  refine fun l => .bind_peek ?_
  split_ifs with hcomma hclose
  · subst l
    exact .advance (inner_symbol _) trivial
  · exact .pure trivial
  · exact .fail _

/-- In front of the lexeme `l`, on so many tokens with the last one among them, the readers do the
same. -/
def AgreeAt (l : Lexeme) (k : ℕ) (m m' : Reading α) : Prop :=
  ∀ ts, Closed ts → ts.length ≤ k → first ts = l → m.run ts = m'.run ts

def Agree (k : ℕ) (m m' : Reading α) : Prop := ∀ l, AgreeAt l k m m'

/-- Nothing is left of no tokens, so there is nothing to read. -/
theorem agree_zero (m m' : Reading α) : Agree 0 m m' :=
  fun _ _ hts hlen _ => absurd hts.length_pos (by omega)

theorem Agree.mono (h : Agree n m m') (hk : k ≤ n) : Agree k m m' :=
  fun l ts hts hlen => h l ts hts (hlen.trans hk)

namespace AgreeAt

protected theorem refl (l : Lexeme) (k : ℕ) (m : Reading α) : AgreeAt l k m m :=
  fun _ _ _ _ => rfl

protected theorem bind (h : AgreeAt l k m m') (htakes : TakesAt l m' R)
    (hf : ∀ a, Agree k (f a) (f' a)) : AgreeAt l k (m >>= f) (m' >>= f') := by
  intro ts hts hlen hl
  rw [StateT.run_bind, StateT.run_bind, h ts hts hlen hl]
  cases hrun : m'.run ts with
  | error => rfl
  | ok p =>
    obtain ⟨ls, hls, -⟩ := htakes ts p.1 p.2 hl hrun
    have hlength := hls.length_eq
    exact hf p.1 _ p.2 (hls.closed hts) (by omega) rfl

theorem bind_same (h : AgreeAt l k m m') (f : α → Reading β) :
    AgreeAt l k (m >>= f) (m' >>= f) := by
  intro ts hts hlen hl
  rw [StateT.run_bind, StateT.run_bind, h ts hts hlen hl]

/-- What comes after a reader that takes a token has one token less. -/
theorem bind_progress (h : AgreeAt l k m m') (htakes : TakesAt l m' R) (hR : Progresses R)
    (hf : ∀ a, Agree (k - 1) (f a) (f' a)) : AgreeAt l k (m >>= f) (m' >>= f') := by
  intro ts hts hlen hl
  rw [StateT.run_bind, StateT.run_bind, h ts hts hlen hl]
  cases hrun : m'.run ts with
  | error => rfl
  | ok p =>
    obtain ⟨ls, hls, hr⟩ := htakes ts p.1 p.2 hl hrun
    have hlength := hls.length_eq
    have hpos := List.length_pos_iff.2 (hR _ _ hr)
    exact hf p.1 _ p.2 (hls.closed hts) (by omega) rfl

theorem get {f f' : List Token → Reading β} (h : ∀ ts, AgreeAt l k (f ts) (f' ts)) :
    AgreeAt l k (get >>= f) (get >>= f') :=
  fun ts => h ts ts

theorem bind_peek {f f' : Lexeme → Reading β} (h : AgreeAt l k (f l) (f' l)) :
    AgreeAt l k (peek >>= f) (peek >>= f') := by
  intro ts hts hlen hl
  rw [StateT.run_bind, StateT.run_bind, run_peek, hl]
  exact h ts hts hlen hl

theorem bind_advance {f f' : Unit → Reading β} (hl : l.Inner)
    (h : Agree (k - 1) (f ()) (f' ())) : AgreeAt l k (advance >>= f) (advance >>= f') :=
  (AgreeAt.refl l k advance).bind_progress (R := fun ls _ => ls = [l]) (.advance hl rfl)
    (by rintro _ _ rfl; simp) fun _ => h

end AgreeAt

theorem progresses_literalRule : Progresses LiteralRule := by
  intro ls v h
  obtain ⟨l, ms, rfl, -⟩ := h.ne_close
  simp

theorem progresses_attributeEntryRule (D : List Lexeme → TypeExpr → Prop) :
    Progresses (AttributeEntryRule D) := by
  rintro _ _ (_ | _) <;> simp [entry]

theorem progresses_namedAttributeRule (D : List Lexeme → TypeExpr → Prop) :
    Progresses (NamedAttributeRule D) := by
  rintro _ _ ⟨⟩
  simp [entry]

theorem progresses_objectEntryRule (D : List Lexeme → TypeExpr → Prop) :
    Progresses (ObjectEntryRule D) := by
  rintro _ _ (_ | _ | _) <;> simp [entry]

theorem progresses_derives : Progresses Derives := by
  rintro _ _ (_ | _ | _) <;> simp

section Items

variable {item item' : Reading α}

theorem agree_itemsTurn {rest rest' : Reading (List α)} (h : Agree k item item')
    (htakes : Takes item' R) (hR : Progresses R) (hrest : Agree (k - 1) rest rest') :
    Agree k (itemsTurn close context item rest) (itemsTurn close context item' rest') := by
  refine fun l => .bind_peek ?_
  split
  · exact .refl _ _ _
  · refine (h l).bind_progress (htakes l) hR fun a l => ?_
    refine (AgreeAt.refl l _ _).bind (takes_separator _ _ l) fun _ l => ?_
    exact (hrest l).bind_same _

theorem agree_itemsWithin (h : Agree k item item') (htakes : Takes item' R) (hR : Progresses R)
    (n : ℕ) : Agree k (itemsWithin close context item n) (itemsWithin close context item' n) := by
  induction n with
  | zero => exact fun _ => .refl _ _ _
  | succ n ih => exact agree_itemsTurn h htakes hR (ih.mono (Nat.sub_le k 1))

theorem agree_items (h : Agree k item item') (htakes : Takes item' R) (hR : Progresses R) :
    Agree k (items close context item) (items close context item') :=
  fun l => .get fun ts => agree_itemsWithin h htakes hR ts.length l

end Items

theorem agree_valueTurn {element element' : Reading (DefaultExpr TypeExpr)}
    (h : Agree k type type') (helement : Agree (k - 1) element element')
    (htakes : Takes element' (ValueRule D)) :
    Agree k (valueTurn type element) (valueTurn type' element') := by
  refine fun l => .bind_peek ?_
  split
  · split_ifs
    · exact .refl _ _ _
    · exact .refl _ _ _
    · exact .refl _ _ _
    · exact (h _).bind_same _
  · exact .refl _ _ _
  · exact .refl _ _ _
  · refine .bind_advance (inner_symbol _) fun l => ?_
    have hitem : Agree (k - 1) (do literalOnly (← element)) (do literalOnly (← element')) :=
      fun l => (helement l).bind_same _
    exact (agree_items hitem (takes_element htakes) progresses_literalRule l).bind_same _
  · exact .refl _ _ _

theorem agree_valueWithin (h : Agree k type type') (htakes : Takes type' D) (n : ℕ) :
    Agree k (valueWithin type n) (valueWithin type' n) := by
  induction n with
  | zero => exact fun _ => .refl _ _ _
  | succ n ih => exact agree_valueTurn h (ih.mono (Nat.sub_le k 1)) (takes_valueWithin htakes n)

theorem agree_attributeEntry (h : Agree k type type') (htakes : Takes type' D) :
    Agree k (attributeEntry type) (attributeEntry type') := by
  refine fun l => .get fun start => (AgreeAt.refl l k key).bind (takes_key l) fun name l => ?_
  split_ifs
  · exact (h l).bind_same _
  · have hvalue : AgreeAt l k (value type) (value type') :=
      .get fun ts => agree_valueWithin h htakes ts.length l
    exact hvalue.bind_same _
  · exact .refl _ _ _

theorem agree_attributeOf (h : Agree k type type') (htakes : Takes type' D) :
    Agree k (attributeOf type) (attributeOf type') := by
  have hdecl : Agree k (attributeDecl type) (attributeDecl type') := by
    refine fun l => .bind_peek ?_
    split
    · subst l
      refine .bind_advance (inner_symbol _) fun l => ?_
      have hentry := (agree_attributeEntry h htakes).mono (Nat.sub_le k 1)
      exact (agree_items hentry (takes_attributeEntry htakes)
        (progresses_attributeEntryRule D) l).bind_same _
    · exact (h l).bind_same _
  exact fun l => (AgreeAt.refl l k key).bind (takes_key l) fun name l => (hdecl l).bind_same _

theorem agree_objectEntry (h : Agree k type type') (htakes : Takes type' D) :
    Agree k (objectEntry type) (objectEntry type') := by
  refine fun l => .get fun start => (AgreeAt.refl l k key).bind (takes_key l) fun name l => ?_
  split_ifs
  · exact .refl _ _ _
  · exact (h l).bind_same _
  · refine (AgreeAt.refl l k _).bind (takes_expect _ _ l) fun _ l => ?_
    exact (agree_items (agree_attributeOf h htakes) (takes_attributeOf htakes)
      (progresses_namedAttributeRule D) l).bind_same _
  · exact .refl _ _ _

theorem agree_objectDecl (h : Agree k type type') (htakes : Takes type' D) :
    Agree k (objectDecl type) (objectDecl type') := by
  refine fun l => (AgreeAt.refl l k _).bind (takes_expect _ _ l) fun _ l => ?_
  exact (agree_items (agree_objectEntry h htakes) (takes_objectEntry htakes)
    (progresses_objectEntryRule D) l).bind_same _

theorem agree_typeTurn (h : Agree (k - 1) type type') (htakes : Takes type' D)
    (hD : Progresses D) : Agree k (typeTurn type) (typeTurn type') := by
  refine fun l => .bind_peek ?_
  split
  · refine .bind_advance (inner_name _) fun l => .bind_peek ?_
    split_ifs with hbracket
    · subst l
      refine .bind_advance (inner_symbol _) fun l => .bind_peek ?_
      have h : Agree (k - 1 - 1) type type' := h.mono (Nat.sub_le _ 1)
      split_ifs
      · exact (agree_objectDecl h htakes l).bind_same _
      · exact (agree_items h htakes hD l).bind_same _
    · exact .refl _ _ _
  · exact .refl _ _ _

/-- The reader is what the loop without a bound does. It is not changed by a turn before it, and
after as many turns as there are tokens the loop has come to its result, whatever would be next. -/
structure Terminates (turn : Reading α → Reading α) (m : Reading α) : Prop where
  turn_eq : ∀ ts, Closed ts → (turn m).run ts = m.run ts
  ends : ∀ below ts, Closed ts → (turn^[ts.length] below).run ts = m.run ts

/-- A bounded loop ends if one more turn reads one more token. -/
theorem terminates_of {turn : Reading α → Reading α} (within : ℕ → Reading α)
    (hm : ∀ ts, m.run ts = (within ts.length).run ts)
    (hturn : ∀ n r, Agree n r (within n) → Agree (n + 1) (turn r) (within (n + 1))) :
    Terminates turn m := by
  have hagree : ∀ n below, Agree n (turn^[n] below) (within n) := by
    intro n below
    induction n with
    | zero => exact agree_zero _ _
    | succ n ih =>
      rw [Function.iterate_succ_apply']
      exact hturn n _ ih
  -- a greater bound is as good, since what is below it does not matter
  have hbound : ∀ n, Agree n m (within n) := by
    intro n l ts hts hlen hl
    rw [hm, ← hagree n m l ts hts hlen hl, ← Nat.add_sub_cancel' hlen, Function.iterate_add_apply,
      hagree ts.length _ l ts hts le_rfl hl]
  constructor
  · intro ts hts
    rw [hturn ts.length m (hbound _) _ ts hts (Nat.le_succ _) rfl,
      hbound (ts.length + 1) _ ts hts (Nat.le_succ _) rfl]
  · intro below ts hts
    rw [hm, hagree ts.length below _ ts hts le_rfl rfl]

theorem terminates_items {item : Reading α} (close : Symbol) (context : String)
    (htakes : Takes item R) (hR : Progresses R) :
    Terminates (itemsTurn close context item) (items close context item) :=
  terminates_of (itemsWithin close context item) (fun _ => rfl)
    fun _ _ h => agree_itemsTurn (fun _ => .refl _ _ _) htakes hR h

theorem terminates_value (htakes : Takes type D) : Terminates (valueTurn type) (value type) :=
  terminates_of (valueWithin type) (fun _ => rfl)
    fun n _ h => agree_valueTurn (fun _ => .refl _ _ _) h (takes_valueWithin htakes n)

/-- A type, however deep the types in it are. -/
def typeExpr : Reading TypeExpr := do typeWithin (← get).length

/-- A whole text is a type and the end. -/
theorem whole_eq :
    whole = (do
      let e ← typeExpr
      if (← peek) = .stop then return e else fail .trailingInput) := rfl

theorem takes_typeExpr : Takes typeExpr Derives :=
  fun _ => .get fun ts => takes_typeWithin ts.length _

theorem readsType_typeExpr {e : TypeExpr} (h : Derives ls e) : ReadsType typeExpr ls e := by
  refine ⟨(h.reads le_rfl).begins, fun l rest hl => Reads.get fun ts hts => ?_⟩
  have hle : ls.length ≤ ts.length := by
    rw [hts, List.length_append]
    omega
  exact (h.reads hle).reads l rest hl

theorem terminates_typeExpr : Terminates typeTurn typeExpr :=
  terminates_of typeWithin (fun _ => rfl)
    fun n _ h => agree_typeTurn h (takes_typeWithin n) progresses_derives

/-- The loops and recursions in the reading of a type: one turn, and what they read in the end. -/
inductive Loop : {α : Type} → (Reading α → Reading α) → Reading α → Prop
  | type : Loop typeTurn typeExpr
  | parameters : Loop (itemsTurn .closeBracket "in type parameters" typeExpr)
      (items .closeBracket "in type parameters" typeExpr)
  | objectEntries : Loop (itemsTurn .closeBrace "in object type hash" (objectEntry typeExpr))
      (items .closeBrace "in object type hash" (objectEntry typeExpr))
  | attributes : Loop (itemsTurn .closeBrace "in attributes hash" (attributeOf typeExpr))
      (items .closeBrace "in attributes hash" (attributeOf typeExpr))
  | attributeEntries : Loop (itemsTurn .closeBrace "in attribute hash" (attributeEntry typeExpr))
      (items .closeBrace "in attribute hash" (attributeEntry typeExpr))
  | value : Loop (valueTurn typeExpr) (value typeExpr)
  | elements : Loop (itemsTurn .closeBracket "in array" (do literalOnly (← value typeExpr)))
      (items .closeBracket "in array" (do literalOnly (← value typeExpr)))

theorem Loop.terminates {turn : Reading α → Reading α} (h : Loop turn m) : Terminates turn m := by
  have htype := takes_typeExpr
  cases h with
  | type => exact terminates_typeExpr
  | parameters => exact terminates_items _ _ htype progresses_derives
  | objectEntries =>
    exact terminates_items _ _ (takes_objectEntry htype) (progresses_objectEntryRule Derives)
  | attributes =>
    exact terminates_items _ _ (takes_attributeOf htype) (progresses_namedAttributeRule Derives)
  | attributeEntries =>
    exact terminates_items _ _ (takes_attributeEntry htype) (progresses_attributeEntryRule Derives)
  | value => exact terminates_value htype
  | elements =>
    exact terminates_items _ _ (takes_element (takes_value htype)) progresses_literalRule

end TypeLattice.Reading
