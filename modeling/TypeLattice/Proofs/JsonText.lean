import TypeLattice.Json.Value
import TypeLattice.Relation.Equality
import TypeLattice.Proofs.Numerals

/-!
# JSON texts are read back

Each reader of JSON is described by the text before it and the text it leaves. What is written for
a string, an integer or an array of such is read as that value, at any depth of lines and with
anything after it that cannot continue a number.
-/
namespace TypeLattice

open FloatLayout (signChars)

namespace JsonReader

variable {α β : Type} {m : JsonReader α} {f : α → JsonReader β} {a : α} {b : β} {c : Char}
  {cs ds es : List Char}

/-- In front of the text `cs` the reader returns `a` and leaves `ds`. -/
def Reads (m : JsonReader α) (cs : List Char) (a : α) (ds : List Char) : Prop :=
  m.run cs = .ok (a, ds)

namespace Reads

protected theorem pure (a : α) (cs : List Char) : Reads (pure a) cs a cs := rfl

protected theorem bind (h : Reads m cs a ds) (hf : Reads (f a) ds b es) :
    Reads (m >>= f) cs b es := by
  rw [Reads, StateT.run_bind, h]
  exact hf

theorem get {f : List Char → JsonReader β} (h : Reads (f cs) cs b ds) :
    Reads (get >>= f) cs b ds := h

theorem set {f : PUnit → JsonReader β} (h : Reads (f ⟨⟩) ds b es) :
    Reads (set ds >>= f) cs b es := h

theorem drop (c : Char) (cs : List Char) : Reads drop (c :: cs) () cs := rfl

/-- Spaces before the next character are passed. -/
theorem peek (hs : es.all isSpace = true) (hc : isSpace c = false) (cs : List Char) :
    Reads peek (es ++ c :: cs) (some c) (c :: cs) := by
  have hdrop : (es ++ c :: cs).dropWhile isSpace = c :: cs := by
    rw [List.dropWhile_append_of_pos (List.all_eq_true.1 hs),
      List.dropWhile_cons_of_neg (by simp [hc])]
  refine get (set ?_)
  rw [hdrop]
  exact .pure _ _

theorem peek_cons (hc : isSpace c = false) (cs : List Char) :
    Reads JsonReader.peek (c :: cs) (some c) (c :: cs) :=
  peek (List.all_nil : [].all isSpace = true) hc cs

theorem word (es cs : List Char) : Reads (word es) (es ++ cs) () cs := by
  induction es with
  | nil => exact .pure _ _
  | cons e es ih =>
    refine get ?_
    simp only [List.cons_append, if_true]
    exact set ih

theorem keyword (c : Char) (es cs : List Char) (a : α) :
    Reads (JsonReader.drop >>= fun _ => JsonReader.word es >>= fun _ => Pure.pure a)
      (c :: (es ++ cs)) a cs :=
  (drop c _).bind ((word es cs).bind (.pure a cs))

end Reads

theorem reads_hexEscape {n : ℕ} (hn : n < 0x20) (cs : List Char) :
    Reads hexEscape ('0' :: '0' :: Json.hexDigit (n / 16) :: Json.hexDigit (n % 16) :: cs) n
      cs := by
  have hdigits : ∀ n < 0x20,
      Text.byteCount ['0', '0', Json.hexDigit (n / 16), Json.hexDigit (n % 16)] = 4 ∧
        hexValues? ['0', '0', Json.hexDigit (n / 16), Json.hexDigit (n % 16)] = some n := by decide
  obtain ⟨hbytes, hvalue⟩ := hdigits n hn
  refine Reads.get ?_
  simp only [List.take_succ_cons, List.take_zero, hbytes, hvalue]
  exact Reads.set (.pure _ _)

theorem reads_unicodeEscape (hc : c.toNat < 0x20) (cs : List Char) :
    Reads unicodeEscape
      ('0' :: '0' :: Json.hexDigit (c.toNat / 16) :: Json.hexDigit (c.toNat % 16) :: cs) c cs := by
  refine (reads_hexEscape hc cs).bind ?_
  rw [if_neg (by omega), if_neg (by omega), Char.ofNat_toNat]
  exact .pure _ _

theorem reads_stringWithin_escape {s bound : List Char} (d : Char) (h : Reads escape es c cs)
    (hrest : Reads (stringWithin bound) cs s ds) :
    Reads (stringWithin (d :: bound)) ('\\' :: es) (c :: s) ds :=
  Reads.get (Reads.set (h.bind (hrest.bind (.pure _ _))))

/-- What is written for a character is read as that character. -/
theorem reads_stringChar {s bound : List Char} (d : Char)
    (hrest : Reads (stringWithin bound) cs s ds) :
    Reads (stringWithin (d :: bound)) (Json.stringChar c ++ cs) (c :: s) ds := by
  unfold Json.stringChar
  split_ifs with hquote hb hf hn hr ht hcontrol
  · obtain rfl | rfl := hquote
    · exact reads_stringWithin_escape d rfl hrest
    · exact reads_stringWithin_escape d rfl hrest
  · subst hb
    exact reads_stringWithin_escape d rfl hrest
  · subst hf
    exact reads_stringWithin_escape d rfl hrest
  · subst hn
    exact reads_stringWithin_escape d rfl hrest
  · subst hr
    exact reads_stringWithin_escape d rfl hrest
  · subst ht
    exact reads_stringWithin_escape d rfl hrest
  · exact reads_stringWithin_escape d (Reads.get (Reads.set (reads_unicodeEscape hcontrol cs)))
      hrest
  · refine Reads.get ?_
    rw [List.singleton_append]
    split
    · contradiction
    · exact absurd (.inl (List.cons.inj ‹_›).1) hquote
    · exact absurd (.inr (List.cons.inj ‹_›).1) hquote
    · next heq =>
      obtain ⟨rfl, rfl⟩ := List.cons.inj heq
      rw [if_neg hcontrol]
      exact Reads.set (hrest.bind (.pure _ _))

theorem reads_stringWithin {s bound : List Char} (hbound : s.length < bound.length)
    (cs : List Char) :
    Reads (stringWithin bound) (s.flatMap Json.stringChar ++ '"' :: cs) s cs := by
  induction s generalizing bound with
  | nil =>
    obtain ⟨d, bound, rfl⟩ := List.exists_cons_of_length_pos hbound
    exact Reads.get (Reads.set (.pure _ _))
  | cons c s ih =>
    obtain ⟨d, bound, rfl⟩ := List.exists_cons_of_length_pos (Nat.zero_lt_of_lt hbound)
    rw [List.flatMap_cons, List.append_assoc]
    exact reads_stringChar d (ih (by simpa using hbound))

theorem length_le_flatMap_stringChar (s : List Char) :
    s.length ≤ (s.flatMap Json.stringChar).length := by
  have hchar : ∀ c, 1 ≤ (Json.stringChar c).length := fun c => by
    unfold Json.stringChar
    split_ifs <;> simp
  induction s with
  | nil => exact Nat.le_refl _
  | cons c s ih =>
    have := hchar c
    rw [List.flatMap_cons, List.length_append, List.length_cons]
    omega

theorem reads_stringRest (s : String) (cs : List Char) :
    Reads stringRest (s.toList.flatMap Json.stringChar ++ '"' :: cs) s cs := by
  have hbound := length_le_flatMap_stringChar s.toList
  refine Reads.get ((reads_stringWithin ?_ cs).bind ?_)
  · rw [List.length_append, List.length_cons]
    omega
  · rw [String.ofList_toList]
    exact .pure _ _

/-- The text cannot continue a number. -/
def EndsNumber (cs : List Char) : Prop :=
  ∀ c ∈ cs.head?, c.isDigit = false ∧ c ≠ '.' ∧ c ≠ 'e' ∧ c ≠ 'E'

theorem endsNumber_nil : EndsNumber [] := fun _ h => by cases h

theorem EndsNumber.noDigit (h : EndsNumber cs) : NoDigit cs := fun c hc => (h c hc).1

theorem takeSignificand_of_lt {ds : List Char} {n : ℕ} (h : Nat.ofDigitChars 10 ds n < 2 ^ 64) :
    takeSignificand n ds = (Nat.ofDigitChars 10 ds n, []) := by
  induction ds generalizing n with
  | nil => rfl
  | cons d ds ih =>
    have hcomm : n * 10 + digitValue d = 10 * n + (d.toNat - '0'.toNat) := by
      rw [Nat.mul_comm]
      rfl
    rw [Nat.ofDigitChars_cons] at h ⊢
    have hone : 1 ≤ 10 ^ ds.length := Nat.one_le_pow _ _ (by decide)
    have hle : 10 * n + (d.toNat - '0'.toNat) ≤
        Nat.ofDigitChars 10 ds (10 * n + (d.toNat - '0'.toNat)) := by
      rw [Nat.ofDigitChars_eq_ofDigitChars_zero]
      exact le_trans (Nat.le_mul_of_pos_left _ hone) (Nat.le_add_right _ _)
    have hfits : 10 * n + (d.toNat - '0'.toNat) < Nat.pow 2 64 := lt_of_le_of_lt hle h
    rw [takeSignificand, hcomm, if_pos hfits, ih h]

theorem head?_toDigits {n : ℕ} (h : 0 < n) : (Nat.toDigits 10 n).head? ≠ some '0' := by
  induction n using Nat.strong_induction_on with
  | _ n ih =>
    by_cases hn : n < 10
    · rw [Nat.toDigits_of_lt_base hn]
      interval_cases n <;> decide
    · rw [Nat.toDigits_of_base_le (by decide) (by omega),
        List.head?_append_of_ne_nil _ Nat.toDigits_ne_nil]
      exact ih (n / 10) (by omega) (by omega)

theorem reads_digits1 {ds : List Char} (hne : ds ≠ []) (hds : ds.all Char.isDigit = true)
    (h : NoDigit cs) : Reads digits1 (ds ++ cs) ds cs := by
  obtain ⟨htake, hdrop⟩ := span_digits hds h
  obtain ⟨d, ds, rfl⟩ := List.exists_cons_of_ne_nil hne
  have hdigits : Reads digits (d :: ds ++ cs) (d :: ds) cs := by
    refine Reads.get ?_
    rw [htake, hdrop]
    exact Reads.set (.pure _ _)
  exact hdigits.bind (.pure _ _)

theorem reads_wholeDigits (n : ℕ) (h : NoDigit cs) :
    Reads wholeDigits (Nat.toDigits 10 n ++ cs) (Nat.toDigits 10 n) cs := by
  refine (reads_digits1 Nat.toDigits_ne_nil (all_isDigit_toDigits n) h).bind ?_
  split
  · next heq =>
    rcases Nat.eq_zero_or_pos n with rfl | hn
    · cases heq
    · exact absurd (by rw [heq]; rfl) (head?_toDigits hn)
  · exact .pure _ _

theorem reads_exponentFrom_none (e : ℤ) (h : EndsNumber cs) :
    Reads (exponentFrom e) cs none cs := by
  refine Reads.get ?_
  cases cs with
  | nil => exact .pure _ _
  | cons c cs =>
    obtain ⟨_, _, hlower, hupper⟩ := h c rfl
    simp only [hlower, hupper, or_self, if_false]
    exact .pure _ _

theorem reads_numberAfter {negative : Bool} {significand : ℕ} {n : JsonNumber}
    (hn : plainNumber? negative significand = some n) (h : EndsNumber cs) :
    Reads (numberAfter negative significand []) cs n cs := by
  refine Reads.get ?_
  split
  · exact absurd rfl (h '.' rfl).2.1
  · refine (reads_exponentFrom_none _ h).bind ?_
    simp only [hn]
    exact .pure _ _

theorem reads_number {n : JsonNumber} (negative : Bool) {significand : ℕ}
    (hlt : significand < 2 ^ 64) (hn : plainNumber? negative significand = some n)
    (h : EndsNumber cs) :
    Reads number (signChars negative ++ Nat.toDigits 10 significand ++ cs) n cs := by
  have hne : Nat.toDigits 10 significand ≠ [] := Nat.toDigits_ne_nil
  obtain ⟨d, ds, hds⟩ := List.exists_cons_of_ne_nil hne
  have hd : d.isDigit = true :=
    Nat.isDigit_of_mem_toDigits (by decide) (by decide) (hds ▸ List.mem_cons_self)
  have hwhole := reads_wholeDigits significand h.noDigit
  have htake : takeSignificand 0 (Nat.toDigits 10 significand) = (significand, []) := by
    have hvalue : Nat.ofDigitChars 10 (Nat.toDigits 10 significand) 0 = significand :=
      Nat.ofDigitChars_ten_toDigits
    rw [takeSignificand_of_lt (by rw [hvalue]; exact hlt), hvalue]
  have hafter : Reads (numberAfter negative (takeSignificand 0 (Nat.toDigits 10 significand)).1
      (takeSignificand 0 (Nat.toDigits 10 significand)).2) cs n cs := by
    rw [htake]
    exact reads_numberAfter hn h
  refine Reads.get ?_
  cases negative with
  | true => exact (Reads.drop '-' _).bind (hwhole.bind hafter)
  | false =>
    have hminus : (Nat.toDigits 10 significand ++ cs).head? ≠ some '-' := by
      rw [hds]
      simpa using ne_of_isDigit hd (by decide)
    have hfirst : (signChars false ++ Nat.toDigits 10 significand ++ cs).head? ≠ some '-' := hminus
    simp only [hfirst, decide_false]
    exact hwhole.bind hafter

theorem plainNumber?_natAbs (i : Int64) :
    plainNumber? (i.toInt < 0) i.toInt.natAbs = some (.integer i.toInt) := by
  have hmin : -2 ^ 63 ≤ i.toInt := i.minValue_le_toInt
  have hfits : i.toInt.natAbs ≤ Nat.pow 2 63 ∨ 0 ≤ i.toInt := by
    have hpow : Nat.pow 2 63 = 2 ^ 63 := rfl
    omega
  unfold plainNumber?
  rcases lt_or_ge i.toInt 0 with hneg | hpos
  · rw [decide_eq_true hneg, if_neg (by simp), if_pos ⟨by omega, hfits.resolve_right (by omega)⟩]
    exact congrArg (fun j => some (JsonNumber.integer j)) (by omega)
  · rw [decide_eq_false (by omega), if_pos Bool.not_false]
    exact congrArg (fun j => some (JsonNumber.integer j)) (by omega)

theorem reads_integer (i : Int64) (h : EndsNumber cs) :
    Reads number ((integerText i).toList ++ cs) (.integer i.toInt) cs := by
  have hlt : i.toInt.natAbs < 2 ^ 64 := by
    have hmin : -2 ^ 63 ≤ i.toInt := i.minValue_le_toInt
    have hmax : i.toInt < 2 ^ 63 := i.toInt_lt
    omega
  rw [← Numeral.chars_ofInt, Numeral.chars, Numeral.size_ofInt]
  exact reads_number _ hlt (plainNumber?_natAbs i) h

/-- The text begins with something that is neither a space nor the end of an array. -/
def OpensElement (cs : List Char) : Prop :=
  ∃ c ds, cs = c :: ds ∧ isSpace c = false ∧ c ≠ ']'

theorem OpensElement.append (h : OpensElement cs) (ds : List Char) : OpensElement (cs ++ ds) := by
  obtain ⟨c, es, rfl, hc⟩ := h
  exact ⟨c, es ++ ds, rfl, hc⟩

theorem reads_hasElement_true (hs : es.all isSpace = true) (h : OpensElement cs) :
    Reads (hasElement true) (es ++ cs) true cs := by
  obtain ⟨c, cs, rfl, hspace, hbracket⟩ := h
  refine (Reads.peek hs hspace cs).bind ?_
  simp only [hbracket, if_false]
  exact .pure _ _

theorem reads_hasElement_comma (hs : es.all isSpace = true) (h : OpensElement cs) :
    Reads (hasElement false) (',' :: (es ++ cs)) true cs := by
  obtain ⟨c, cs, rfl, hspace, hbracket⟩ := h
  refine (Reads.peek_cons rfl _).bind ((Reads.drop ',' _).bind ?_)
  refine (Reads.peek hs hspace cs).bind ?_
  simp only [hbracket, if_false]
  exact .pure _ _

theorem reads_hasElement_bracket (first : Bool) (hs : es.all isSpace = true) (cs : List Char) :
    Reads (hasElement first) (es ++ ']' :: cs) false (']' :: cs) :=
  (Reads.peek hs rfl cs).bind (.pure _ _)

theorem all_isSpace_newLine (d : ℕ) : (Json.newLine d).toList.all isSpace = true := by
  rw [Json.newLine, String.toList_ofList, List.all_cons, List.all_replicate]
  cases 2 * d <;> rfl

/-- The lines after the first, each after a comma. -/
def moreLines (d : ℕ) (xs : List String) : List Char :=
  xs.flatMap fun x => ',' :: ((Json.newLine d).toList ++ x.toList)

theorem toList_lines (d : ℕ) (x : String) (xs : List String) :
    (Json.lines d (x :: xs)).toList = (Json.newLine d).toList ++ (x.toList ++ moreLines d xs) := by
  induction xs generalizing x with
  | nil => simp [Json.lines, moreLines]
  | cons y ys ih => simp [Json.lines, ih, moreLines]

theorem length_le_moreLines (d : ℕ) (xs : List String) : xs.length ≤ (moreLines d xs).length := by
  induction xs with
  | nil => exact Nat.le_refl _
  | cons x xs ih =>
    simp only [moreLines, List.flatMap_cons, List.length_append, List.length_cons] at ih ⊢
    omega

/-- After an element there is a comma or a new line. -/
theorem endsNumber_moreLines (d e : ℕ) (xs : List String) (cs : List Char) :
    EndsNumber (moreLines d xs ++ ((Json.newLine e).toList ++ cs)) := by
  rintro c hc
  cases xs with
  | nil =>
    rw [moreLines, List.flatMap_nil, List.nil_append, Json.newLine, String.toList_ofList] at hc
    cases hc
    decide
  | cons x xs =>
    rw [moreLines, List.flatMap_cons] at hc
    cases hc
    decide

/-- The text is read as the value, whatever comes next. -/
def ReadsElement (element : JsonReader α) (x : String) (a : α) : Prop :=
  OpensElement x.toList ∧ ∀ rest, EndsNumber rest → Reads element (x.toList ++ rest) a rest

variable {element : JsonReader α} {xs : List String} {as : List α} {bound : List Char}

theorem reads_elementsWithin (d e : ℕ) (h : List.Forall₂ (ReadsElement element) xs as)
    (hbound : xs.length < bound.length) (cs : List Char) :
    Reads (elementsWithin element false bound)
      (moreLines d xs ++ ((Json.newLine e).toList ++ ']' :: cs)) as cs := by
  induction h generalizing bound with
  | nil =>
    obtain ⟨c, bound, rfl⟩ := List.exists_cons_of_length_pos hbound
    exact (reads_hasElement_bracket false (all_isSpace_newLine e) cs).bind
      ((Reads.drop ']' cs).bind (.pure _ _))
  | @cons x a xs as hx _ ih =>
    obtain ⟨c, bound, rfl⟩ := List.exists_cons_of_length_pos (Nat.zero_lt_of_lt hbound)
    rw [moreLines, List.flatMap_cons, List.cons_append, List.cons_append, List.append_assoc,
      List.append_assoc]
    refine (reads_hasElement_comma (all_isSpace_newLine d) (hx.1.append _)).bind ?_
    refine (hx.2 _ (endsNumber_moreLines d e xs _)).bind ?_
    exact (ih (by simpa using hbound)).bind (.pure _ _)

theorem reads_elementsWithin_true (d e : ℕ) {x : String} {a : α} (hx : ReadsElement element x a)
    (hxs : List.Forall₂ (ReadsElement element) xs as) (hbound : xs.length + 1 < bound.length)
    (cs : List Char) :
    Reads (elementsWithin element true bound) ((Json.newLine d).toList ++
      (x.toList ++ (moreLines d xs ++ ((Json.newLine e).toList ++ ']' :: cs)))) (a :: as) cs := by
  obtain ⟨c, bound, rfl⟩ := List.exists_cons_of_length_pos (Nat.zero_lt_of_lt hbound)
  refine (reads_hasElement_true (all_isSpace_newLine d) (hx.1.append _)).bind ?_
  refine (hx.2 _ (endsNumber_moreLines d e xs _)).bind ?_
  exact (reads_elementsWithin d e hxs (by simpa using hbound) cs).bind (.pure _ _)

theorem exists_elements (d : ℕ) (h : List.Forall₂ (ReadsElement element) xs as) (cs : List Char) :
    ∃ ds, (Json.enclosed "[" "]" d xs).toList ++ cs = '[' :: ds ∧
      Reads (elements element) ds as cs := by
  cases h with
  | nil =>
    refine ⟨']' :: cs, by simp [Json.enclosed], Reads.get ?_⟩
    exact (reads_hasElement_bracket true (List.all_nil : [].all isSpace = true) cs).bind
      ((Reads.drop ']' cs).bind (.pure _ _))
  | @cons x a xs as hx hxs =>
    have hbound := length_le_moreLines (d + 1) xs
    refine ⟨(Json.newLine (d + 1)).toList ++ (x.toList ++ (moreLines (d + 1) xs ++
      ((Json.newLine d).toList ++ ']' :: cs))), ?_, Reads.get ?_⟩
    · simp [Json.enclosed, toList_lines]
    · refine reads_elementsWithin_true (d + 1) d hx hxs ?_ cs
      simp only [List.length_append, List.length_cons, Json.newLine, String.toList_ofList]
      omega

variable {build : Builder α} {inner : Option (JsonReader α)}

theorem readsElement_null : ReadsElement (valueWith build inner) "null" build.null :=
  ⟨⟨'n', ['u', 'l', 'l'], rfl, rfl, by decide⟩, fun rest _ =>
    (Reads.peek_cons rfl _).bind (.keyword 'n' ['u', 'l', 'l'] rest _)⟩

theorem readsElement_true : ReadsElement (valueWith build inner) "true" (build.bool true) :=
  ⟨⟨'t', ['r', 'u', 'e'], rfl, rfl, by decide⟩, fun rest _ =>
    (Reads.peek_cons rfl _).bind (.keyword 't' ['r', 'u', 'e'] rest _)⟩

theorem readsElement_false : ReadsElement (valueWith build inner) "false" (build.bool false) :=
  ⟨⟨'f', ['a', 'l', 's', 'e'], rfl, rfl, by decide⟩, fun rest _ =>
    (Reads.peek_cons rfl _).bind (.keyword 'f' ['a', 'l', 's', 'e'] rest _)⟩

theorem readsElement_string (t : String) :
    ReadsElement (valueWith build inner) (Json.stringText t) (build.string t) := by
  have htext : ∀ cs, (Json.stringText t).toList ++ cs =
      '"' :: (t.toList.flatMap Json.stringChar ++ '"' :: cs) := fun cs => by
    simp [Json.stringText]
  refine ⟨⟨'"', _, String.toList_ofList, rfl, by decide⟩, fun rest _ => ?_⟩
  rw [htext]
  exact (Reads.peek_cons rfl _).bind
    ((Reads.drop '"' _).bind ((reads_stringRest t rest).bind (.pure _ _)))

/-- A minus sign or a digit begins a number and nothing else. -/
theorem reads_valueWith_number {n : JsonNumber} (hc : c = '-' ∨ c.isDigit = true)
    (hn : Reads number (c :: cs) n ds) (hb : build.number n = .ok a) :
    Reads (valueWith build inner) (c :: cs) a ds := by
  have hne : ∀ d, d.isDigit = false → d ≠ '-' → c ≠ d := fun d hd hminus => by
    rcases hc with rfl | hc
    · exact hminus.symm
    · exact ne_of_isDigit hc hd
  have hspace : isSpace c = false := by simp [isSpace, hne]
  refine (Reads.peek_cons hspace cs).bind ?_
  split
  case h_1 heq => cases heq
  case h_8 heq =>
    cases heq
    rw [if_pos hc]
    refine hn.bind ?_
    simp only [hb]
    exact .pure _ _
  all_goals exact absurd (Option.some.inj ‹_›) (hne _ (by decide) (by decide))

theorem exists_integerText (i : Int64) :
    ∃ c cs, (integerText i).toList = c :: cs ∧ (c = '-' ∨ c.isDigit = true) := by
  obtain ⟨c, cs, hcs, hc⟩ := (Numeral.ofInt i.toInt).exists_size_eq
  rw [← Numeral.chars_ofInt, Numeral.chars, hcs]
  cases (Numeral.ofInt i.toInt).negative
  · exact ⟨c, cs, rfl, .inr hc⟩
  · exact ⟨'-', c :: cs, rfl, .inl rfl⟩

theorem readsElement_integer {i : Int64} (hb : build.number (.integer i.toInt) = .ok a) :
    ReadsElement (valueWith build inner) (integerText i) a := by
  obtain ⟨c, cs, hcs, hc⟩ := exists_integerText i
  refine ⟨⟨c, cs, hcs, ?_⟩, fun rest hrest => ?_⟩
  · rcases hc with rfl | hc
    · decide
    · exact ⟨by simp [isSpace, ne_of_isDigit hc], ne_of_isDigit hc (by decide)⟩
  · have hread := reads_integer i hrest
    rw [hcs] at hread ⊢
    exact reads_valueWith_number hc hread hb

theorem readsElement_array (d : ℕ) (h : List.Forall₂ (ReadsElement element) xs as) :
    ReadsElement (valueWith build (some element)) (Json.enclosed "[" "]" d xs)
      (build.array as) := by
  refine ⟨?_, fun rest _ => ?_⟩
  · obtain ⟨ds, htext, _⟩ := exists_elements d h []
    rw [List.append_nil] at htext
    exact ⟨'[', ds, htext, rfl, by decide⟩
  · obtain ⟨ds, htext, hds⟩ := exists_elements d h rest
    rw [htext]
    exact (Reads.peek_cons rfl _).bind ((Reads.drop '[' _).bind (hds.bind (.pure _ _)))

/-- What needs no nesting is read at any depth. -/
theorem ReadsElement.value {x : String} (h : ∀ inner, ReadsElement (valueWith build inner) x a)
    (n : ℕ) : ReadsElement (value build n) x a := by
  cases n <;> exact h _

end JsonReader

namespace Value

open JsonReader (ReadsElement Reads)

/-- A value made of null, truth values, integers, strings and arrays of such, with at most so many
arrays inside each other. -/
inductive Nests : ℕ → Value → Prop
  | undef (n : ℕ) : Nests n .undef
  | bool (n : ℕ) (b : Bool) : Nests n (.bool b)
  | integer (n : ℕ) (i : Int64) : Nests n (.integer i)
  | string (n : ℕ) (t : String) : Nests n (.string t)
  | array {n : ℕ} {xs : List Value} (elements : ∀ x ∈ xs, Nests n x) : Nests (n + 1) (.array xs)

variable {n : ℕ} {v : Value} {xs : List Value} {text : Ty → String} {s : Store}

theorem toValue_toInt (i : Int64) :
    JsonNumber.toValue (.integer i.toInt) = .ok (.integer i) := by
  rw [JsonNumber.toValue, if_pos i.toInt_le, Int64.ofInt_toInt]

theorem exists_toJsonList
    (h : ∀ x ∈ xs, ∃ j, x.toJson text = .ok j ∧
      ∀ d, ReadsElement (JsonReader.value jsonBuilder n) (j.prettyAt d) x) :
    ∃ js, toJsonList text xs = .ok js ∧ ∀ d,
      List.Forall₂ (ReadsElement (JsonReader.value jsonBuilder n)) (Json.prettyList d js) xs := by
  induction xs with
  | nil => exact ⟨[], rfl, fun _ => .nil⟩
  | cons x xs ih =>
    obtain ⟨j, hj, hx⟩ := h x List.mem_cons_self
    obtain ⟨js, hjs, hxs⟩ := ih fun y hy => h y (List.mem_cons_of_mem _ hy)
    refine ⟨j :: js, ?_, fun d => .cons (hx d) (hxs d)⟩
    rw [toJsonList, hj, hjs]
    rfl

theorem equalListWith_self {nodes : Node → Node → Compare}
    (h : ∀ x ∈ xs, x.equalsWith nodes x = pure true) : equalListWith nodes xs xs = pure true := by
  induction xs with
  | nil => rfl
  | cons x xs ih =>
    rw [equalListWith, h x List.mem_cons_self, ih fun y hy => h y (List.mem_cons_of_mem _ hy)]
    rfl

namespace Nests

/-- What is written for the value is read as the value, at any depth of lines. -/
theorem exists_toJson (h : v.Nests n) (text : Ty → String) :
    ∃ j, v.toJson text = .ok j ∧
      ∀ d, ReadsElement (JsonReader.value jsonBuilder n) (j.prettyAt d) v := by
  induction h with
  | undef n => exact ⟨.null, rfl, fun _ => .value (fun _ => JsonReader.readsElement_null) n⟩
  | bool n b =>
    cases b with
    | true => exact ⟨.bool true, rfl, fun _ => .value (fun _ => JsonReader.readsElement_true) n⟩
    | false => exact ⟨.bool false, rfl, fun _ => .value (fun _ => JsonReader.readsElement_false) n⟩
  | integer n i =>
    exact ⟨.number (.integer i.toInt), rfl,
      fun _ => .value (fun _ => JsonReader.readsElement_integer (toValue_toInt i)) n⟩
  | string n t =>
    exact ⟨.string t, rfl, fun _ => .value (fun _ => JsonReader.readsElement_string t) n⟩
  | array _ ih =>
    obtain ⟨js, hjs, hread⟩ := exists_toJsonList ih
    refine ⟨.array js, ?_, fun d => JsonReader.readsElement_array d (hread (d + 1))⟩
    rw [toJson, hjs]
    rfl

theorem equalsWith_self (h : v.Nests n) (nodes : Node → Node → Compare) :
    v.equalsWith nodes v = pure true := by
  induction h with
  | array _ ih => exact equalListWith_self ih
  | _ => simp [equalsWith]

/-- The JSON text of a value of null, truth values, integers, strings and arrays is read as that
value, as long as the arrays nest no deeper than what is read. -/
theorem ofJsonText_jsonText (h : v.Nests 127) (s : Store) :
    ∃ text, s.jsonText v = .ok text ∧ ofJsonText text = .ok v ∧ s.valuesEqual v v = true := by
  obtain ⟨j, hj, hread⟩ := h.exists_toJson s.text
  have hdocument := (hread 0).2 [] JsonReader.endsNumber_nil
  rw [List.append_nil] at hdocument
  refine ⟨j.pretty, ?_, ?_, ?_⟩
  · rw [Store.jsonText, hj]
    rfl
  · have hrun : (JsonReader.value jsonBuilder JsonReader.nestingLimit).run j.pretty.toList =
        .ok (v, []) := hdocument
    rw [ofJsonText, JsonReader.document, hrun]
    rfl
  · rw [Store.valuesEqual, Store.valuesEqualWith, h.equalsWith_self]
    rfl

/-- Empty arrays, the ends of the range of integers, and strings with a quote, a backslash, control
characters and a character beyond the first plane. -/
theorem ofJsonText_jsonText_mixed :
    let v : Value := .array [.array [], .undef,
      .array [.bool false, .array [.integer Int64.minValue]], .integer Int64.maxValue,
      .string "\"\\/\x00\x1f\n\t\x7f", .string "é𝄞"]
    v.Nests 127 ∧ ∃ text, ({} : Store).jsonText v = .ok text ∧ ofJsonText text = .ok v ∧
      ({} : Store).valuesEqual v v = true := by
  intro v
  have hinner : (Value.array [.bool false, .array [.integer Int64.minValue]]).Nests 126 :=
    .array (by simpa using ⟨.bool _ _, .array (by simpa using .integer _ _)⟩)
  have hv : v.Nests 127 := .array <| by
    simp only [List.forall_mem_cons, List.not_mem_nil, IsEmpty.forall_iff, implies_true, and_true]
    exact ⟨.array (by simp), .undef _, hinner, .integer _ _, .string _ _, .string _ _⟩
  exact ⟨hv, ofJsonText_jsonText hv {}⟩

end Nests
end Value
end TypeLattice
