import TypeLattice.Proofs.Spelling

/-!
# Words

The words that a text of a type expression is made of, described apart from the scanner: names,
numbers, strings and symbols. A text splits into words if, after blanks, each word is the longest
one that stands there. The scanner finds the words of exactly the texts that split.
-/
namespace TypeLattice

open Token
open FloatLayout (signChars)

variable {c quote : Char} {cs ds rest body meaning : List Char} {l : Lexeme} {ls : List Lexeme}

/-- A letter or an underscore and then letters, digits and underscores; and any number of times
`::`, a letter, and letters, digits and underscores. -/
inductive IsName : List Char → Prop
  | simple {c : Char} {ds : List Char} (start : isNameStart c = true)
      (rest : ds.all isNameChar = true) : IsName (c :: ds)
  | qualified {cs : List Char} {c : Char} {ds : List Char} (qualifier : IsName cs)
      (letter : c.isAlpha = true) (rest : ds.all isNameChar = true) :
      IsName (cs ++ ':' :: ':' :: c :: ds)

/-- Nothing, or a point and digits. -/
inductive IsFraction : List Char → Prop
  | none : IsFraction []
  | point {ds : List Char} (ne : ds ≠ []) (digits : ds.all Char.isDigit = true) :
      IsFraction ('.' :: ds)

/-- The mark of an exponent and perhaps its sign. -/
inductive IsMark : List Char → Prop
  | unsigned {e : Char} (mark : e = 'e' ∨ e = 'E') : IsMark [e]
  | signed {e f : Char} (mark : e = 'e' ∨ e = 'E') (sign : f = '+' ∨ f = '-') : IsMark [e, f]

/-- Nothing, or an exponent, of which the digits may be missing. -/
inductive IsPower : List Char → Prop
  | none : IsPower []
  | exponent {es ds : List Char} (mark : IsMark es) (digits : ds.all Char.isDigit = true) :
      IsPower (es ++ ds)

/-- Perhaps a minus, digits, a fraction and an exponent. -/
inductive IsNumber : List Char → Prop
  | mk {ms ws fs ps : List Char} (minus : ms = [] ∨ ms = ['-']) (ne : ws ≠ [])
      (whole : ws.all Char.isDigit = true) (fraction : IsFraction fs) (power : IsPower ps) :
      IsNumber (ms ++ (ws ++ (fs ++ ps)))

/-- A number with an exponent that has no digits. -/
inductive LacksDigits : List Char → Prop
  | mk {ms ws fs es : List Char} (minus : ms = [] ∨ ms = ['-']) (ne : ws ≠ [])
      (whole : ws.all Char.isDigit = true) (fraction : IsFraction fs) (mark : IsMark es) :
      LacksDigits (ms ++ (ws ++ (fs ++ es)))

/-- What a character after a backslash stands for. -/
inductive IsEscape : Char → Char → Prop
  | same {c : Char} (special : c = '\\' ∨ c = '\'' ∨ c = '"') : IsEscape c c
  | lineFeed : IsEscape 'n' '\n'
  | tab : IsEscape 't' '\t'

/-- What is written between two quotes, and what it stands for. -/
inductive IsBody (quote : Char) : List Char → List Char → Prop
  | nil : IsBody quote [] []
  | plain {c : Char} {cs ds : List Char} (inside : c ≠ quote) (unescaped : c ≠ '\\')
      (rest : IsBody quote cs ds) : IsBody quote (c :: cs) (c :: ds)
  | escape {c d : Char} {cs ds : List Char} (escape : IsEscape c d) (rest : IsBody quote cs ds) :
      IsBody quote ('\\' :: c :: cs) (d :: ds)

/-- A word and its lexeme. -/
inductive Word : Lexeme → List Char → Prop
  | symbol (s : Symbol) : Word (.symbol s) s.text.toList
  | name {cs : List Char} (name : IsName cs) : Word (.name (String.ofList cs)) cs
  | number {cs : List Char} (number : IsNumber cs) : Word (.number cs) cs
  | string {q : Char} {cs ds : List Char} (quote : q = '\'' ∨ q = '"') (body : IsBody q cs ds) :
      Word (.string (String.ofList ds)) (q :: (cs ++ [q]))

/-- The text splits into words with blanks between and around them. Each word is the longest one
where it stands. -/
inductive Splits : List Char → List Lexeme → Prop
  | done {blanks : List Char} (blank : ∀ c ∈ blanks, Text.isBlank c = true) : Splits blanks []
  | word {blanks w rest : List Char} {l : Lexeme} {ls : List Lexeme}
      (blank : ∀ c ∈ blanks, Text.isBlank c = true) (word : Word l w)
      (longest : ∀ k v, Word k v → v <+: w ++ rest → v.length ≤ w.length)
      (others : Splits rest ls) : Splits (blanks ++ (w ++ rest)) (l :: ls)

theorem Word.not_isFault {w : List Char} (h : Word l w) : l.isFault = false := by
  cases h <;> rfl

/-- What may follow the first character of a name. -/
inductive NameTail : List Char → Prop
  | nil : NameTail []
  | char {c : Char} {cs : List Char} (char : isNameChar c = true) (rest : NameTail cs) :
      NameTail (c :: cs)
  | colons {c : Char} {cs : List Char} (letter : c.isAlpha = true) (rest : NameTail cs) :
      NameTail (':' :: ':' :: c :: cs)

namespace NameTail

theorem of_all (h : ds.all isNameChar = true) : NameTail ds := by
  induction ds with
  | nil => exact .nil
  | cons d ds ih =>
    rw [List.all_cons, Bool.and_eq_true] at h
    exact .char h.1 (ih h.2)

theorem append (h : NameTail cs) (h' : NameTail ds) : NameTail (cs ++ ds) := by
  induction h with
  | nil => exact h'
  | char hc _ ih => exact .char hc ih
  | colons hc _ ih => exact .colons hc ih

theorem takeName (cs : List Char) : NameTail (takeName cs).1 := by
  fun_induction Token.takeName cs with
  | case1 c cs hc ih => exact .colons hc ih
  | case3 c cs _ hc ih => exact .char hc ih
  | case2 | case4 | case5 => exact .nil

theorem length_le_takeName (h : NameTail cs) (rest : List Char) :
    cs.length ≤ (Token.takeName (cs ++ rest)).1.length := by
  induction h with
  | nil => exact Nat.zero_le _
  | char hc _ ih => simpa [Token.takeName, not_colon_of_isNameChar hc, hc] using ih
  | colons hc _ ih => simpa [Token.takeName, hc] using ih

theorem takeName_eq (h : NameTail cs) : Token.takeName cs = (cs, []) := by
  induction h with
  | nil => rfl
  | char hc _ ih => simp [Token.takeName, not_colon_of_isNameChar hc, hc, ih]
  | colons hc _ ih => simp [Token.takeName, hc, ih]

/-- A name ends before `::` and what is not a letter. -/
theorem takeName_append_colons (h : NameTail cs) (hc : c.isAlpha = false) :
    Token.takeName (cs ++ ':' :: ':' :: c :: rest) = (cs, ':' :: ':' :: c :: rest) := by
  induction h with
  | nil => simp [Token.takeName, hc]
  | char hd _ ih => simp [Token.takeName, not_colon_of_isNameChar hd, hd, ih]
  | colons hd _ ih => simp [Token.takeName, hd, ih]

end NameTail

theorem IsName.exists_tail (h : IsName cs) :
    ∃ c ds, cs = c :: ds ∧ isNameStart c = true ∧ NameTail ds := by
  induction h with
  | simple start rest => exact ⟨_, _, rfl, start, .of_all rest⟩
  | qualified _ letter rest ih =>
    obtain ⟨c, ds, rfl, start, tail⟩ := ih
    exact ⟨c, _, rfl, start, tail.append (.colons letter (.of_all rest))⟩

/-- A name begins with a letter or an underscore. -/
theorem IsName.isAlpha_or (h : IsName (c :: ds)) : c.isAlpha = true ∨ c = '_' := by
  obtain ⟨d, es, he, hd, -⟩ := h.exists_tail
  obtain ⟨rfl, rfl⟩ := List.cons.inj he
  simpa [isNameStart] using hd

theorem IsName.identifier {s : String} (h : IsName s.toList) : Identifier s := by
  obtain ⟨c, ds, hs, hc, htail⟩ := h.exists_tail
  exact identifier_of hs hc htail.takeName_eq

theorem IsName.append_char (h : IsName cs) (hc : isNameChar c = true) : IsName (cs ++ [c]) := by
  cases h with
  | simple start rest =>
    exact .simple start (by simp [List.all_append, rest, hc])
  | qualified qualifier letter rest =>
    rw [List.append_assoc]
    exact .qualified qualifier letter (by simp [List.all_append, rest, hc])

theorem IsName.append_tail (h : IsName cs) (h' : NameTail ds) : IsName (cs ++ ds) := by
  induction h' generalizing cs with
  | nil => rwa [List.append_nil]
  | @char c ds hc _ ih =>
    have := ih (h.append_char hc)
    rwa [List.append_assoc] at this
  | @colons c ds hc _ ih =>
    have := ih (h.qualified hc (by rfl : [].all isNameChar = true))
    rwa [List.append_assoc] at this

theorem isName_takeName (h : isNameStart c = true) (cs : List Char) :
    IsName (c :: (takeName cs).1) :=
  IsName.append_tail (.simple h (by rfl : [].all isNameChar = true)) (.takeName cs)

theorem length_le_takeDigits (h : ds.all Char.isDigit = true) (rest : List Char) :
    ds.length ≤ (takeDigits (ds ++ rest)).1.length := by
  rw [takeDigits, List.takeWhile_append_of_pos (List.all_eq_true.1 h), List.length_append]
  exact Nat.le_add_right _ _

theorem all_takeDigits (cs : List Char) : (takeDigits cs).1.all Char.isDigit = true :=
  List.all_takeWhile

theorem isFraction_takeFraction (cs : List Char) : IsFraction (takeFraction cs).1 := by
  fun_cases takeFraction cs with
  | case1 c cs hc => exact .point (by simp [takeDigits, hc]) (all_takeDigits _)
  | case2 | case3 => exact .none

theorem isPower_takeExponent (cs : List Char) : IsPower (takeExponent cs).1 := by
  fun_cases takeExponent cs with
  | case1 c cs hc sign digits =>
    have hmark : IsMark (c :: sign.1) := by
      simp only [sign]
      fun_cases takeSign cs with
      | case1 d cs hd => exact .signed hc hd
      | case2 | case3 => exact .unsigned hc
    exact .exponent hmark (all_takeDigits _)
  | case2 | case3 => exact .none

theorem IsFraction.length_le (h : IsFraction ds) (rest : List Char) :
    ds.length ≤ (takeFraction (ds ++ rest)).1.length := by
  cases h with
  | none => exact Nat.zero_le _
  | @point ds ne digits =>
    obtain ⟨d, es, rfl⟩ := List.exists_cons_of_ne_nil ne
    have hd : d.isDigit = true := List.all_eq_true.1 digits d (by simp)
    have := length_le_takeDigits digits rest
    simp only [List.cons_append, takeFraction, hd, if_true] at this ⊢
    simpa using this

theorem IsPower.length_le (h : IsPower ds) (rest : List Char) :
    ds.length ≤ (takeExponent (ds ++ rest)).1.length := by
  cases h with
  | none => exact Nat.zero_le _
  | @exponent mark ds hmark digits =>
    have hdigits := length_le_takeDigits digits rest
    cases hmark with
    | @signed e sign he hs =>
      simp only [List.cons_append, List.nil_append, takeExponent, he, takeSign, hs, if_true]
      simpa using hdigits
    | @unsigned e he =>
      simp only [List.cons_append, List.nil_append, takeExponent, he, if_true]
      cases ds with
      | nil => simp
      | cons d ds =>
        have hd : d.isDigit = true := List.all_eq_true.1 digits d (by simp)
        have hnot : ¬(d = '+' ∨ d = '-') := by
          rintro (rfl | rfl) <;> cases hd
        simp only [List.cons_append, takeSign, hnot, if_false] at hdigits ⊢
        simpa using hdigits

theorem IsFraction.noDigit (h : IsFraction ds) (hr : NoDigit rest) : NoDigit (ds ++ rest) := by
  cases h with
  | none => exact hr
  | point =>
    intro c hc
    obtain rfl := Option.some.inj hc
    rfl

theorem IsMark.exists_eq (h : IsMark ds) : ∃ e es, ds = e :: es ∧ (e = 'e' ∨ e = 'E') := by
  cases h with
  | unsigned mark => exact ⟨_, _, rfl, mark⟩
  | signed mark => exact ⟨_, _, rfl, mark⟩

theorem IsMark.noDigit (h : IsMark ds) (rest : List Char) : NoDigit (ds ++ rest) := by
  obtain ⟨e, es, rfl, he⟩ := h.exists_eq
  intro c hc
  obtain rfl := Option.some.inj hc
  rcases he with rfl | rfl <;> rfl

/-- With an exponent after it, a fraction is taken to its end. -/
theorem IsFraction.takeFraction_eq {mark : List Char} (h : IsFraction ds) (hm : IsMark mark)
    (rest : List Char) :
    takeFraction (ds ++ (mark ++ rest)) = (ds, mark ++ rest) := by
  cases h with
  | none =>
    obtain ⟨e, es, rfl, he⟩ := hm.exists_eq
    rcases he with rfl | rfl <;> rfl
  | @point ds ne digits =>
    have hdigits := takeDigits_append_of digits (hm.noDigit rest)
    obtain ⟨d, es, rfl⟩ := List.exists_cons_of_ne_nil ne
    have hd : d.isDigit = true := List.all_eq_true.1 digits d (by simp)
    simp only [List.cons_append, takeFraction, hd, if_true] at hdigits ⊢
    rw [hdigits]

/-- With a point or an exponent after them, or nothing of a number, digits are taken to their
end. -/
theorem takeMinus_append_of {minus whole : List Char} (hm : minus = [] ∨ minus = ['-'])
    (hne : whole ≠ []) (hw : whole.all Char.isDigit = true) (rest : List Char) :
    takeMinus (minus ++ (whole ++ rest)) = (minus, whole ++ rest) := by
  rcases hm with rfl | rfl
  · obtain ⟨d, es, rfl⟩ := List.exists_cons_of_ne_nil hne
    have hd : d.isDigit = true := List.all_eq_true.1 hw d (by simp)
    have hminus : d ≠ '-' := ne_of_isDigit hd rfl
    simp [takeMinus, hminus]
  · rfl

/-- What is taken is at least as long as any number that stands there. -/
theorem IsNumber.length_le (h : IsNumber cs) (rest : List Char) :
    cs.length ≤ (takeNumber (cs ++ rest)).1.length := by
  cases h with
  | @mk ms ws fs ps hminus ne digits hfraction hpower =>
    have htake := takeMinus_append_of hminus ne digits (fs ++ (ps ++ rest))
    have happend : ms ++ (ws ++ (fs ++ ps)) ++ rest = ms ++ (ws ++ (fs ++ (ps ++ rest))) := by simp
    simp only [happend, takeNumber, htake, List.length_append]
    cases hpower with
    | @exponent es ds hmark hds =>
      have hfractionTake := hfraction.takeFraction_eq hmark (ds ++ rest)
      have hwhole := takeDigits_append_of digits (hfraction.noDigit (hmark.noDigit (ds ++ rest)))
      have hle := (IsPower.exponent hmark hds).length_le rest
      simp only [List.append_assoc, hwhole, hfractionTake, List.length_append] at hle ⊢
      omega
    | none =>
      cases hfraction with
      | none =>
        have hle := length_le_takeDigits digits rest
        simp only [List.nil_append, List.length_nil]
        omega
      | @point fs fne fdigits =>
        have hpoint : NoDigit ('.' :: fs ++ ([] ++ rest)) := by
          intro c hc
          obtain rfl := Option.some.inj hc
          rfl
        have hwhole := takeDigits_append_of digits hpoint
        have hle := (IsFraction.point fne fdigits).length_le rest
        simp only [List.nil_append, List.length_nil] at hwhole ⊢
        rw [hwhole]
        dsimp only
        omega

theorem isNumber_takeNumber (h : (takeDigits (takeMinus cs).2).1 ≠ []) :
    IsNumber (takeNumber cs).1 := by
  have hminus : (takeMinus cs).1 = [] ∨ (takeMinus cs).1 = ['-'] := by
    fun_cases takeMinus cs <;> simp
  simp only [takeNumber, List.append_assoc]
  exact .mk hminus h (all_takeDigits _) (isFraction_takeFraction _) (isPower_takeExponent _)

theorem LacksDigits.isNumber (h : LacksDigits cs) : IsNumber cs := by
  cases h with
  | @mk ms ws fs es minus ne whole fraction mark =>
    have hpower : IsPower (es ++ []) := .exponent mark rfl
    rw [List.append_nil] at hpower
    exact .mk minus ne whole fraction hpower

theorem IsFraction.fraction_eq {es : List Char} (h : IsFraction ds) (hm : IsMark es) :
    (Decimal.fraction (ds ++ es)).2 = es := by
  have hspan := fun {fs : List Char} (hfs : fs.all Char.isDigit = true) =>
    (span_digits hfs (List.append_nil es ▸ hm.noDigit [])).2
  cases h with
  | none =>
    obtain ⟨e, es, rfl, he⟩ := hm.exists_eq
    rcases he with rfl | rfl <;> rfl
  | point _ digits => exact hspan digits

theorem IsMark.suffix?_eq {es : List Char} (h : IsMark es) : Decimal.suffix? es = none := by
  cases h with
  | unsigned mark => exact if_pos mark
  | signed mark sign =>
    refine (if_pos mark).trans ?_
    rcases sign with rfl | rfl <;> rfl

/-- It is neither read as an integer nor as a float. -/
theorem LacksDigits.unread (h : LacksDigits cs) :
    integer? cs = none ∧ Binary64.ofChars? cs = none := by
  cases h with
  | @mk ms ws fs es minus ne whole fraction mark =>
    obtain ⟨negative, rfl⟩ : ∃ negative, ms = signChars negative := by
      rcases minus with rfl | rfl
      · exact ⟨false, rfl⟩
      · exact ⟨true, rfl⟩
    have hspan := span_digits whole (fraction.noDigit (List.append_nil es ▸ mark.noDigit []))
    have hall : (ws ++ (fs ++ es)).all Char.isDigit = false := by
      obtain ⟨e, es', rfl, he⟩ := mark.exists_eq
      rcases he with rfl | rfl <;> simp
    have hdecimal : Decimal.ofChars? (ws ++ (fs ++ es)) = none := by
      simp only [Decimal.ofChars?, hspan, fraction.fraction_eq mark, mark.suffix?_eq]
      simp
    obtain ⟨d, ds, rfl⟩ := List.exists_cons_of_ne_nil ne
    have hd : d.isDigit = true := List.all_eq_true.1 whole d (by simp)
    constructor
    · rw [integer?, List.cons_append, unsigned_signed negative hd, ← List.cons_append]
      exact if_pos (.inr (by rw [hall]; rfl))
    · rw [List.cons_append] at hdecimal ⊢
      rw [ofChars?_signed negative hd, hdecimal, Option.map_none]

theorem isEscape_iff {d : Char} : escaped? c = some d ↔ IsEscape c d := by
  unfold escaped?
  constructor
  · intro h
    split_ifs at h with hs hn ht
    · obtain rfl := Option.some.inj h
      exact .same hs
    · obtain rfl := Option.some.inj h
      rw [hn]
      exact .lineFeed
    · obtain rfl := Option.some.inj h
      rw [ht]
      exact .tab
  · intro h
    cases h with
    | same special => rw [if_pos special]
    | lineFeed => rfl
    | tab => rfl

theorem IsBody.takeString_eq (hq : quote = '\'' ∨ quote = '"') (h : IsBody quote body meaning)
    (rest : List Char) : takeString quote (body ++ quote :: rest) = .ok (meaning, rest) := by
  induction h with
  | nil =>
    rcases hq with rfl | rfl <;> simp [takeString]
  | plain inside unescaped _ ih =>
    simp [takeString, unescaped, inside, ih, Except.map]
  | escape hescape _ ih =>
    simp [takeString, isEscape_iff.2 hescape, ih, Except.map]

theorem exists_body {p : List Char × List Char} (h : takeString quote cs = .ok p) :
    ∃ body, IsBody quote body p.1 ∧ cs = body ++ quote :: p.2 := by
  fun_induction takeString quote cs generalizing p with
  | case1 => cases h
  | case2 => cases h
  | case3 c cs d hd ih =>
    obtain ⟨q, hq, rfl⟩ : ∃ q, takeString quote cs = .ok q ∧ (d :: q.1, q.2) = p := by
      cases ht : takeString quote cs <;> simp_all [Except.map]
    obtain ⟨body, hbody, rfl⟩ := ih hq
    exact ⟨'\\' :: c :: body, .escape (isEscape_iff.1 hd) hbody, rfl⟩
  | case4 => cases h
  | case5 c cs =>
    cases h
    exact ⟨[], .nil, rfl⟩
  | case6 c cs hescape hlast hne ih =>
    obtain ⟨q, hq, rfl⟩ : ∃ q, takeString quote cs = .ok q ∧ (c :: q.1, q.2) = p := by
      cases ht : takeString quote cs <;> simp_all [Except.map]
    obtain ⟨body, hbody, rfl⟩ := ih hq
    have hc : c ≠ '\\' := by
      rintro rfl
      obtain ⟨d, ds, hds⟩ := List.exists_cons_of_ne_nil (List.append_ne_nil_of_right_ne_nil body
        (List.cons_ne_nil quote q.2))
      exact hlast d ds rfl hds
    exact ⟨c :: body, .plain hne hc hbody, rfl⟩

theorem takeDigits_takeMinus_ne_nil (h : c.isDigit = true) (cs : List Char) :
    (takeDigits (takeMinus (c :: cs)).2).1 ≠ [] := by
  have hminus : c ≠ '-' := ne_of_isDigit h rfl
  simp [takeMinus, hminus, takeDigits, h]

/-- What the scanner takes is a word, unless it is a fault. -/
theorem next_word (h : (next c cs).1.isFault = false) :
    ∃ w, Word (next c cs).1 w ∧ c :: cs = w ++ (next c cs).2 := by
  revert h
  fun_cases next c cs with
  | case1 => exact fun _ => ⟨['['], .symbol .openBracket, rfl⟩
  | case2 => exact fun _ => ⟨[']'], .symbol .closeBracket, rfl⟩
  | case3 => exact fun _ => ⟨['\x7b'], .symbol .openBrace, rfl⟩
  | case4 => exact fun _ => ⟨['\x7d'], .symbol .closeBrace, rfl⟩
  | case5 => exact fun _ => ⟨[','], .symbol .comma, rfl⟩
  | case6 rest => exact fun _ => ⟨['=', '>'], .symbol .arrow, rfl⟩
  | case7 d rest hd =>
    have hdigits : (takeDigits (d :: rest)).1 ≠ [] := by simp [takeDigits, hd]
    exact fun _ => ⟨_, .number (isNumber_takeNumber (by exact hdigits)),
      (takeNumber_append _).symm⟩
  | case9 =>
    have hdigits := takeDigits_takeMinus_ne_nil ‹c.isDigit = true› cs
    exact fun _ => ⟨_, .number (isNumber_takeNumber hdigits), (takeNumber_append _).symm⟩
  | case10 =>
    obtain ⟨body, hbody, rfl⟩ := exists_body ‹takeString c cs = .ok _›
    exact fun _ => ⟨c :: (body ++ [c]), .string ‹c = '\'' ∨ c = '"'› hbody, by simp⟩
  | case13 =>
    exact fun _ => ⟨_, .name (isName_takeName ‹isNameStart c = true› cs),
      by simp [takeName_append]⟩
  | _ =>
    intro hfault
    cases hfault

theorem IsNumber.next_eq {w : List Char} (h : IsNumber w) (hw : w ++ rest = c :: cs) :
    next c cs = (.number (takeNumber (c :: cs)).1, (takeNumber (c :: cs)).2) := by
  cases h with
  | @mk ms ws fs ps minus ne whole fraction power =>
    obtain ⟨d, ds, rfl⟩ := List.exists_cons_of_ne_nil ne
    have hd : d.isDigit = true := List.all_eq_true.1 whole d (by simp)
    rcases minus with rfl | rfl
    · obtain ⟨rfl, rfl⟩ := List.cons.inj hw
      exact next_of_isDigit hd
    · obtain ⟨rfl, rfl⟩ := List.cons.inj hw
      exact if_pos hd

/-- Where a word stands, the scanner takes a word that is at least as long, and the same lexeme if
it is that word. -/
theorem next_of_word {w : List Char} (h : Word l w) (hw : w ++ rest = c :: cs) :
    ∃ k v us, next c cs = (k, us) ∧ Word k v ∧ v ++ us = c :: cs ∧ w.length ≤ v.length ∧
      (v = w → k = l) := by
  cases h with
  | symbol s =>
    refine ⟨.symbol s, s.text.toList, rest, ?_, .symbol s, hw, le_rfl, fun _ => rfl⟩
    cases s <;> (obtain ⟨rfl, rfl⟩ := List.cons.inj hw; rfl)
  | @name w hname =>
    obtain ⟨d, ds, rfl, hd, htail⟩ := hname.exists_tail
    obtain ⟨rfl, rfl⟩ := List.cons.inj hw
    refine ⟨_, _, _, next_of_isNameStart hd, .name (isName_takeName hd _), ?_, ?_, ?_⟩
    · rw [List.cons_append, takeName_append]
    · simpa using htail.length_le_takeName rest
    · rintro h
      rw [h]
  | @number w hnumber =>
    have hnext := hnumber.next_eq hw
    obtain ⟨v, hv, hvus⟩ : ∃ v, Word (next c cs).1 v ∧ c :: cs = v ++ (next c cs).2 :=
      next_word (by rw [hnext]; rfl)
    rw [hnext] at hv hvus
    cases hv with
    | number hv =>
      refine ⟨_, _, _, hnext, .number hv, hvus.symm, ?_, ?_⟩
      · rw [← hw]
        exact hnumber.length_le rest
      · rintro h
        rw [h]
  | @string q body meaning hquote hbody =>
    have hbody' := hbody.takeString_eq hquote rest
    have hcs : q :: (body ++ q :: rest) = c :: cs := by rw [← hw]; simp
    obtain ⟨rfl, rfl⟩ := List.cons.inj hcs
    refine ⟨_, _, rest, ?_, .string hquote hbody, hw, le_rfl, fun _ => rfl⟩
    rcases hquote with rfl | rfl <;> (unfold next; simp [hbody'])

theorem Word.exists_cons {w : List Char} (h : Word l w) :
    ∃ c cs, w = c :: cs ∧ Text.isBlank c = false := by
  cases h with
  | symbol s => cases s <;> exact ⟨_, _, rfl, by decide⟩
  | name hname =>
    obtain ⟨c, cs, rfl, hc, _⟩ := hname.exists_tail
    exact ⟨c, cs, rfl, not_isBlank_of_isNameStart hc⟩
  | number hnumber =>
    cases hnumber with
    | @mk ms ws fs ps minus ne whole fraction power =>
      obtain ⟨d, ds, rfl⟩ := List.exists_cons_of_ne_nil ne
      have hd : d.isDigit = true := List.all_eq_true.1 whole d (by simp)
      rcases minus with rfl | rfl
      · exact ⟨d, _, rfl, not_isBlank_of_isDigit hd⟩
      · exact ⟨'-', _, rfl, by decide⟩
  | string hquote => rcases hquote with rfl | rfl <;> exact ⟨_, _, rfl, by decide⟩

theorem lexemes_blanks {blanks : List Char} (h : ∀ c ∈ blanks, Text.isBlank c = true)
    (cs : List Char) : lexemes (blanks ++ cs) = lexemes cs := by
  have hdrop : (blanks ++ cs).dropWhile Text.isBlank = cs.dropWhile Text.isBlank :=
    List.dropWhile_append_of_pos h
  rw [lexemes, lexemes, scan, scan]
  split <;> split <;> simp_all

theorem lexemes_of_splits (h : Splits cs ls) : lexemes cs = ls ++ [.stop] := by
  induction h with
  | done blank =>
    have := lexemes_blanks blank []
    rwa [List.append_nil, lexemes_nil] at this
  | @word blanks w rest l ls blank hword longest _ ih =>
    obtain ⟨c, cs, hw, hc⟩ := hword.exists_cons
    have hwc : w ++ rest = c :: (cs ++ rest) := by rw [hw, List.cons_append]
    obtain ⟨k, v, us, hnext, hv, hvus, hle, hkl⟩ := next_of_word hword hwc
    have hlonger : v.length ≤ w.length := longest k v hv ⟨us, hvus.trans hwc.symm⟩
    obtain ⟨rfl, rfl⟩ := List.append_inj (hvus.trans hwc.symm) (by omega)
    obtain rfl := hkl rfl
    rw [lexemes_blanks blank, hwc, lexemes_cons hc hnext hv.not_isFault, ih]
    rfl

/-- A text is blank, or after blanks it goes on with a fault or a word. -/
theorem lexemes_cases (cs : List Char) :
    ((∀ c ∈ cs, Text.isBlank c = true) ∧ lexemes cs = [.stop]) ∨
    ∃ blanks c ds, cs = blanks ++ c :: ds ∧ (∀ c ∈ blanks, Text.isBlank c = true) ∧
      ((next c ds).1.isFault = true ∧ lexemes cs = [(next c ds).1] ∨
        (next c ds).1.isFault = false ∧ lexemes cs = (next c ds).1 :: lexemes (next c ds).2) := by
  have happend := List.takeWhile_append_dropWhile (p := Text.isBlank) (l := cs)
  have hblank : ∀ c ∈ cs.takeWhile Text.isBlank, Text.isBlank c = true :=
    List.all_eq_true.1 List.all_takeWhile
  cases hdrop : cs.dropWhile Text.isBlank with
  | nil =>
    rw [hdrop, List.append_nil] at happend
    rw [happend] at hblank
    have hstop := lexemes_blanks hblank []
    rw [List.append_nil, lexemes_nil] at hstop
    exact .inl ⟨hblank, hstop⟩
  | cons c ds =>
    rw [hdrop] at happend
    refine .inr ⟨_, c, ds, happend.symm, hblank, ?_⟩
    cases hf : (next c ds).1.isFault with
    | true =>
      left
      refine ⟨rfl, ?_⟩
      rw [lexemes, scan]
      split <;> simp_all
    | false =>
      right
      refine ⟨rfl, ?_⟩
      rw [lexemes, lexemes, scan]
      split <;> simp_all

theorem longest_next {w : List Char} (hw : Word (next c cs).1 w)
    (happend : c :: cs = w ++ (next c cs).2) {k : Lexeme} {v : List Char} (hv : Word k v)
    (hbegins : v <+: w ++ (next c cs).2) : v.length ≤ w.length := by
  obtain ⟨us, hus⟩ := hbegins
  obtain ⟨k', v', us', hnext, -, hvus, hle, -⟩ := next_of_word hv (hus.trans happend.symm)
  rw [hnext] at happend
  obtain rfl := List.append_cancel_right (hvus.trans happend)
  exact hle

theorem splits_of_lexemes {ms : List Lexeme} (h : lexemes cs = ls ++ .stop :: ms) :
    Splits cs ls ∧ ms = [] := by
  induction ls generalizing cs with
  | nil =>
    rcases lexemes_cases cs with ⟨hblank, hcs⟩ | ⟨blanks, c, ds, rfl, hblank, hcs⟩
    · rw [hcs] at h
      exact ⟨.done hblank, (List.cons.inj h).2.symm⟩
    · have hstop : (next c ds).1 = .stop := by
        rcases hcs with ⟨_, hcs⟩ | ⟨_, hcs⟩ <;> (rw [hcs] at h; exact (List.cons.inj h).1)
      obtain ⟨w, hw, _⟩ : ∃ w, Word (next c ds).1 w ∧ c :: ds = w ++ (next c ds).2 :=
        next_word (by rw [hstop]; rfl)
      rw [hstop] at hw
      cases hw
  | cons l ls ih =>
    rcases lexemes_cases cs with ⟨_, hcs⟩ | ⟨blanks, c, ds, rfl, hblank, ⟨_, hcs⟩ | ⟨hf, hcs⟩⟩
    · rw [hcs] at h
      simp at h
    · rw [hcs] at h
      simp at h
    · rw [hcs, List.cons_append] at h
      obtain ⟨rfl, hrest⟩ := List.cons.inj h
      obtain ⟨hsplits, hms⟩ := ih hrest
      obtain ⟨w, hw, happend⟩ := next_word hf
      refine ⟨?_, hms⟩
      rw [happend]
      exact .word hblank hw (fun k v => longest_next hw happend) hsplits

/-- A text splits into words exactly if the scanner finds the lexemes of these words. -/
theorem splits_iff : Splits cs ls ↔ lexemes cs = ls ++ [.stop] :=
  ⟨lexemes_of_splits, fun h => (splits_of_lexemes h).1⟩

theorem Splits.not_isFault (h : Splits cs ls) : ∀ l ∈ ls, l.isFault = false := by
  induction h with
  | done => simp
  | word _ hword _ _ ih => exact List.forall_mem_cons.2 ⟨hword.not_isFault, ih⟩

theorem Splits.isName {s : String} (h : Splits s.toList (.name s :: ls)) : IsName s.toList := by
  generalize hcs : s.toList = cs at h
  cases h with
  | @word blanks w rest _ _ blank hword longest others =>
    generalize hl : Lexeme.name s = l at hword
    cases hword with
    | name hname =>
      -- the word is the text, so nothing stands before or after it
      have hw : s.toList = w := by rw [Lexeme.name.inj hl, String.toList_ofList]
      rw [← hcs, hw]
      exact hname
    | _ => cases hl

end TypeLattice
