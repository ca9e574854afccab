import TypeLattice.Expr.Token
import TypeLattice.Text.Quoted
import TypeLattice.Proofs.Numerals

/-!
# Spelling

A row of lexemes is written with a blank after each comma and on either side of each arrow. Where
no two words stand side by side, the scanner finds the same lexemes again.
-/
namespace TypeLattice

open Token

variable {c : Char} {cs rest : List Char} {l : Lexeme} {ls ms : List Lexeme}

/-- What follows a word is a symbol or a blank. -/
def delimiters : List Char := [',', ' ', '[', ']', '{', '}']

theorem not_isNameChar_of_delimiter (h : c ∈ delimiters) :
    isNameChar c = false ∧ c ≠ ':' ∧ c ≠ '.' := by
  simp only [delimiters, List.mem_cons, List.not_mem_nil, or_false] at h
  rcases h with rfl | rfl | rfl | rfl | rfl | rfl <;> decide

theorem not_isDigit_of_delimiter (h : c ∈ delimiters) : c.isDigit = false := by
  have hc := (not_isNameChar_of_delimiter h).1
  simp only [isNameChar, Char.isAlphanum, Bool.or_eq_false_iff] at hc
  exact hc.1.2

theorem ne_of_delimiter {d : Char} (h : c ∈ delimiters) (hd : isNameChar d = true) : c ≠ d := by
  rintro rfl
  rw [(not_isNameChar_of_delimiter h).1] at hd
  cases hd

/-- The text is at its end, or goes on with a symbol or a blank. -/
def Ends (cs : List Char) : Prop := ∀ c ∈ cs.head?, c ∈ delimiters

theorem ends_nil : Ends [] := fun _ h => by cases h

theorem Ends.noDigit (h : Ends rest) : NoDigit rest := fun c hc =>
  not_isDigit_of_delimiter (h c hc)

theorem toNat_of_isBlank (h : Text.isBlank c = true) : c.toNat ≤ 32 ∨ 133 ≤ c.toNat := by
  simp only [Text.isBlank, Bool.or_eq_true, Bool.and_eq_true, decide_eq_true_eq] at h
  rcases h with ((((((((((h | h) | h) | h) | h) | h) | h) | h) | h) | h) | h)
  case inl.inl.inl.inl.inl.inl.inl.inl.inl.inl =>
    have hle := UInt32.le_iff_toNat_le.1 h.2
    exact .inl (hle.trans (by decide))
  case inl.inl.inl.inl.inl.inr =>
    have hle := UInt32.le_iff_toNat_le.1 h.1
    exact .inr (le_trans (by decide) hle)
  all_goals
    subst h
    decide

theorem not_isBlank (h : 33 ≤ c.toNat) (h' : c.toNat ≤ 132) : Text.isBlank c = false := by
  by_contra hb
  have := toNat_of_isBlank (Bool.eq_true_of_not_eq_false hb)
  omega

theorem not_isBlank_of_isDigit (h : c.isDigit = true) : Text.isBlank c = false := by
  have hc := Char.isDigit_iff_toNat.1 h
  exact not_isBlank (le_trans (by decide) hc.1) (hc.2.trans (by decide))

theorem toNat_of_isNameStart (h : isNameStart c = true) : 65 ≤ c.toNat ∧ c.toNat ≤ 122 := by
  simp only [isNameStart, Char.isAlpha, Char.isUpper, Char.isLower, Bool.or_eq_true,
    Bool.and_eq_true, decide_eq_true_eq] at h
  rcases h with (⟨h, h'⟩ | ⟨h, h'⟩) | rfl
  · exact ⟨UInt32.le_iff_toNat_le.1 h, (UInt32.le_iff_toNat_le.1 h').trans (by decide)⟩
  · exact ⟨le_trans (by decide) (UInt32.le_iff_toNat_le.1 h), UInt32.le_iff_toNat_le.1 h'⟩
  · decide

theorem not_isBlank_of_isNameStart (h : isNameStart c = true) : Text.isBlank c = false := by
  have hc := toNat_of_isNameStart h
  exact not_isBlank (by omega) (by omega)

theorem not_isDigit_of_isNameStart (h : isNameStart c = true) : c.isDigit = false := by
  by_contra hd
  have hc := Char.isDigit_iff_toNat.1 (Bool.eq_true_of_not_eq_false hd)
  have hn := toNat_of_isNameStart h
  have : '9'.toNat = 57 := rfl
  omega

def lexemes (cs : List Char) : List Lexeme := (scan cs).map (·.lexeme)

theorem lexemes_nil : lexemes [] = [.stop] := by
  rw [lexemes, scan]
  rfl

theorem lexemes_blank (cs : List Char) : lexemes (' ' :: cs) = lexemes cs := by
  have h : (' ' :: cs).dropWhile Text.isBlank = cs.dropWhile Text.isBlank := by
    rw [List.dropWhile_cons_of_pos (by decide)]
  rw [lexemes, lexemes, scan, scan]
  split <;> split <;> simp_all

theorem lexemes_cons (hb : Text.isBlank c = false) (hn : next c cs = (l, rest))
    (hf : l.isFault = false) : lexemes (c :: cs) = l :: lexemes rest := by
  have h : (c :: cs).dropWhile Text.isBlank = c :: cs := by
    rw [List.dropWhile_cons_of_neg (by simp [hb])]
  rw [lexemes, lexemes, scan]
  split
  · simp_all
  · simp_all

/-- The name is read as one lexeme. -/
def Identifier (s : String) : Prop := lexemes s.toList = [.name s, .stop]

theorem next_of_isNameStart (h : isNameStart c = true) :
    next c cs = (.name (String.ofList (c :: (takeName cs).1)), (takeName cs).2) := by
  have hd := not_isDigit_of_isNameStart h
  unfold next
  split
  case h_8 =>
    have hq : ¬(c = '\'' ∨ c = '"') := by
      rintro (rfl | rfl) <;> exact absurd h (by decide)
    simp only [hd, h, hq, if_true, if_false, Bool.false_eq_true]
  all_goals exact absurd h (by decide)

theorem next_eq_name {s : String} (h : (next c cs).1 = .name s) :
    isNameStart c = true ∧ s = String.ofList (c :: (takeName cs).1) := by
  have hc : isNameStart c = true := by
    by_contra hc
    unfold next at h
    split at h
    case h_8 =>
      simp only [hc, if_false] at h
      split_ifs at h
      split at h <;> cases h
    case h_7 => split_ifs at h
    all_goals cases h
  rw [next_of_isNameStart hc] at h
  exact ⟨hc, (Lexeme.name.inj h).symm⟩

/-- A name begins with what begins names, and goes on to its end. -/
theorem Identifier.exists_eq {s : String} (h : Identifier s) :
    ∃ c cs, s.toList = c :: cs ∧ isNameStart c = true ∧ takeName cs = (cs, []) := by
  unfold Identifier lexemes at h
  rw [scan] at h
  split at h
  · simp at h
  · rename_i c cs hdrop
    have hname : (next c cs).1 = .name s := by
      by_cases hf : (next c cs).1.isFault = true
      · simp [hf] at h
      · simp only [hf, if_false, Bool.false_eq_true] at h
        exact (List.cons.inj h).1
    obtain ⟨hc, hs⟩ := next_eq_name hname
    have hchars : s.toList = c :: (takeName cs).1 := by rw [hs, String.toList_ofList]
    have happend := takeName_append cs
    have hrest : (takeName cs).2 = [] := by
      have hle := length_dropWhile_le Text.isBlank s.toList
      have hlength := congrArg List.length happend
      rw [hdrop, hchars, List.length_cons, List.length_cons] at hle
      rw [List.length_append] at hlength
      exact List.length_eq_zero_iff.1 (by omega)
    rw [hrest, List.append_nil] at happend
    exact ⟨c, cs, by rw [hchars, happend], hc, Prod.ext happend hrest⟩

theorem not_colon_of_isNameChar (h : isNameChar c = true) : c ≠ ':' := by
  rintro rfl
  exact absurd h (by decide)

theorem takeName_append_ends (h : takeName cs = (cs, [])) (hr : Ends rest) :
    takeName (cs ++ rest) = (cs, rest) := by
  fun_induction takeName cs with
  | case1 c cs hc ih =>
    obtain ⟨hcs, hnil⟩ := Prod.mk.inj h
    have htake := ih (Prod.ext (by simpa using hcs) hnil)
    simp [takeName, hc, htake]
  | case2 c cs hc => cases (Prod.mk.inj h).2
  | case3 c cs _ hc ih =>
    obtain ⟨hcs, hnil⟩ := Prod.mk.inj h
    have htake := ih (Prod.ext (by simpa using hcs) hnil)
    simp [takeName, not_colon_of_isNameChar hc, hc, htake]
  | case4 c cs _ hc => cases (Prod.mk.inj h).2
  | case5 =>
    cases rest with
    | nil => rfl
    | cons d ds =>
      obtain ⟨hn, hd, _⟩ := not_isNameChar_of_delimiter (hr d rfl)
      simp [takeName, hd, hn]

theorem lexemes_name {s : String} (h : Identifier s) (hr : Ends rest) :
    lexemes (s.toList ++ rest) = .name s :: lexemes rest := by
  obtain ⟨c, cs, hs, hc, hcs⟩ := h.exists_eq
  have hname : String.ofList (c :: cs) = s := by rw [← hs, String.ofList_toList]
  have hnext : next c (cs ++ rest) = (.name s, rest) := by
    rw [next_of_isNameStart hc, takeName_append_ends hcs hr, hname]
  rw [hs, List.cons_append, lexemes_cons (not_isBlank_of_isNameStart hc) hnext rfl]

theorem identifier_of {s : String} (hs : s.toList = c :: cs) (hc : isNameStart c = true)
    (hcs : takeName cs = (cs, [])) : Identifier s := by
  have hname : String.ofList (c :: cs) = s := by rw [← hs, String.ofList_toList]
  have hnext : next c cs = (.name s, []) := by rw [next_of_isNameStart hc, hcs, hname]
  rw [Identifier, hs, lexemes_cons (not_isBlank_of_isNameStart hc) hnext rfl, lexemes_nil]

/-- Letters only, and at least one. -/
theorem identifier_of_letters {s : String} (hs : s.toList ≠ [])
    (h : s.toList.all Char.isAlpha = true) : Identifier s := by
  obtain ⟨c, cs, hcs⟩ := List.exists_cons_of_ne_nil hs
  rw [hcs, List.all_cons, Bool.and_eq_true] at h
  refine identifier_of hcs (by simp [isNameStart, h.1]) ?_
  have hall := h.2
  clear hcs h
  induction cs with
  | nil => rfl
  | cons d ds ih =>
    rw [List.all_cons, Bool.and_eq_true] at hall
    have hd : isNameChar d = true := by simp [isNameChar, Char.isAlphanum, hall.1]
    simp [takeName, hd, not_colon_of_isNameChar hd, ih hall.2]

theorem takeDigits_append_of {ds : List Char} (hd : ds.all Char.isDigit = true)
    (hr : NoDigit rest) : takeDigits (ds ++ rest) = (ds, rest) := by
  obtain ⟨htake, hdrop⟩ := span_digits hd hr
  rw [takeDigits, htake, hdrop]

namespace Numeral

variable (n : Numeral)

theorem takeExponent_power (hr : Ends rest) : takeExponent (n.power ++ rest) = (n.power, rest) := by
  unfold power
  rcases he : n.exponent with _ | ⟨negative, ds⟩
  · cases rest with
    | nil => rfl
    | cons d ds =>
      have he : d ≠ 'e' := ne_of_delimiter (hr d rfl) rfl
      have hE : d ≠ 'E' := ne_of_delimiter (hr d rfl) rfl
      simp [takeExponent, he, hE]
  · obtain ⟨hne, hall⟩ := n.exponent_digits _ he
    have hdigits : takeDigits (ds ++ rest) = (ds, rest) := takeDigits_append_of hall hr.noDigit
    have hsign : takeSign (FloatLayout.signChars negative ++ (ds ++ rest)) =
        (FloatLayout.signChars negative, ds ++ rest) := by
      cases negative
      · obtain ⟨d, ds, rfl⟩ := List.exists_cons_of_ne_nil hne
        have hd : d.isDigit = true := List.all_eq_true.1 hall d (by simp)
        have hnot : ¬(d = '+' ∨ d = '-') := by
          rintro (rfl | rfl) <;> cases hd
        simp [takeSign, FloatLayout.signChars, hnot]
      · rfl
    simp [takeExponent, hsign, hdigits]

theorem takeFraction_point (hr : Ends rest) :
    takeFraction (n.point ++ (n.power ++ rest)) = (n.point, n.power ++ rest) := by
  unfold point
  split_ifs with hf
  · rw [List.nil_append]
    unfold power
    rcases n.exponent with _ | ⟨negative, ds⟩
    · cases rest with
      | nil => rfl
      | cons d ds =>
        have hd : d ≠ '.' := (not_isNameChar_of_delimiter (hr d rfl)).2.2
        simp [takeFraction, hd]
    · rfl
  · have hdigits : takeDigits (n.fraction ++ (n.power ++ rest)) = (n.fraction, n.power ++ rest) :=
      takeDigits_append_of n.fraction_digits (n.noDigit_power hr.noDigit)
    obtain ⟨d, ds, hds⟩ := List.exists_cons_of_ne_nil hf
    have hd : d.isDigit = true := List.all_eq_true.1 n.fraction_digits d (by simp [hds])
    rw [hds] at hdigits ⊢
    rw [List.cons_append] at hdigits
    simp [takeFraction, hd, hdigits]

theorem takeMinus_chars (rest : List Char) :
    takeMinus (n.chars ++ rest) = (FloatLayout.signChars n.negative, n.size ++ rest) := by
  obtain ⟨c, cs, hcs, hc⟩ := n.exists_size_eq
  have hminus : c ≠ '-' := ne_of_isDigit hc rfl
  rw [chars, hcs]
  cases n.negative
  · simp [FloatLayout.signChars, takeMinus, hminus]
  · rfl

theorem takeNumber_chars (hr : Ends rest) : takeNumber (n.chars ++ rest) = (n.chars, rest) := by
  have hwhole : takeDigits (n.whole ++ (n.point ++ (n.power ++ rest))) =
      (n.whole, n.point ++ (n.power ++ rest)) :=
    takeDigits_append_of n.whole_digits (n.noDigit_point (n.noDigit_power hr.noDigit))
  have hsize : n.size ++ rest = n.whole ++ (n.point ++ (n.power ++ rest)) := by simp [size]
  simp only [takeNumber, takeMinus_chars, hsize, hwhole, n.takeFraction_point hr,
    n.takeExponent_power hr]
  simp [chars, size]

end Numeral

theorem next_of_isDigit (h : c.isDigit = true) :
    next c cs = (.number (takeNumber (c :: cs)).1, (takeNumber (c :: cs)).2) := by
  unfold next
  split
  case h_8 => rw [if_pos h]
  all_goals exact absurd h (by decide)

theorem lexemes_number (n : Numeral) (hr : Ends rest) :
    lexemes (n.chars ++ rest) = .number n.chars :: lexemes rest := by
  have htake := n.takeNumber_chars hr
  obtain ⟨c, cs, hcs, hc⟩ := n.exists_size_eq
  cases hn : n.negative
  · have hchars : n.chars = c :: cs := by rw [Numeral.chars, hn, hcs]; rfl
    rw [hchars, List.cons_append] at htake ⊢
    have hnext : next c (cs ++ rest) = (.number (c :: cs), rest) := by
      rw [next_of_isDigit hc, htake]
    rw [lexemes_cons (not_isBlank_of_isDigit hc) hnext rfl]
  · have hchars : n.chars = '-' :: c :: cs := by rw [Numeral.chars, hn, hcs]; rfl
    rw [hchars, List.cons_append, List.cons_append] at htake ⊢
    have hnext : next '-' (c :: (cs ++ rest)) = (.number ('-' :: c :: cs), rest) := by
      have h : next '-' (c :: (cs ++ rest)) =
          (.number (takeNumber ('-' :: c :: (cs ++ rest))).1,
            (takeNumber ('-' :: c :: (cs ++ rest))).2) := if_pos hc
      rw [h, htake]
    rw [lexemes_cons (by decide) hnext rfl]

theorem takeString_quoted (cs rest : List Char) :
    takeString '\'' (cs.flatMap Text.quotedChar ++ '\'' :: rest) = .ok (cs, rest) := by
  induction cs with
  | nil => simp [takeString]
  | cons c cs ih =>
    by_cases hc : c = '\\' ∨ c = '\''
    · have he : escaped? c = some c := by
        rcases hc with rfl | rfl <;> rfl
      simp [Text.quotedChar, hc, takeString, he, ih, Except.map]
    · have hb : c ≠ '\\' := fun h => hc (.inl h)
      have hq : c ≠ '\'' := fun h => hc (.inr h)
      simp [Text.quotedChar, takeString, hb, hq, ih, Except.map]

theorem lexemes_string (s : String) (rest : List Char) :
    lexemes (Text.quotedChars s.toList ++ rest) = .string s :: lexemes rest := by
  have hnext : next '\'' (s.toList.flatMap Text.quotedChar ++ '\'' :: rest) =
      (.string s, rest) := by
    unfold next
    simp [takeString_quoted]
  have hchars : Text.quotedChars s.toList ++ rest =
      '\'' :: (s.toList.flatMap Text.quotedChar ++ '\'' :: rest) := by
    simp [Text.quotedChars]
  rw [hchars, lexemes_cons (by decide) hnext rfl]

namespace Lexeme

def isSymbol : Lexeme → Bool
  | .symbol _ => true
  | _ => false

/-- A lexeme as it is written between others. -/
def spelling : Lexeme → List Char
  | .symbol .comma => [',', ' ']
  | .symbol .arrow => [' ', '=', '>', ' ']
  | .symbol s => s.text.toList
  | .name s => s.toList
  | .string s => Text.quotedChars s.toList
  | .number cs => cs
  | .stop | .fault .. => []

/-- The lexeme is read from its spelling. -/
def Spelled : Lexeme → Prop
  | .symbol _ | .string _ => True
  | .name s => Identifier s
  | .number cs => ∃ n : Numeral, n.chars = cs
  | .stop | .fault .. => False

theorem Spelled.not_isFault (h : l.Spelled) : l.isFault = false := by
  cases l <;> first | rfl | cases h

end Lexeme

def spell (ls : List Lexeme) : List Char := ls.flatMap Lexeme.spelling

@[simp] theorem spell_nil : spell [] = [] := rfl

@[simp] theorem spell_cons (l : Lexeme) (ls : List Lexeme) :
    spell (l :: ls) = l.spelling ++ spell ls := rfl

@[simp] theorem spell_append (ls ms : List Lexeme) : spell (ls ++ ms) = spell ls ++ spell ms :=
  List.flatMap_append

/-- Each lexeme can be spelled, and of any two neighbours one is a symbol. -/
structure Spaced (ls : List Lexeme) : Prop where
  spelled : ∀ l ∈ ls, l.Spelled
  apart : ls.IsChain fun l m => l.isSymbol ∨ m.isSymbol

namespace Spaced

theorem single (h : l.Spelled) : Spaced [l] := ⟨by simpa using h, .singleton l⟩

theorem cons {s : Symbol} (h : Spaced ls) : Spaced (.symbol s :: ls) := by
  refine ⟨List.forall_mem_cons.2 ⟨trivial, h.spelled⟩, ?_⟩
  cases ls with
  | nil => exact .singleton _
  | cons l ls => exact .cons_cons (.inl rfl) h.apart

theorem append {s : Symbol} (h : Spaced ls) (h' : Spaced ms) :
    Spaced (ls ++ .symbol s :: ms) := by
  refine ⟨List.forall_mem_append.2 ⟨h.spelled, (cons (s := s) h').spelled⟩, ?_⟩
  refine List.isChain_append.2 ⟨h.apart, (cons (s := s) h').apart, ?_⟩
  rintro l _ m hm
  obtain rfl := Option.some.inj hm
  exact .inr rfl

end Spaced

theorem lexemes_symbol (s : Symbol) (rest : List Char) :
    lexemes ((Lexeme.symbol s).spelling ++ rest) = .symbol s :: lexemes rest := by
  cases s
  case comma =>
    have hnext : next ',' (' ' :: rest) = (.symbol .comma, ' ' :: rest) := rfl
    show lexemes (',' :: ' ' :: rest) = _
    rw [lexemes_cons (by decide) hnext rfl, lexemes_blank]
  case arrow =>
    have hnext : next '=' ('>' :: ' ' :: rest) = (.symbol .arrow, ' ' :: rest) := rfl
    show lexemes (' ' :: '=' :: '>' :: ' ' :: rest) = _
    rw [lexemes_blank, lexemes_cons (by decide) hnext rfl, lexemes_blank]
  all_goals exact lexemes_cons (by decide) rfl rfl

theorem ends_spelling (h : l.isSymbol = true) (rest : List Char) : Ends (l.spelling ++ rest) := by
  cases l with
  | symbol s =>
    intro c hc
    cases s <;> (obtain rfl := Option.some.inj hc; decide)
  | _ => cases h

theorem lexemes_spelling (h : l.Spelled) (hr : l.isSymbol = true ∨ Ends rest) :
    lexemes (l.spelling ++ rest) = l :: lexemes rest := by
  cases l with
  | symbol s => exact lexemes_symbol s rest
  | name s => exact lexemes_name h (hr.resolve_left (by simp [Lexeme.isSymbol]))
  | string s => exact lexemes_string s rest
  | number cs =>
    obtain ⟨n, rfl⟩ := h
    exact lexemes_number n (hr.resolve_left (by simp [Lexeme.isSymbol]))
  | stop | fault => cases h

/-- A row of lexemes is read from its text in front of another one, if what is there ends the last
lexeme. -/
theorem lexemes_spell_append (h : Spaced ls)
    (hr : ∀ l ∈ ls.getLast?, l.isSymbol = true ∨ Ends rest) :
    lexemes (spell ls ++ rest) = ls ++ lexemes rest := by
  induction ls with
  | nil => rfl
  | cons l ls ih =>
    have hrest : Spaced ls := ⟨(List.forall_mem_cons.1 h.spelled).2, h.apart.tail⟩
    have hends : l.isSymbol = true ∨ Ends (spell ls ++ rest) := by
      cases ls with
      | nil => exact hr l rfl
      | cons m ms =>
        refine (List.isChain_cons_cons.1 h.apart).1.imp id fun hm => ?_
        rw [spell_cons, List.append_assoc]
        exact ends_spelling hm _
    have hlast : ∀ m ∈ ls.getLast?, m.isSymbol = true ∨ Ends rest := by
      intro m hm
      cases ls with
      | nil => cases hm
      | cons k ks => exact hr m (by rwa [List.getLast?_cons_cons])
    rw [spell_cons, List.append_assoc,
      lexemes_spelling (List.forall_mem_cons.1 h.spelled).1 hends, ih hrest hlast]
    rfl

/-- A row of lexemes is read from its text. -/
theorem lexemes_spell (h : Spaced ls) : lexemes (spell ls) = ls ++ [.stop] := by
  have happend : lexemes (spell ls ++ []) = ls ++ lexemes [] :=
    lexemes_spell_append h fun _ _ => .inr ends_nil
  rwa [List.append_nil, lexemes_nil] at happend

/-- The lexemes of the items of a list. -/
def joined : List (List Lexeme) → List Lexeme
  | [] => []
  | [ls] => ls
  | ls :: lss => ls ++ .symbol .comma :: joined lss

variable {lss : List (List Lexeme)}

theorem Spaced.joined (h : ∀ ls ∈ lss, Spaced ls) : Spaced (joined lss) := by
  induction lss with
  | nil => exact ⟨by simp [TypeLattice.joined], .nil⟩
  | cons ls lss ih =>
    have hls := h ls List.mem_cons_self
    have hrest := ih fun ms hm => h ms (List.mem_cons_of_mem _ hm)
    cases lss with
    | nil => exact hls
    | cons ms lss => exact hls.append hrest

/-- The text of a list is the text of its lexemes. -/
theorem commaSeparated_spell (lss : List (List Lexeme)) :
    commaSeparated (lss.map fun ls => String.ofList (spell ls)) =
      String.ofList (spell (joined lss)) := by
  induction lss with
  | nil => rfl
  | cons ls lss ih =>
    cases lss with
    | nil => rfl
    | cons ms lss =>
      rw [List.map_cons] at ih
      simp only [List.map_cons, commaSeparated, joined, spell_append, spell_cons, ih]
      apply String.toList_inj.1
      simp [Lexeme.spelling]

end TypeLattice
