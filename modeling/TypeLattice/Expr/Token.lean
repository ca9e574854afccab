import TypeLattice.Error
import TypeLattice.Text.Blank
/-!
# Tokens of type expressions

The text of a type expression as a list of tokens, each with the text from it on. Where no token can
be read the list ends with the fault, which counts only once everything before it has been used.
Each reader of a part of a token takes it off the front of a text and returns it with the rest.
-/

namespace TypeLattice

inductive Symbol where
  | openBracket | closeBracket | openBrace | closeBrace | comma | arrow
  deriving DecidableEq, Repr

def Symbol.text : Symbol → String
  | .openBracket => "["
  | .closeBracket => "]"
  | .openBrace => "\x7b"
  | .closeBrace => "\x7d"
  | .comma => ","
  | .arrow => "=>"

inductive Lexeme where
  | symbol (s : Symbol)
  | name (s : String)
  | string (s : String)
  | number (cs : List Char)
  /-- The end of the text. -/
  | stop
  /-- No token can be read, because of a fault where the given text begins. -/
  | fault (f : ParseFault) (here : List Char)
  deriving DecidableEq, Repr

def Lexeme.isFault : Lexeme → Bool
  | .fault .. => true
  | _ => false

/-- A token and the text from its first character on. -/
structure Token where
  lexeme : Lexeme
  here : List Char
  deriving DecidableEq, Repr

namespace Token

def isNameStart (c : Char) : Bool := c.isAlpha || c = '_'

def isNameChar (c : Char) : Bool := c.isAlphanum || c = '_'

/-- A name goes on through `::` only if a letter follows. -/
def takeName : List Char → List Char × List Char
  | ':' :: ':' :: c :: cs =>
    if c.isAlpha then (':' :: ':' :: c :: (takeName cs).1, (takeName cs).2)
    else ([], ':' :: ':' :: c :: cs)
  | c :: cs =>
    if isNameChar c then (c :: (takeName cs).1, (takeName cs).2)
    else ([], c :: cs)
  | [] => ([], [])

def takeDigits (cs : List Char) : List Char × List Char :=
  (cs.takeWhile Char.isDigit, cs.dropWhile Char.isDigit)

def takeMinus : List Char → List Char × List Char
  | '-' :: cs => (['-'], cs)
  | cs => ([], cs)

/-- A point belongs to a number only if a digit follows. -/
def takeFraction : List Char → List Char × List Char
  | '.' :: c :: cs =>
    if c.isDigit then ('.' :: (takeDigits (c :: cs)).1, (takeDigits (c :: cs)).2)
    else ([], '.' :: c :: cs)
  | cs => ([], cs)

def takeSign : List Char → List Char × List Char
  | c :: cs => if c = '+' ∨ c = '-' then ([c], cs) else ([], c :: cs)
  | [] => ([], [])

/-- The mark of an exponent belongs to a number even if no digit follows. -/
def takeExponent : List Char → List Char × List Char
  | c :: cs =>
    if c = 'e' ∨ c = 'E' then
      let sign := takeSign cs
      let digits := takeDigits sign.2
      (c :: sign.1 ++ digits.1, digits.2)
    else ([], c :: cs)
  | [] => ([], [])

def takeNumber (cs : List Char) : List Char × List Char :=
  let minus := takeMinus cs
  let whole := takeDigits minus.2
  let fraction := takeFraction whole.2
  let exponent := takeExponent fraction.2
  (minus.1 ++ whole.1 ++ fraction.1 ++ exponent.1, exponent.2)

/-- The character that stands for itself, a line feed or a tab after a backslash. -/
def escaped? (c : Char) : Option Char :=
  if c = '\\' ∨ c = '\'' ∨ c = '"' then some c
  else if c = 'n' then some '\n'
  else if c = 't' then some '\t'
  else none

/-- The characters of a string up to its closing quote. The only fault besides a missing quote is
an escape that is not known, and then the text from the character after the backslash on is
returned. -/
def takeString (quote : Char) : List Char → Except (Option (List Char)) (List Char × List Char)
  | [] => .error none
  | ['\\'] => .error (some [])
  | '\\' :: c :: cs =>
    match escaped? c with
    | some d => (takeString quote cs).map fun p => (d :: p.1, p.2)
    | none => .error (some (c :: cs))
  | c :: cs =>
    if c = quote then .ok ([], cs)
    else (takeString quote cs).map fun p => (c :: p.1, p.2)

/-- The lexeme at the front of a text whose first character is no blank, and the rest. -/
def next (c : Char) (cs : List Char) : Lexeme × List Char :=
  match c, cs with
  | '[', rest => (.symbol .openBracket, rest)
  | ']', rest => (.symbol .closeBracket, rest)
  | '{', rest => (.symbol .openBrace, rest)
  | '}', rest => (.symbol .closeBrace, rest)
  | ',', rest => (.symbol .comma, rest)
  | '=', '>' :: rest => (.symbol .arrow, rest)
  | '-', d :: rest =>
    if d.isDigit then (.number (takeNumber ('-' :: d :: rest)).1, (takeNumber ('-' :: d :: rest)).2)
    else (.fault (.invalidCharacter '-') ('-' :: d :: rest), d :: rest)
  | c, rest =>
    if c.isDigit then (.number (takeNumber (c :: rest)).1, (takeNumber (c :: rest)).2)
    else if c = '\'' ∨ c = '"' then
      match takeString c rest with
      | .ok p => (.string (String.ofList p.1), p.2)
      | .error none => (.fault .unterminatedString (c :: rest), rest)
      | .error (some here) => (.fault .invalidEscape here, rest)
    else if isNameStart c then
      (.name (String.ofList (c :: (takeName rest).1)), (takeName rest).2)
    else (.fault (.invalidCharacter c) (c :: rest), rest)

theorem takeName_append (cs : List Char) : (takeName cs).1 ++ (takeName cs).2 = cs := by
  fun_induction takeName cs <;> simp_all

theorem takeDigits_append (cs : List Char) : (takeDigits cs).1 ++ (takeDigits cs).2 = cs :=
  List.takeWhile_append_dropWhile

theorem takeMinus_append (cs : List Char) : (takeMinus cs).1 ++ (takeMinus cs).2 = cs := by
  fun_cases takeMinus cs <;> rfl

theorem takeFraction_append (cs : List Char) :
    (takeFraction cs).1 ++ (takeFraction cs).2 = cs := by
  fun_cases takeFraction cs with
  | case1 c cs => simp [takeDigits_append]
  | case2 => rfl
  | case3 => rfl

theorem takeSign_append (cs : List Char) : (takeSign cs).1 ++ (takeSign cs).2 = cs := by
  fun_cases takeSign cs <;> rfl

theorem takeExponent_append (cs : List Char) :
    (takeExponent cs).1 ++ (takeExponent cs).2 = cs := by
  fun_cases takeExponent cs with
  | case1 c cs _ sign digits =>
    simp [sign, digits, takeDigits_append, takeSign_append]
  | case2 => rfl
  | case3 => rfl

theorem takeNumber_append (cs : List Char) : (takeNumber cs).1 ++ (takeNumber cs).2 = cs := by
  simp only [takeNumber, List.append_assoc, takeExponent_append, takeFraction_append,
    takeDigits_append, takeMinus_append]

theorem takeNumber_ne_nil {c : Char} {cs : List Char} (h : c.isDigit ∨ c = '-') :
    (takeNumber (c :: cs)).1 ≠ [] := by
  by_cases hm : c = '-'
  · simp [takeNumber, takeMinus, hm]
  · have hc := h.resolve_right hm
    have : takeMinus (c :: cs) = ([], c :: cs) := by
      unfold takeMinus
      split <;> simp_all
    simp [takeNumber, this, takeDigits, hc]

theorem length_takeNumber_lt {c : Char} {cs : List Char} (h : c.isDigit ∨ c = '-') :
    (takeNumber (c :: cs)).2.length < (c :: cs).length := by
  have happ := congrArg List.length (takeNumber_append (c :: cs))
  have hne := List.length_pos_iff.2 (@takeNumber_ne_nil c cs h)
  rw [List.length_append] at happ
  omega

theorem length_takeName_le (cs : List Char) : (takeName cs).2.length ≤ cs.length := by
  have := congrArg List.length (takeName_append cs)
  rw [List.length_append] at this
  omega

theorem length_takeString_lt {quote : Char} {cs : List Char} {p : List Char × List Char}
    (h : takeString quote cs = .ok p) : p.2.length < cs.length := by
  fun_induction takeString quote cs generalizing p with
  | case1 => cases h
  | case2 => cases h
  | case3 c cs d hd ih =>
    obtain ⟨q, hq, rfl⟩ : ∃ q, takeString quote cs = .ok q ∧ (d :: q.1, q.2) = p := by
      cases ht : takeString quote cs <;> simp_all [Except.map]
    have := ih hq
    simp only [List.length_cons]
    omega
  | case4 => cases h
  | case5 c cs =>
    cases h
    simp
  | case6 c cs _ _ _ ih =>
    obtain ⟨q, hq, rfl⟩ : ∃ q, takeString quote cs = .ok q ∧ (c :: q.1, q.2) = p := by
      cases ht : takeString quote cs <;> simp_all [Except.map]
    have := ih hq
    simp only [List.length_cons]
    omega

theorem length_next_le (c : Char) (cs : List Char) : (next c cs).2.length ≤ cs.length := by
  fun_cases next c cs with
  | case6 rest => simp
  | case7 d rest hd =>
    exact Nat.le_of_lt_succ (@length_takeNumber_lt '-' (d :: rest) (.inr rfl))
  | case9 => exact Nat.le_of_lt_succ (length_takeNumber_lt (.inl ‹_›))
  | case10 => exact Nat.le_of_lt (length_takeString_lt ‹_›)
  | case13 => exact length_takeName_le cs
  | _ => simp

theorem length_dropWhile_le (p : Char → Bool) (cs : List Char) :
    (cs.dropWhile p).length ≤ cs.length := by
  have := congrArg List.length (List.takeWhile_append_dropWhile (p := p) (l := cs))
  rw [List.length_append] at this
  omega

/-- The tokens of a text. The last one is the end of the text, or a fault. -/
def scan (cs : List Char) : List Token :=
  match _h : cs.dropWhile Text.isBlank with
  | [] => [⟨.stop, []⟩]
  | c :: rest =>
    let p := next c rest
    if p.1.isFault then [⟨p.1, c :: rest⟩] else ⟨p.1, c :: rest⟩ :: scan p.2
termination_by cs.length
decreasing_by
  refine Nat.lt_of_le_of_lt (length_next_le c rest) ?_
  have := length_dropWhile_le Text.isBlank cs
  rw [_h, List.length_cons] at this
  exact this

end Token
end TypeLattice
