/-!
# Blank characters

The characters with the Unicode property White_Space, and what remains of a text without them at
either end.
-/

namespace TypeLattice.Text

/-- The 25 characters of the property White_Space. -/
def isBlank (c : Char) : Bool :=
  ('\t' ≤ c && c ≤ '\r') || c = ' ' || c = '\u0085' || c = '\u00a0' || c = '\u1680' ||
    ('\u2000' ≤ c && c ≤ '\u200a') || c = '\u2028' || c = '\u2029' || c = '\u202f' ||
    c = '\u205f' || c = '\u3000'

/-- The table has all that is white space in ASCII. -/
theorem isBlank_of_isWhitespace {c : Char} (h : c.isWhitespace) : isBlank c := by
  simp only [Char.isWhitespace, Bool.or_eq_true, decide_eq_true_eq] at h
  rcases h with ((h | h) | h) | h <;> subst h <;> decide

/-- The characters of a text between its blank ends. -/
def trimmed (s : String) : List Char :=
  ((s.toList.dropWhile isBlank).reverse.dropWhile isBlank).reverse

/-- A name that could not be seen. -/
def allBlank (s : String) : Bool := s.toList.all isBlank

end TypeLattice.Text
