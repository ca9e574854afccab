/-!
# Quoted text

Text in single quotes. A backslash stands before each backslash and each single quote of the text;
all other characters stand for themselves.
-/

namespace TypeLattice.Text

def quotedChar (c : Char) : List Char :=
  if c = '\\' ∨ c = '\'' then ['\\', c] else [c]

def quotedChars (cs : List Char) : List Char :=
  '\'' :: cs.flatMap quotedChar ++ ['\'']

/-- A text as it is written in types and values. -/
def quoted (s : String) : String := String.ofList (quotedChars s.toList)

@[simp] theorem toList_quoted (s : String) : (quoted s).toList = quotedChars s.toList := by
  simp [quoted]

end TypeLattice.Text
