import TypeLattice.Text.Printable
/-!
# Escaped text

Text in double quotes on one line, with escapes for what could not be seen.
-/

namespace TypeLattice.Text

def hexDigits (n : Nat) : List Char := Nat.toDigits 16 n

/-- A character inside the quotes. -/
def escapedChar (c : Char) : List Char :=
  if c = '\t' then ['\\', 't']
  else if c = '\r' then ['\\', 'r']
  else if c = '\n' then ['\\', 'n']
  else if c = '\x00' then ['\\', '0']
  else if c = '"' ∨ c = '\\' then ['\\', c]
  else if isPrintable c then [c]
  else '\\' :: 'u' :: '{' :: hexDigits c.toNat ++ ['}']

def escaped (s : String) : String := String.ofList ('"' :: s.toList.flatMap escapedChar ++ ['"'])

end TypeLattice.Text
