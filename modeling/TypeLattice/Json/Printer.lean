import TypeLattice.Json.Basic
/-!
# Writing JSON

JSON as text, with each element and each entry on a line of its own, two spaces further in than
what is around it.
-/

namespace TypeLattice.Json

def hexDigit (n : Nat) : Char := Nat.digitChar n

/-- A character inside the quotes. -/
def stringChar (c : Char) : List Char :=
  if c = '"' ∨ c = '\\' then ['\\', c]
  else if c = '\x08' then ['\\', 'b']
  else if c = '\x0c' then ['\\', 'f']
  else if c = '\n' then ['\\', 'n']
  else if c = '\r' then ['\\', 'r']
  else if c = '\t' then ['\\', 't']
  else if c.toNat < 0x20 then
    ['\\', 'u', '0', '0', hexDigit (c.toNat / 16), hexDigit (c.toNat % 16)]
  else [c]

def stringText (s : String) : String :=
  String.ofList ('"' :: s.toList.flatMap stringChar ++ ['"'])

def numberText : JsonNumber → String
  | .integer i => toString i
  | .float x => jsonLayout.text x

/-- A new line with so many steps of indentation. -/
def newLine (depth : Nat) : String := String.ofList ('\n' :: List.replicate (2 * depth) ' ')

/-- Lines with a comma at the end of each but the last. -/
def lines (depth : Nat) : List String → String
  | [] => ""
  | [x] => newLine depth ++ x
  | x :: xs => newLine depth ++ x ++ "," ++ lines depth xs

/-- Lines between brackets or braces. -/
def enclosed (opening closing : String) (depth : Nat) (xs : List String) : String :=
  if xs.isEmpty then opening ++ closing
  else opening ++ lines (depth + 1) xs ++ newLine depth ++ closing

mutual

/-- The text of JSON at a given depth. -/
def prettyAt (depth : Nat) : Json → String
  | .null => "null"
  | .bool b => if b then "true" else "false"
  | .number n => numberText n
  | .string s => stringText s
  | .array xs => enclosed "[" "]" depth (prettyList (depth + 1) xs)
  | .object fs => enclosed "\x7b" "\x7d" depth (prettyFields (depth + 1) fs)

def prettyList (depth : Nat) : List Json → List String
  | [] => []
  | x :: xs => prettyAt depth x :: prettyList depth xs

def prettyFields (depth : Nat) : List (String × Json) → List String
  | [] => []
  | (k, x) :: fs => (stringText k ++ ": " ++ prettyAt depth x) :: prettyFields depth fs

end

def pretty (j : Json) : String := prettyAt 0 j

end TypeLattice.Json
