import TypeLattice.Error
import TypeLattice.Text.Escaped
import TypeLattice.Decimal.Layout
/-!
# JSON

JSON as data, and what can be wrong with a JSON text: it may be malformed, it may end too early, or
what it says may not fit what is asked for.
-/

namespace TypeLattice

/-- A number in JSON: an integer that fits in 64 bits with or without a sign, or a float. -/
inductive JsonNumber where
  | integer (i : Int)
  | float (x : Binary64)
  deriving DecidableEq, Repr

inductive Json where
  | null
  | bool (b : Bool)
  | number (n : JsonNumber)
  | string (s : String)
  | array (xs : List Json)
  | object (fields : List (String × Json))
  deriving Repr

/-- What stands where something else was expected. -/
inductive JsonFound where
  | null
  | bool (b : Bool)
  | number (n : JsonNumber)
  | string (s : String)
  | sequence
  | map
  deriving DecidableEq, Repr

def inBackticks (s : String) : String := "`" ++ s ++ "`"

def JsonFound.text : JsonFound → String
  | .null => "null"
  | .bool b => "boolean " ++ inBackticks (if b then "true" else "false")
  | .number (.integer i) => "integer " ++ inBackticks (toString i)
  | .number (.float x) => "floating point " ++ inBackticks (jsonLayout.text x)
  | .string s => "string " ++ Text.escaped s
  | .sequence => "sequence"
  | .map => "map"

/-- How JSON that is well formed may not fit. -/
inductive JsonMismatch where
  | outOfRange (i : Int)
  | mistyped (found : JsonFound) (expected : String)
  | missingField (name : String)
  | duplicateField (name : String)
  | unknownField (name : String) (known : List String)
  | tooShort (length : Nat) (expected : String)
  | noVariant (name : String)
  | type (e : TypeError)
  | iterator
  deriving DecidableEq, Repr

/-- The names that are known, as a choice. -/
def choiceText : List String → String
  | [] => "there are no fields"
  | [a] => "expected " ++ inBackticks a
  | [a, b] => "expected " ++ inBackticks a ++ " or " ++ inBackticks b
  | names => "expected one of " ++ ", ".intercalate (names.map inBackticks)

def JsonMismatch.message : JsonMismatch → String
  | .outOfRange i => "integer " ++ toString i ++ " is out of range"
  | .mistyped found expected => "invalid type: " ++ found.text ++ ", expected " ++ expected
  | .missingField name => "missing field " ++ inBackticks name
  | .duplicateField name => "duplicate field " ++ inBackticks name
  | .unknownField name known => "unknown field " ++ inBackticks name ++ ", " ++ choiceText known
  | .tooShort length expected =>
    "invalid length " ++ toString length ++ ", expected " ++ expected
  | .noVariant name => "data did not match any variant of untagged enum " ++ name
  | .type e => e.message
  | .iterator => "iterator values cannot be serialized"

inductive JsonFault where
  | mismatch (m : JsonMismatch)
  | malformed
  | endOfText
  deriving DecidableEq, Repr

end TypeLattice
