import TypeLattice.Json.Reader
import TypeLattice.Json.Printer
import TypeLattice.Render
/-!
# Values in JSON

Null, truth values, numbers, strings and arrays stand for the values of the same kinds. A type is
written as its text and an object as its attributes; neither is read back. Iterators are not
written.
-/

namespace TypeLattice

/-- A number as a value. Integers have 64 bits with a sign. -/
def JsonNumber.toValue : JsonNumber → Except JsonMismatch Value
  | .integer i =>
    if i ≤ Int64.maxValue.toInt then .ok (.integer (Int64.ofInt i)) else .error (.outOfRange i)
  | .float x => .ok (.float x)

namespace Value

def jsonBuilder : JsonReader.Builder Value where
  null := .undef
  bool := .bool
  number := JsonNumber.toValue
  string := .string
  array := .array
  object := none
  expected := "a value"

/-- The value that a JSON text stands for. -/
def ofJsonText (text : String) : Except JsonFault Value :=
  JsonReader.document (JsonReader.value jsonBuilder JsonReader.nestingLimit) text

mutual

/-- The value that JSON data stand for. -/
def ofJson : Json → Except JsonMismatch Value
  | .null => .ok .undef
  | .bool b => .ok (.bool b)
  | .number n => n.toValue
  | .string s => .ok (.string s)
  | .array xs => do return .array (← ofJsonList xs)
  | .object _ => .error (.mistyped .map "a value")

def ofJsonList : List Json → Except JsonMismatch (List Value)
  | [] => .ok []
  | x :: xs => do
    let v ← ofJson x
    return v :: (← ofJsonList xs)

end

/-- A float as JSON. What is not a number has none. -/
def floatJson (x : Binary64) : Json := if x.isFinite then .number (.float x) else .null

mutual

/-- A value as JSON, given the text of types. -/
def toJson (text : Ty → String) : Value → Except JsonMismatch Json
  | .undef => .ok .null
  | .bool b => .ok (.bool b)
  | .integer i => .ok (.number (.integer i.toInt))
  | .float x => .ok (floatJson x)
  | .string s => .ok (.string s)
  | .array xs => do return .array (← toJsonList text xs)
  | .type t => .ok (.string (text t))
  | .iterator _ _ => .error .iterator
  | .object _ _ fs => do return .object (← toJsonFields text fs)

def toJsonList (text : Ty → String) : List Value → Except JsonMismatch (List Json)
  | [] => .ok []
  | x :: xs => do
    let j ← toJson text x
    return j :: (← toJsonList text xs)

def toJsonFields (text : Ty → String) :
    List (String × Value) → Except JsonMismatch (List (String × Json))
  | [] => .ok []
  | (k, x) :: fs => do
    let j ← toJson text x
    return (k, j) :: (← toJsonFields text fs)

end

end Value

/-- The JSON text of a value. -/
def Store.jsonText (s : Store) (v : Value) : Except JsonMismatch String :=
  (v.toJson s.text).map Json.pretty

end TypeLattice
