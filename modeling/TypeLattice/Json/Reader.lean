import TypeLattice.Json.Number
import TypeLattice.Text.Bytes
/-!
# Reading JSON

JSON texts are read from left to right by readers for what is expected; the first problem ends the
reading, be it a mistake in the text or something that does not fit. Arrays and objects nest at most
127 deep.
-/

namespace TypeLattice

abbrev JsonReader := StateT (List Char) (Except JsonFault)

namespace JsonReader

variable {α : Type}

def nestingLimit : Nat := 127

def mismatch (m : JsonMismatch) : JsonReader α := throw (.mismatch m)

def isSpace (c : Char) : Bool := c = ' ' ∨ c = '\n' ∨ c = '\t' ∨ c = '\r'

/-- The next character that is no space, which is not taken. -/
def peek : JsonReader (Option Char) := do
  let cs := (← get).dropWhile isSpace
  set cs
  return cs.head?

def drop : JsonReader Unit := modify List.tail

/-- The rest of a word. -/
def word : List Char → JsonReader Unit
  | [] => return ()
  | e :: es => do
    match ← get with
    | [] => throw .endOfText
    | c :: cs =>
      if c = e then
        set cs
        word es
      else throw .malformed

def digits : JsonReader (List Char) := do
  let cs ← get
  set (cs.dropWhile Char.isDigit)
  return cs.takeWhile Char.isDigit

/-- At least one digit. -/
def digits1 : JsonReader (List Char) := do
  match ← digits with
  | [] =>
    if (← get) = [] then throw .endOfText else throw .malformed
  | ds => return ds

/-- The digits before the point: a single zero, or any that do not begin with zero. -/
def wholeDigits : JsonReader (List Char) := do
  match ← digits1 with
  | '0' :: _ :: _ => throw .malformed
  | ds => return ds

def sign : JsonReader Bool := do
  match ← get with
  | '-' :: cs =>
    set cs
    return true
  | '+' :: cs =>
    set cs
    return false
  | _ => return false

def float (negative : Bool) (significand : Nat) (exponent : Int) : JsonReader JsonNumber :=
  match scaledFloat? negative significand exponent with
  | some x => return .float x
  | none => throw .malformed

/-- An exponent, if there is one, on top of a given one. -/
def exponentFrom (exponent : Int) : JsonReader (Option Int) := do
  match ← get with
  | c :: cs =>
    if c = 'e' ∨ c = 'E' then
      set cs
      let negative ← sign
      let ds ← digits1
      let e : Int := digitsValue ds
      return some (if negative then exponent - e else exponent + e)
    else return none
  | [] => return none

/-- What may follow the whole digits of a number. Digits that are `left` over from the significand
count in the exponent. -/
def numberAfter (negative : Bool) (significand : Nat) (left : List Char) :
    JsonReader JsonNumber := do
  match ← get with
  | '.' :: cs =>
    set cs
    let ds ← digits1
    let (significand, rest) := takeSignificand significand ds
    let exponent : Int := left.length - (ds.length - rest.length : Nat)
    let exponent := (← exponentFrom exponent).getD exponent
    float negative significand exponent
  | _ =>
    match ← exponentFrom left.length with
    | some e => float negative significand e
    | none =>
      match left, plainNumber? negative significand with
      | [], some n => return n
      | _, _ => float negative significand left.length

def number : JsonReader JsonNumber := do
  let negative := (← get).head? = some '-'
  if negative then drop
  let ds ← wholeDigits
  let (significand, left) := takeSignificand 0 ds
  numberAfter negative significand left

def hexValue? (c : Char) : Option Nat :=
  if c.isDigit then some (c.toNat - '0'.toNat)
  else if 'a' ≤ c ∧ c ≤ 'f' then some (c.toNat - 'a'.toNat + 10)
  else if 'A' ≤ c ∧ c ≤ 'F' then some (c.toNat - 'A'.toNat + 10)
  else none

def hexValues? (cs : List Char) : Option Nat :=
  (cs.mapM hexValue?).map fun ds => ds.foldl (fun n d => 16 * n + d) 0

/-- Four hexadecimal digits. With fewer than four bytes left the text ends too early; a digit is one
byte, so that four bytes of digits are four digits. -/
def hexEscape : JsonReader Nat := do
  let cs ← get
  if Text.byteCount (cs.take 4) < 4 then throw .endOfText
  else
    match hexValues? (cs.take 4) with
    | some n =>
      set (cs.drop 4)
      return n
    | none => throw .malformed

def exactly (c : Char) : JsonReader Unit := do
  match ← get with
  | [] => throw .endOfText
  | d :: cs => if d = c then set cs else throw .malformed

/-- A character by its code units: one, or a leading and a trailing surrogate. -/
def unicodeEscape : JsonReader Char := do
  let n ← hexEscape
  if 0xDC00 ≤ n ∧ n ≤ 0xDFFF then throw .malformed
  else if 0xD800 ≤ n ∧ n ≤ 0xDBFF then
    exactly '\\'
    exactly 'u'
    let m ← hexEscape
    if 0xDC00 ≤ m ∧ m ≤ 0xDFFF then
      return Char.ofNat ((n - 0xD800) * 0x400 + (m - 0xDC00) + 0x10000)
    else throw .malformed
  else return Char.ofNat n

def escape : JsonReader Char := do
  match ← get with
  | [] => throw .endOfText
  | c :: cs =>
    set cs
    match c with
    | '"' | '\\' | '/' => return c
    | 'b' => return '\x08'
    | 'f' => return '\x0c'
    | 'n' => return '\n'
    | 'r' => return '\r'
    | 't' => return '\t'
    | 'u' => unicodeEscape
    | _ => throw .malformed

/-- The characters up to the closing quote, at most one for each character of a bound. -/
def stringWithin : List Char → JsonReader (List Char)
  | [] => throw .endOfText
  | _ :: bound => do
    match ← get with
    | [] => throw .endOfText
    | '"' :: cs =>
      set cs
      return []
    | '\\' :: cs =>
      set cs
      let c ← escape
      return c :: (← stringWithin bound)
    | c :: cs =>
      if c.toNat < 0x20 then throw .malformed
      else
        set cs
        return c :: (← stringWithin bound)

/-- A string whose opening quote has been taken. Each character takes one at least of the text that
is left. -/
def stringRest : JsonReader String := do
  return String.ofList (← stringWithin (← get))

/-- After the opening bracket, or after an element: whether another element follows. -/
def hasElement (first : Bool) : JsonReader Bool := do
  match ← peek with
  | none => throw .endOfText
  | some c =>
    if c = ']' then return false
    else if first then return true
    else if c = ',' then
      drop
      match ← peek with
      | none => throw .endOfText
      | some d => if d = ']' then throw .malformed else return true
    else throw .malformed

/-- A closing bracket or brace. -/
def close (c : Char) : JsonReader Unit := do
  match ← peek with
  | none => throw .endOfText
  | some d => if d = c then drop else throw .malformed

/-- After the opening brace, or after an entry: the key of the next entry. -/
def key? (first : Bool) : JsonReader (Option String) := do
  match ← peek with
  | none => throw .endOfText
  | some c =>
    if c = '}' then return none
    else
      if !first then
        if c = ',' then drop else throw .malformed
      match ← peek with
      | none => throw .endOfText
      | some d =>
        if d = '"' then
          drop
          return some (← stringRest)
        else throw .malformed

def colon : JsonReader Unit := do
  match ← peek with
  | none => throw .endOfText
  | some c => if c = ':' then drop else throw .malformed

/-- The elements up to the closing bracket, at most one for each character of a bound. -/
def elementsWithin (element : JsonReader α) (first : Bool) : List Char → JsonReader (List α)
  | [] => throw .endOfText
  | _ :: bound => do
    if ← hasElement first then
      let x ← element
      return x :: (← elementsWithin element false bound)
    else
      drop
      return []

/-- The elements up to the closing bracket. Each takes a character at least, so the text that is
left is a bound. -/
def elements (element : JsonReader α) : JsonReader (List α) := do
  elementsWithin element true (← get)

/-- The entries up to the closing brace, at most one for each character of a bound, taken up one by
one. The key is known before its value is read. -/
def entriesWithin (entry : α → String → JsonReader α) (first : Bool) :
    List Char → α → JsonReader α
  | [], _ => throw .endOfText
  | _ :: bound, a => do
    match ← key? first with
    | some k => entriesWithin entry false bound (← entry a k)
    | none => return a

def entries (entry : α → String → JsonReader α) (a : α) : JsonReader α := do
  entriesWithin entry true (← get) a

/-- What is made of the parts of a text. Without `object`, objects do not fit. -/
structure Builder (α : Type) where
  null : α
  bool : Bool → α
  number : JsonNumber → Except JsonMismatch α
  string : String → α
  array : List α → α
  object : Option (List (String × α) → α)
  expected : String

/-- Reads a value, given a reader for what is inside arrays and objects, if they may nest. -/
def valueWith (b : Builder α) (inner : Option (JsonReader α)) : JsonReader α := do
  match ← peek with
  | none => throw .endOfText
  | some 'n' =>
    drop
    word ['u', 'l', 'l']
    return b.null
  | some 't' =>
    drop
    word ['r', 'u', 'e']
    return b.bool true
  | some 'f' =>
    drop
    word ['a', 'l', 's', 'e']
    return b.bool false
  | some '"' =>
    drop
    return b.string (← stringRest)
  | some '[' =>
    match inner with
    | none => throw .malformed
    | some element =>
      drop
      return b.array (← elements element)
  | some '{' =>
    match inner with
    | none => throw .malformed
    | some value =>
      drop
      match b.object with
      | none => mismatch (.mistyped .map b.expected)
      | some object =>
        let fields ← entries (fun fs k => do
          colon
          return fs ++ [(k, ← value)]) []
        close '}'
        return object fields
  | some c =>
    if c = '-' ∨ c.isDigit then
      match b.number (← number) with
      | .ok a => return a
      | .error m => mismatch m
    else throw .malformed

/-- Reads a value in which arrays and objects nest at most so deep. -/
def value (b : Builder α) : Nat → JsonReader α
  | 0 => valueWith b none
  | depth + 1 => valueWith b (some (value b depth))

/-- What stands at the beginning of a text instead of what was expected. -/
def found : JsonReader JsonFound := do
  match ← peek with
  | none => throw .endOfText
  | some 'n' =>
    drop
    word ['u', 'l', 'l']
    return .null
  | some 't' =>
    drop
    word ['r', 'u', 'e']
    return .bool true
  | some 'f' =>
    drop
    word ['a', 'l', 's', 'e']
    return .bool false
  | some '"' =>
    drop
    return .string (← stringRest)
  | some '[' => return .sequence
  | some '{' => return .map
  | some c => if c = '-' ∨ c.isDigit then return .number (← number) else throw .malformed

def unexpected (expected : String) : JsonReader α := do
  mismatch (.mistyped (← found) expected)

def string : JsonReader String := do
  match ← peek with
  | some '"' =>
    drop
    stringRest
  | _ => unexpected "a string"

/-- A string, or none in the place of `null`. -/
def string? : JsonReader (Option String) := do
  match ← peek with
  | some 'n' =>
    drop
    word ['u', 'l', 'l']
    return none
  | _ => return some (← string)

/-- A text that holds one thing. -/
def document (reader : JsonReader α) (text : String) : Except JsonFault α := do
  let (a, cs) ← reader.run text.toList
  match cs.dropWhile isSpace with
  | [] => return a
  | _ => throw .malformed

end JsonReader

namespace Json

def builder : JsonReader.Builder Json where
  null := .null
  bool := .bool
  number n := .ok (.number n)
  string := .string
  array := .array
  object := some .object
  expected := "a value"

def parse (text : String) : Except JsonFault Json :=
  JsonReader.document (JsonReader.value builder JsonReader.nestingLimit) text

end Json
end TypeLattice
