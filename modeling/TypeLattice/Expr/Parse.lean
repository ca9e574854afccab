import TypeLattice.Expr
import TypeLattice.Expr.Token
import TypeLattice.Decimal.Reader
import TypeLattice.Text.Bytes
/-!
# Reading type expressions

Type expressions are read from tokens, from left to right. Each reader looks at the first token and
takes it away when it has used it. The first fault ends the reading; it is reported with the
number of bytes before it.

Types nest in each other, and so do arrays, so those readers are given the depth that they may
still go down, and a list the number of its items. The number of tokens is always enough. One turn
of such a reader is written down apart: it is given the reader of what is below it, or after it.
-/

namespace TypeLattice

/-- A fault and the text from it on. -/
structure Misread where
  fault : ParseFault
  here : List Char
  deriving DecidableEq, Repr

abbrev Reading := StateT (List Token) (Except Misread)

namespace Reading

variable {α : Type}

def peek : Reading Lexeme := do
  match ← get with
  | t :: _ => return t.lexeme
  | [] => return .stop

def fail (f : ParseFault) : Reading α := do
  match ← get with
  | t :: _ => throw ⟨f, t.here⟩
  | [] => throw ⟨f, []⟩

/-- A list of tokens that does not begin with a fault. -/
def checked (ts : List Token) : Except Misread (List Token) :=
  match ts with
  | ⟨.fault f place, _⟩ :: _ => .error ⟨f, place⟩
  | ts => .ok ts

def advance : Reading Unit := do
  set (← checked (← get).tail)

def expect (s : Symbol) (context : String) : Reading Unit := do
  if (← peek) = .symbol s then advance else fail (.noSymbol s.text context)

/-- After an item of a list there is a comma, or the list ends. -/
def separator (close : Symbol) (context : String) : Reading Unit := do
  let x ← peek
  if x = .symbol .comma then advance
  else if x = .symbol close then return ()
  else fail (.noSeparator close.text context)

/-- The closing symbol, or an item and the items after it. -/
def itemsTurn (close : Symbol) (context : String) (item : Reading α) (rest : Reading (List α)) :
    Reading (List α) := do
  if (← peek) = .symbol close then
    advance
    return []
  else
    let x ← item
    separator close context
    return x :: (← rest)

/-- At most so many items up to the closing symbol, which is taken away too. -/
def itemsWithin (close : Symbol) (context : String) (item : Reading α) : Nat → Reading (List α)
  | 0 => fail .trailingInput
  | n + 1 => itemsTurn close context item (itemsWithin close context item n)

def items (close : Symbol) (context : String) (item : Reading α) : Reading (List α) := do
  itemsWithin close context item (← get).length

/-- The key of an entry, and the arrow after it. -/
def key : Reading String := do
  match ← peek with
  | .name k | .string k =>
    advance
    expect .arrow "after hash key"
    return k
  | _ => fail .noKey

/-- The number that a literal stands for. -/
def number (cs : List Char) : Reading Value := do
  match integer? cs with
  | some i => return .integer i
  | none =>
    match Binary64.ofChars? cs with
    | some x => if x.isFinite then return .float x else fail .numberOutOfRange
    | none => fail .malformedNumber

/-- A literal as the element of an array. -/
def literalOnly : DefaultExpr TypeExpr → Reading Value
  | .literal v => return v
  | .type _ => fail .typeInArray

/-- A literal or a type. The elements of an array are read by `element`. -/
def valueTurn (type : Reading TypeExpr) (element : Reading (DefaultExpr TypeExpr)) :
    Reading (DefaultExpr TypeExpr) := do
  match ← peek with
  | .name s =>
    if s = "undef" then
      advance
      return .literal .undef
    else if s = "true" then
      advance
      return .literal (.bool true)
    else if s = "false" then
      advance
      return .literal (.bool false)
    else
      return .type (← type)
  | .string s =>
    advance
    return .literal (.string s)
  | .number cs =>
    let v ← number cs
    advance
    return .literal v
  | .symbol .openBracket =>
    advance
    let xs ← items .closeBracket "in array" (do literalOnly (← element))
    return .literal (.array xs)
  | _ => fail .noValue

def valueWithin (type : Reading TypeExpr) : Nat → Reading (DefaultExpr TypeExpr)
  | 0 => fail .noValue
  | n + 1 => valueTurn type (valueWithin type n)

def value (type : Reading TypeExpr) : Reading (DefaultExpr TypeExpr) := do
  valueWithin type (← get).length

inductive AttributeEntry where
  | type (e : TypeExpr)
  | value (d : DefaultExpr TypeExpr)

def attributeEntry (type : Reading TypeExpr) : Reading AttributeEntry := do
  let start ← get
  let k ← key
  if k = "type" then return .type (← type)
  else if k = "value" then return .value (← value type)
  else
    set start
    fail (.unknownAttributeKey k)

/-- The last type and the last default value among the entries. -/
def lastEntries : List AttributeEntry → Option TypeExpr × Option (DefaultExpr TypeExpr)
  | [] => (none, none)
  | .type e :: rest => ((lastEntries rest).1 <|> some e, (lastEntries rest).2)
  | .value d :: rest => ((lastEntries rest).1, (lastEntries rest).2 <|> some d)

/-- The description of an attribute: a type, or entries in braces. -/
def attributeDecl (type : Reading TypeExpr) : Reading (AttributeDecl TypeExpr) := do
  if (← peek) = .symbol .openBrace then
    advance
    match lastEntries (← items .closeBrace "in attribute hash" (attributeEntry type)) with
    | (some e, d) => return { type := e, default := d }
    | (none, _) => fail .untypedAttribute
  else
    return { type := ← type }

def attributeOf (type : Reading TypeExpr) : Reading (String × AttributeDecl TypeExpr) := do
  let k ← key
  return (k, ← attributeDecl type)

inductive ObjectEntry where
  | name (s : String)
  | parent (e : TypeExpr)
  | attributes (as : List (String × AttributeDecl TypeExpr))

def objectEntry (type : Reading TypeExpr) : Reading ObjectEntry := do
  let start ← get
  let k ← key
  if k = "name" then
    match ← peek with
    | .string s =>
      advance
      return .name s
    | _ => fail .noQuotedName
  else if k = "parent" then return .parent (← type)
  else if k = "attributes" then
    expect .openBrace "to open attributes hash"
    return .attributes (← items .closeBrace "in attributes hash" (attributeOf type))
  else
    set start
    fail (.unknownObjectKey k)

/-- Later entries go before earlier ones, and the attributes of all entries count. -/
def withEntry (d : ObjectDecl) : ObjectEntry → ObjectDecl
  | .name s => { d with name := some s }
  | .parent e => { d with parent := some e }
  | .attributes as => as.foldl (fun d a => d.withAttribute a.1 a.2) d

def objectDecl (type : Reading TypeExpr) : Reading ObjectDecl := do
  expect .openBrace "to open object type hash"
  return (← items .closeBrace "in object type hash" (objectEntry type)).foldl withEntry {}

/-- A name, perhaps with parameters, or an object type. The types in it are read by `inner`. -/
def typeTurn (inner : Reading TypeExpr) : Reading TypeExpr := do
  match ← peek with
  | .name s =>
    advance
    if (← peek) = .symbol .openBracket then
      advance
      if s = "Object" ∧ (← peek) = .symbol .openBrace then
        let d ← objectDecl inner
        expect .closeBracket "after object type hash"
        return .object d
      else
        return .named s (← items .closeBracket "in type parameters" inner)
    else
      return .named s []
  | _ => fail .noTypeName

def typeWithin : Nat → Reading TypeExpr
  | 0 => fail .noTypeName
  | n + 1 => typeTurn (typeWithin n)

/-- One type and nothing after it. -/
def whole : Reading TypeExpr := do
  let e ← typeWithin (← get).length
  if (← peek) = .stop then return e else fail .trailingInput

end Reading

namespace TypeExpr

def parseChars (cs : List Char) : Except Misread TypeExpr := do
  let ts ← Reading.checked (Token.scan cs)
  return (← Reading.whole.run ts).1

def parse (text : String) : Except TypeError TypeExpr :=
  match parseChars text.toList with
  | .ok e => .ok e
  | .error m => .error (.parse (Text.byteCount text.toList - Text.byteCount m.here) m.fault)

end TypeExpr
end TypeLattice
