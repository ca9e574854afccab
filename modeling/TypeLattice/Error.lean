import TypeLattice.Value
/-!
# Errors

What can go wrong, as causes. The wording of each cause is in one function beside its type.
-/

namespace TypeLattice

/-- Why a text is not a type expression. -/
inductive ParseFault where
  | unterminatedString
  | invalidEscape
  | invalidCharacter (c : Char)
  | trailingInput
  | noTypeName
  | noKey
  | noQuotedName
  | noValue
  | noSymbol (symbol context : String)
  | noSeparator (close context : String)
  | unknownObjectKey (key : String)
  | unknownAttributeKey (key : String)
  | untypedAttribute
  | typeInArray
  | numberOutOfRange
  | malformedNumber
  deriving DecidableEq, Repr

def ParseFault.message : ParseFault → String
  | .unterminatedString => "unterminated string"
  | .invalidEscape => "invalid escape sequence"
  | .invalidCharacter c => "invalid character '" ++ c.toString ++ "'"
  | .trailingInput => "unexpected trailing input"
  | .noTypeName => "expecting a type name"
  | .noKey => "expecting a hash key"
  | .noQuotedName => "expecting a quoted type name"
  | .noValue => "expecting a value"
  | .noSymbol s context => "expecting `" ++ s ++ "` " ++ context
  | .noSeparator close context => "expecting `,` or `" ++ close ++ "` " ++ context
  | .unknownObjectKey k => "unknown object type key '" ++ k ++ "'"
  | .unknownAttributeKey k => "unknown attribute key '" ++ k ++ "'"
  | .untypedAttribute => "attribute hash without `type`"
  | .typeInArray => "types are not allowed in arrays"
  | .numberOutOfRange => "number out of range"
  | .malformedNumber => "could not parse number"

/-- Errors of building, resolving and registering types. A position counts the bytes of the text
before it. -/
inductive TypeError where
  | illegalArgumentType (function : String) (index : Nat) (expected actual : String)
  | illegalArgumentCount (function expected : String) (actual : Nat)
  | parse (position : Nat) (fault : ParseFault)
  | unresolvedReference (name : String)
  | alreadyResolved (name : String)
  | invalidParent (name parent : String)
  | circularInheritance (name : String)
  | invalidDefault (name field value : String)
  | notConstructible (type : String)
  | typeMismatch (expected actual : String)
  | alreadyExists (name : String)
  | invalidName (name : String)
  /-- In place of an error with a text in it that does not end. -/
  | endless
  deriving DecidableEq, Repr

def TypeError.message : TypeError → String
  | .illegalArgumentType function index expected actual =>
    function ++ ": parameter " ++ toString index ++ " expects a " ++ expected ++ " value, got " ++
      actual
  | .illegalArgumentCount function expected actual =>
    function ++ ": expects " ++ expected ++ " arguments, got " ++ toString actual
  | .parse position fault =>
    "syntax error at position " ++ toString position ++ ": " ++ fault.message
  | .unresolvedReference name => "reference to unresolved type '" ++ name ++ "'"
  | .alreadyResolved name => "type '" ++ name ++ "' has already been resolved"
  | .invalidParent name parent =>
    "type '" ++ name ++ "' cannot have '" ++ parent ++ "' as parent, it is not an Object type"
  | .circularInheritance name => "type '" ++ name ++ "' inherits from itself"
  | .invalidDefault name field value =>
    "attribute '" ++ field ++ "' of type '" ++ name ++ "' cannot default to " ++ value
  | .notConstructible type =>
    "creation of new instance of type '" ++ type ++ "' is not supported"
  | .typeMismatch expected actual =>
    "expected a value of type " ++ expected ++ ", got " ++ actual
  | .alreadyExists name => "a type named '" ++ name ++ "' is already registered"
  | .invalidName name =>
    "the name '" ++ name ++ "' is invalid (empty or whitespace-only names are not allowed)"
  | .endless => "the text does not end"

/-- The error with a text in it, which is written first. -/
def TypeError.withText (text? : Option String) (error : String → TypeError) : TypeError :=
  match text? with
  | some text => error text
  | none => .endless

theorem TypeError.withText_cases (text? : Option String) (error : String → TypeError) :
    (∃ text, text? = some text ∧ withText text? error = error text) ∨
      text? = none ∧ withText text? error = .endless := by
  cases text? with
  | none => exact .inr ⟨rfl, rfl⟩
  | some text => exact .inl ⟨text, rfl, rfl⟩

inductive Kind where
  | bool | integer | number | string | array | type | iterator | object
  deriving DecidableEq, Repr

def Kind.phrase : Kind → String
  | .bool => "a bool"
  | .integer => "an integer"
  | .number => "a number"
  | .string => "a string"
  | .array => "an array"
  | .type => "a type"
  | .iterator => "an iterator"
  | .object => "an object"

/-- Whatever can end a computation early: an error of a type, a value of another kind than asked
for, an error that a function given by the user reports, or a bound on steps that was too low. -/
inductive Failure where
  | type (e : TypeError)
  | notA (k : Kind)
  | reported (text : String)
  | outOfSteps
  deriving DecidableEq, Repr

def Failure.message : Failure → String
  | .type e => e.message
  | .notA k => "not " ++ k.phrase
  | .reported text => text
  | .outOfSteps => "out of steps"

namespace Value

def asBool : Value → Except Failure Bool
  | .bool b => .ok b
  | _ => .error (.notA .bool)

def asInteger : Value → Except Failure Int64
  | .integer i => .ok i
  | _ => .error (.notA .integer)

/-- A number as a float. Integers are rounded to the nearest one. -/
def asFloat : Value → Except Failure Binary64
  | .float x => .ok x
  | .integer i => .ok (Binary64.ofInt i.toInt)
  | _ => .error (.notA .number)

def asString : Value → Except Failure String
  | .string s => .ok s
  | _ => .error (.notA .string)

def asArray : Value → Except Failure (List Value)
  | .array xs => .ok xs
  | _ => .error (.notA .array)

def asType : Value → Except Failure Ty
  | .type t => .ok t
  | _ => .error (.notA .type)

def asIterator : Value → Except Failure (Nat × Ty)
  | .iterator c t => .ok (c, t)
  | _ => .error (.notA .iterator)

def asObject : Value → Except Failure (ObjectId × List (String × Value))
  | .object _ o fs => .ok (o, fs)
  | _ => .error (.notA .object)

end Value
end TypeLattice
