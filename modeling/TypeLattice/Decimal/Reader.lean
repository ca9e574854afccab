import TypeLattice.Decimal.Binary64
/-!
# Decimal numerals

Numbers written with decimal digits, and the floating-point number nearest to each. Integers are
read into 64 bits or refused.
-/

namespace TypeLattice

/-- The value `digits * 10 ^ exponent`. -/
structure Decimal where
  digits : Nat
  exponent : Int
  deriving DecidableEq, Repr

def digitValue (c : Char) : Nat := c.toNat - '0'.toNat

def digitsValue (cs : List Char) : Nat := cs.foldl (fun n c => 10 * n + digitValue c) 0

namespace Decimal

/-- The nearest magnitude, if it is not too great. At 10^310 a value is too great, and below
10^-330 it rounds to zero, whatever its digits. -/
def magnitude? (d : Decimal) : Option Magnitude :=
  let top := d.exponent + (Nat.toDigits 10 d.digits).length
  if d.digits = 0 ∨ top < -330 then some .zero
  else if 311 < top then none
  else
    Magnitude.ofQuotient? (d.digits * Nat.pow 10 d.exponent.toNat)
      (Nat.pow 10 (-d.exponent).toNat)

/-- An exponent with an optional sign. -/
def exponent? : List Char → Option Int
  | '-' :: cs => if cs ≠ [] ∧ cs.all Char.isDigit then some (-(digitsValue cs : Int)) else none
  | '+' :: cs => if cs ≠ [] ∧ cs.all Char.isDigit then some (digitsValue cs) else none
  | cs => if cs ≠ [] ∧ cs.all Char.isDigit then some (digitsValue cs) else none

/-- What may follow the digits of a numeral. -/
def suffix? : List Char → Option Int
  | [] => some 0
  | c :: cs => if c = 'e' ∨ c = 'E' then exponent? cs else none

/-- The digits after a point, if there is one, and what follows them. -/
def fraction : List Char → List Char × List Char
  | '.' :: cs => (cs.takeWhile Char.isDigit, cs.dropWhile Char.isDigit)
  | cs => ([], cs)

/-- Digits with at most one point among them, at least one digit, and perhaps an exponent. -/
def ofChars? (cs : List Char) : Option Decimal :=
  let whole := cs.takeWhile Char.isDigit
  let (fraction, rest) := fraction (cs.dropWhile Char.isDigit)
  if whole ++ fraction = [] then none
  else (suffix? rest).map fun e => ⟨digitsValue (whole ++ fraction), e - fraction.length⟩

end Decimal

/-- A sign, if there is one, and what follows it. -/
def unsigned : List Char → Bool × List Char
  | '-' :: cs => (true, cs)
  | '+' :: cs => (false, cs)
  | cs => (false, cs)

namespace Binary64

/-- Reads a numeral or one of the words `inf`, `infinity` and `nan`, in upper or lower case. -/
def ofChars? (cs : List Char) : Option Binary64 :=
  let (negative, cs) := unsigned cs
  match String.ofList (cs.map Char.toLower) with
  | "inf" | "infinity" => some (.infinite negative)
  | "nan" => some .nan
  | _ => (Decimal.ofChars? cs).map fun d => .signed negative d.magnitude?

end Binary64

/-- Reads an integer of 64 bits: an optional sign and at least one digit. -/
def integer? (cs : List Char) : Option Int64 :=
  let (negative, cs) := unsigned cs
  if cs = [] ∨ !cs.all Char.isDigit then none
  else
    let i : Int := if negative then -digitsValue cs else digitsValue cs
    if Int64.minValue.toInt ≤ i ∧ i ≤ Int64.maxValue.toInt then some (Int64.ofInt i) else none

end TypeLattice
