import TypeLattice.Decimal.Shortest
/-!
# Layout of floating-point numbers

How the digits of a number are laid out as text: in plain notation for the leading digits whose
power of ten lies in a given range, otherwise with an exponent.
-/

namespace TypeLattice

/-- The decisions of a format: the powers of ten of a leading digit written plainly, the mark
before a positive exponent, and which way a tie between two shortest numerals goes. -/
structure FloatLayout where
  plainFrom : Int
  plainBelow : Int
  plus : List Char
  tieUp : Bool

namespace FloatLayout

/-- Digits with a point after the one that stands for 10^0, and at least one digit on each side
of the point. -/
def plain (ds : List Char) (exponent : Int) : List Char :=
  if 0 ≤ exponent then ds ++ List.replicate exponent.toNat '0' ++ ['.', '0']
  else
    let places := (-exponent).toNat
    if places < ds.length then ds.take (ds.length - places) ++ '.' :: ds.drop (ds.length - places)
    else '0' :: '.' :: List.replicate (places - ds.length) '0' ++ ds

/-- One digit before the point, the others after it, and the power of ten of the first. -/
def scientific (l : FloatLayout) (ds : List Char) (leading : Int) : List Char :=
  let mantissa := match ds with
    | d :: e :: r => d :: '.' :: e :: r
    | ds => ds
  let sign := if leading < 0 then ['-'] else l.plus
  mantissa ++ 'e' :: sign ++ Nat.toDigits 10 leading.natAbs

def magnitudeChars (l : FloatLayout) (x : Magnitude) : List Char :=
  if x.mantissa = 0 then ['0', '.', '0']
  else
    let d := x.shortest l.tieUp
    let ds := Nat.toDigits 10 d.digits
    let leading := d.exponent + ds.length - 1
    if l.plainFrom ≤ leading ∧ leading < l.plainBelow then plain ds d.exponent
    else l.scientific ds leading

def signChars (negative : Bool) : List Char := if negative then ['-'] else []

def chars (l : FloatLayout) : Binary64 → List Char
  | .nan => ['N', 'a', 'N']
  | .infinite s => signChars s ++ ['i', 'n', 'f']
  | .finite s x => signChars s ++ l.magnitudeChars x

def text (l : FloatLayout) (x : Binary64) : String := String.ofList (l.chars x)

end FloatLayout

/-- Floats in the text of a value: plain from 10^-4 to below 10^16, and a tie goes away from
zero. -/
def valueLayout : FloatLayout :=
  { plainFrom := -4, plainBelow := 16, plus := [], tieUp := true }

/-- Floats in JSON: plain from 10^-5 to below 10^16, a positive exponent has its sign, and a tie
goes to the even digit. -/
def jsonLayout : FloatLayout :=
  { plainFrom := -5, plainBelow := 16, plus := ['+'], tieUp := false }

end TypeLattice
