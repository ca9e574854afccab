import TypeLattice.Json.Basic
import TypeLattice.Decimal.Reader
/-!
# Numbers in JSON

How the digits of a number make a number. The digits enter a significand as long as it fits in 64
bits. A float is the significand, rounded, and then multiplied or divided by a power of ten, which
rounds again.
-/

namespace TypeLattice

namespace Magnitude

def mul? (x y : Magnitude) : Option Magnitude :=
  ofQuotient? (x.scaled * y.scaled) (Nat.pow 2 2148)

/-- The quotient by a magnitude that is not zero. -/
def div? (x y : Magnitude) : Option Magnitude := ofQuotient? x.scaled y.scaled

def powerOfTen? (n : Nat) : Option Magnitude := ofQuotient? (Nat.pow 10 n) 1

/-- A magnitude times ten to a power, in steps of at most 308 powers of ten. Nothing is left after
two full steps down. -/
def scaleWithin : Nat → Magnitude → Int → Option Magnitude
  | 0, x, _ => some x
  | n + 1, x, e =>
    if e.natAbs ≤ 308 then do
      let p ← powerOfTen? e.natAbs
      if 0 ≤ e then x.mul? p else x.div? p
    else if x.mantissa = 0 then some x
    else if 0 ≤ e then none
    else do scaleWithin n (← x.div? (← powerOfTen? 308)) (e + 308)

def scaleByTen (x : Magnitude) (e : Int) : Option Magnitude := scaleWithin 3 x e

end Magnitude

/-- The number with a significand of 64 bits and an exponent of ten, if it is not too great. -/
def scaledFloat? (negative : Bool) (significand : Nat) (exponent : Int) : Option Binary64 := do
  let m ← Magnitude.ofQuotient? significand 1
  return .finite negative (← m.scaleByTen exponent)

/-- Takes digits into a significand as long as it stays below 2^64, and returns those that are
left. -/
def takeSignificand (significand : Nat) : List Char → Nat × List Char
  | [] => (significand, [])
  | d :: ds =>
    if significand * 10 + digitValue d < Nat.pow 2 64 then
      takeSignificand (significand * 10 + digitValue d) ds
    else (significand, d :: ds)

/-- A number without a fraction or an exponent, from its digits. Zero with a sign is a float, and
so is what does not fit in 64 bits. -/
def plainNumber? (negative : Bool) (significand : Nat) : Option JsonNumber :=
  if !negative then some (.integer significand)
  else if significand ≠ 0 ∧ significand ≤ Nat.pow 2 63 then some (.integer (-significand))
  else (scaledFloat? true significand 0).map .float

end TypeLattice
