import TypeLattice.Decimal.Reader
/-!
# Shortest numerals

A magnitude is written with the fewest digits that read back as it. Of two such numerals on the
same decimal grid the nearer is taken.
-/

namespace TypeLattice.Magnitude

/-- The magnitude as a multiple of `10 ^ k`: a numerator and a denominator. -/
def inUnits (x : Magnitude) (k : Int) : Nat × Nat :=
  (x.scaled * Nat.pow 10 (-k).toNat, Nat.pow 2 1074 * Nat.pow 10 k.toNat)

/-- The multiples of `10 ^ k` on either side of a magnitude, the nearer first. -/
def neighbours (tieUp : Bool) (x : Magnitude) (k : Int) : List Decimal :=
  let (num, den) := x.inUnits k
  let q := num / den
  let r := num % den
  if 2 * r < den ∨ (2 * r = den ∧ q % 2 = 0 ∧ !tieUp) then [⟨q, k⟩, ⟨q + 1, k⟩]
  else [⟨q + 1, k⟩, ⟨q, k⟩]

/-- The nearest multiple of `10 ^ k` that reads back as the magnitude. -/
def onGrid? (tieUp : Bool) (x : Magnitude) (k : Int) : Option Decimal :=
  (x.neighbours tieUp k).find? fun d => d.magnitude? = some x

/-- An exponent of ten that no numeral for the magnitude needs to exceed. -/
def topExponent (x : Magnitude) : Int := ((x.scaled.log2 : Int) - 1073) * 30103 / 100000 + 2

/-- All digits of a magnitude. -/
def exact (x : Magnitude) : Decimal := ⟨x.scaled * Nat.pow 5 1074, -1074⟩

/-- The numeral on the coarsest grid on which one reads back as the magnitude. -/
def shortest (tieUp : Bool) (x : Magnitude) : Decimal :=
  ((List.range 24).findSome? fun i : Nat => x.onGrid? tieUp (x.topExponent - i)).getD x.exact

end TypeLattice.Magnitude
