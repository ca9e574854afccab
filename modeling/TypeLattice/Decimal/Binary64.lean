/-!
# Binary floating-point numbers

Numbers with 53 binary digits and an eleven-bit exponent, as exact data. A finite number is a sign
and a magnitude `mantissa * 2 ^ exponent / 2 ^ 1074` in its only normal form, so two numbers are
the same exactly when their data are. Arithmetic is done on exact fractions and rounded once, to
nearest, a tie to the even mantissa.
-/

namespace TypeLattice

/-- The value `mantissa * 2 ^ exponent / 2 ^ 1074`, with the smallest possible exponent. -/
structure Magnitude where
  mantissa : Nat
  exponent : Nat
  mantissa_lt : mantissa < Nat.pow 2 53 := by decide
  normal : exponent = 0 ∨ Nat.pow 2 52 ≤ mantissa := by decide
  exponent_le : exponent ≤ 2045 := by decide
  deriving DecidableEq, Repr

namespace Magnitude

def zero : Magnitude := { mantissa := 0, exponent := 0 }

/-- The value times `2 ^ 1074`, a natural number. -/
def scaled (x : Magnitude) : Nat := x.mantissa * Nat.pow 2 x.exponent

end Magnitude

/-- The nearest natural number to `num / den`, a tie to the even one. -/
def roundQuotient (num den : Nat) : Nat :=
  let q := num / den
  let r := num % den
  if 2 * r < den then q
  else if 2 * r = den ∧ q % 2 = 0 then q
  else q + 1

theorem roundQuotient_of_dvd {num den : Nat} (hd : 0 < den) (h : den ∣ num) :
    roundQuotient num den = num / den := by
  simp [roundQuotient, Nat.mod_eq_zero_of_dvd h, hd]

theorem div_le_roundQuotient (num den : Nat) : num / den ≤ roundQuotient num den := by
  simp only [roundQuotient]
  split
  · exact Nat.le_refl _
  · split <;> omega

theorem roundQuotient_le (num den : Nat) : roundQuotient num den ≤ num / den + 1 := by
  simp only [roundQuotient]
  split
  · omega
  · split <;> omega

namespace Magnitude

/-- The exponent of the grid on which `num / den / 2 ^ 1074` has at most 53 binary digits. -/
def gridExponent (num den : Nat) : Nat := Nat.log2 (num / den) - 52

theorem quotient_lt (num den : Nat) :
    num / (den * Nat.pow 2 (gridExponent num den)) < Nat.pow 2 53 := by
  simp only [Nat.pow_eq]
  rw [← Nat.div_div_eq_div_mul, Nat.div_lt_iff_lt_mul (Nat.two_pow_pos _), ← Nat.pow_add]
  refine Nat.lt_of_lt_of_le Nat.lt_log2_self (Nat.pow_le_pow_right (by decide) ?_)
  simp only [gridExponent]
  omega

theorem le_quotient {num den : Nat} (h : gridExponent num den ≠ 0) :
    Nat.pow 2 52 ≤ num / (den * Nat.pow 2 (gridExponent num den)) := by
  simp only [gridExponent, Nat.pow_eq] at h ⊢
  have hne : num / den ≠ 0 := by
    intro h0
    simp [h0] at h
  rw [← Nat.div_div_eq_div_mul, Nat.le_div_iff_mul_le (Nat.two_pow_pos _), ← Nat.pow_add]
  refine Nat.le_trans (Nat.pow_le_pow_right (by decide) ?_) (Nat.log2_self_le hne)
  omega

/-- The magnitude with this mantissa and exponent: a mantissa of `2 ^ 53` carries over, and past
the greatest exponent there is none. -/
def carry (mantissa exponent : Nat) (hm : mantissa ≤ Nat.pow 2 53)
    (hn : exponent = 0 ∨ Nat.pow 2 52 ≤ mantissa) : Option Magnitude :=
  if hc : mantissa = Nat.pow 2 53 then
    if he : exponent + 1 ≤ 2045 then
      some { mantissa := Nat.pow 2 52, exponent := exponent + 1, normal := .inr (Nat.le_refl _),
             exponent_le := he }
    else none
  else if he : exponent ≤ 2045 then
    some { mantissa, exponent, mantissa_lt := by omega, normal := hn, exponent_le := he }
  else none

/-- The magnitude nearest to `num / den / 2 ^ 1074`, if it is not too great. -/
def ofScaled? (num den : Nat) : Option Magnitude :=
  carry (roundQuotient num (den * Nat.pow 2 (gridExponent num den))) (gridExponent num den)
    (by
      have hlt := quotient_lt num den
      have hle := roundQuotient_le num (den * Nat.pow 2 (gridExponent num den))
      omega)
    (by
      by_cases h : gridExponent num den = 0
      · exact .inl h
      · exact .inr (Nat.le_trans (le_quotient h) (div_le_roundQuotient _ _)))

/-- The magnitude nearest to `num / den`, if it is not too great. -/
def ofQuotient? (num den : Nat) : Option Magnitude := ofScaled? (num * Nat.pow 2 1074) den

theorem gridExponent_scaled (x : Magnitude) : gridExponent x.scaled 1 = x.exponent := by
  have hm : x.mantissa < 2 ^ 53 := x.mantissa_lt
  simp only [gridExponent, scaled, Nat.div_one, Nat.pow_eq]
  rcases x.normal with h | h
  · by_cases h0 : x.mantissa = 0
    · simp [h, h0]
    · have := (Nat.log2_lt h0).2 hm
      simp only [h, Nat.pow_zero, Nat.mul_one]
      omega
  · have h : 2 ^ 52 ≤ x.mantissa := h
    have h0 : x.mantissa * 2 ^ x.exponent ≠ 0 := by
      have := Nat.two_pow_pos x.exponent
      exact Nat.mul_ne_zero (by omega) (by omega)
    have hlog : (x.mantissa * 2 ^ x.exponent).log2 = 52 + x.exponent := by
      rw [Nat.log2_eq_iff h0]
      constructor
      · rw [Nat.pow_add]
        exact Nat.mul_le_mul_right _ h
      · rw [show 52 + x.exponent + 1 = 53 + x.exponent by omega, Nat.pow_add]
        exact Nat.mul_lt_mul_of_pos_right hm (Nat.two_pow_pos _)
    omega

theorem carry_self (x : Magnitude) {m e : Nat} (hm : m ≤ Nat.pow 2 53)
    (hn : e = 0 ∨ Nat.pow 2 52 ≤ m)
    (hmx : m = x.mantissa) (hex : e = x.exponent) : carry m e hm hn = some x := by
  subst hmx hex
  have := x.mantissa_lt
  rw [carry, dif_neg (by omega), dif_pos x.exponent_le]

/-- Rounding leaves a magnitude as it is. -/
theorem ofScaled?_scaled (x : Magnitude) : ofScaled? x.scaled 1 = some x := by
  refine carry_self x _ _ ?_ (gridExponent_scaled x)
  rw [gridExponent_scaled x, Nat.one_mul, scaled, Nat.pow_eq,
    roundQuotient_of_dvd (Nat.two_pow_pos _) (Nat.dvd_mul_left _ _)]
  exact Nat.mul_div_cancel _ (Nat.two_pow_pos _)

end Magnitude

inductive Binary64 where
  | nan
  | infinite (negative : Bool)
  | finite (negative : Bool) (size : Magnitude)
  deriving DecidableEq, Repr

namespace Binary64

/-- A magnitude with its sign, and infinity in place of one that is too great. -/
def signed (negative : Bool) : Option Magnitude → Binary64
  | some m => .finite negative m
  | none => .infinite negative

def isFinite : Binary64 → Bool
  | .finite .. => true
  | _ => false

def isZero : Binary64 → Bool
  | .finite _ m => m.mantissa = 0
  | _ => false

def ofInt (i : Int) : Binary64 := signed (i < 0) (Magnitude.ofQuotient? i.natAbs 1)

/-- The value of a finite number times `2 ^ 1074`. -/
def scaled : Binary64 → Int
  | .finite s m => if s then -(m.scaled : Int) else m.scaled
  | _ => 0

/-- Numerical equality: the two zeros are equal, and NaN equals nothing. -/
def eq : Binary64 → Binary64 → Bool
  | .infinite s, .infinite t => s = t
  | .finite s m, .finite t n => (Binary64.finite s m).scaled = (Binary64.finite t n).scaled
  | _, _ => false

/-- Numerical order. NaN is neither below nor above anything. -/
def lt : Binary64 → Binary64 → Bool
  | .nan, _ => false
  | _, .nan => false
  | .infinite s, .infinite t => s && !t
  | .infinite s, .finite .. => s
  | .finite .., .infinite t => !t
  | .finite s m, .finite t n => (Binary64.finite s m).scaled < (Binary64.finite t n).scaled

/-- The integer part of a finite number, with its fraction dropped. -/
def truncate (x : Binary64) : Int := Int.tdiv x.scaled (Nat.pow 2 1074 : Nat)

end Binary64
end TypeLattice
