import Mathlib
import TypeLattice.Render

/-!
# Numerals are read back

A numeral in its parts, and what the readers of numbers make of it. The text of an integer and that
of a finite number are such numerals, and they are read as the number they were written for.
-/
namespace TypeLattice

open FloatLayout (signChars)

theorem digitsValue_toDigits (n : ℕ) : digitsValue (Nat.toDigits 10 n) = n :=
  Nat.ofDigitChars_ten_toDigits

theorem digitsValue_append (cs ds : List Char) :
    digitsValue (cs ++ ds) = 10 ^ ds.length * digitsValue cs + digitsValue ds := by
  have happend : digitsValue (cs ++ ds) = Nat.ofDigitChars 10 ds (digitsValue cs) :=
    Nat.ofDigitChars_append 0
  rw [happend, Nat.ofDigitChars_eq_ofDigitChars_zero]
  rfl

theorem digitsValue_zeros (k : ℕ) : digitsValue (List.replicate k '0') = 0 :=
  Nat.ofDigitChars_replicate_zero

theorem all_isDigit_toDigits (n : ℕ) : (Nat.toDigits 10 n).all Char.isDigit = true :=
  List.all_eq_true.2 fun _ hc => Nat.isDigit_of_mem_toDigits (by decide) (by decide) hc

theorem all_isDigit_zeros (k : ℕ) : (List.replicate k '0').all Char.isDigit = true :=
  List.all_eq_true.2 fun c hc => by
    rw [List.eq_of_mem_replicate hc]
    rfl

theorem toDigits_mul_ten {n : ℕ} (h : 0 < n) :
    Nat.toDigits 10 (n * 10) = Nat.toDigits 10 n ++ ['0'] := by
  have := Nat.toDigits_append_toDigits (b := 10) (d := 0) (by decide) h (by decide)
  rw [Nat.toDigits_zero, Nat.add_zero, Nat.mul_comm] at this
  exact this.symm

theorem length_toDigits_mul_pow {n : ℕ} (h : 0 < n) (k : ℕ) :
    (Nat.toDigits 10 (n * 10 ^ k)).length = (Nat.toDigits 10 n).length + k := by
  induction k with
  | zero => simp
  | succ k ih =>
    rw [pow_succ, ← mul_assoc, toDigits_mul_ten (Nat.mul_pos h (Nat.pow_pos (by decide))),
      List.length_append, ih]
    rfl

namespace Magnitude

variable {num den c : ℕ} {x : Magnitude}

theorem carry_congr {m m' e e' : ℕ} {hm hm' hn hn'} (h : m = m') (he : e = e') :
    carry m e hm hn = carry m' e' hm' hn' := by
  subst h he
  rfl

theorem roundQuotient_mul (hc : 0 < c) :
    roundQuotient (num * c) (den * c) = roundQuotient num den := by
  have hlt : 2 * (num % den * c) < den * c ↔ 2 * (num % den) < den := by
    rw [← mul_assoc]
    exact Nat.mul_lt_mul_right hc
  have heq : 2 * (num % den * c) = den * c ↔ 2 * (num % den) = den := by
    rw [← mul_assoc]
    exact Nat.mul_left_inj hc.ne'
  simp only [roundQuotient, Nat.mul_div_mul_right _ _ hc, Nat.mul_mod_mul_right, hlt, heq]

/-- A fraction need not be in lowest terms. -/
theorem ofScaled?_mul (hc : 0 < c) : ofScaled? (num * c) (den * c) = ofScaled? num den := by
  have hgrid : gridExponent (num * c) (den * c) = gridExponent num den := by
    simp only [gridExponent, Nat.mul_div_mul_right _ _ hc]
  refine carry_congr ?_ hgrid
  rw [hgrid, mul_right_comm, roundQuotient_mul hc]

theorem ofQuotient?_mul (hc : 0 < c) : ofQuotient? (num * c) (den * c) = ofQuotient? num den := by
  rw [ofQuotient?, mul_right_comm, ofScaled?_mul hc, ofQuotient?]

theorem scaled_pos (h : x.mantissa ≠ 0) : 0 < x.scaled :=
  Nat.mul_pos (Nat.pos_of_ne_zero h) (Nat.two_pow_pos _)

theorem scaled_lt {n : ℕ} (h : x.exponent ≤ n) : x.scaled < 2 ^ (53 + n) := by
  have hm : x.mantissa < 2 ^ 53 := x.mantissa_lt
  have he : 2 ^ x.exponent ≤ 2 ^ n := Nat.pow_le_pow_right (by decide) h
  rw [pow_add]
  exact lt_of_lt_of_le (Nat.mul_lt_mul_of_pos_right hm (Nat.two_pow_pos _))
    (Nat.mul_le_mul_left _ he)

/-- A magnitude as a decimal with so many places. -/
theorem ofScaled?_places (x : Magnitude) (k : ℕ) :
    ofScaled? (x.scaled * Nat.pow 5 k * Nat.pow 2 k) (Nat.pow 10 k) = some x := by
  have h : x.scaled * Nat.pow 5 k * Nat.pow 2 k = x.scaled * Nat.pow 10 k := by
    rw [mul_assoc]
    exact congrArg _ (mul_pow 5 2 k).symm
  have hmul : ofScaled? (x.scaled * Nat.pow 10 k) (1 * Nat.pow 10 k) = ofScaled? x.scaled 1 :=
    ofScaled?_mul (Nat.pow_pos (by decide))
  rw [one_mul, ofScaled?_scaled] at hmul
  rw [h, hmul]

theorem lt_length_toDigits {n a : ℕ} (ha : 0 < a) (h : 10 ^ a ≤ n) :
    a < (Nat.toDigits 10 n).length := by
  rw [← not_le, Nat.length_toDigits_le_iff (by decide) ha, not_lt]
  exact h

/-- All digits of a magnitude are within the range of exponents that is read exactly. -/
theorem magnitude?_exact (h : x.mantissa ≠ 0) : x.exact.magnitude? = some x := by
  obtain ⟨k, hk⟩ : ∃ k, k = 1074 := ⟨1074, rfl⟩
  have hexact : x.exact = ⟨x.scaled * Nat.pow 5 k, -k⟩ := by
    rw [exact, ← hk, Decimal.mk.injEq, hk]
    exact ⟨rfl, rfl⟩
  have hpos : 0 < x.scaled * Nat.pow 5 k := Nat.mul_pos (scaled_pos h) (Nat.pow_pos (by decide))
  have hmin : 749 < (Nat.toDigits 10 (x.scaled * Nat.pow 5 k)).length := by
    refine lt_length_toDigits (by decide) (le_trans ?_ (Nat.le_mul_of_pos_left _ (scaled_pos h)))
    subst hk
    decide +kernel
  have hmax : (Nat.toDigits 10 (x.scaled * Nat.pow 5 k)).length ≤ 1383 := by
    rw [Nat.length_toDigits_le_iff (by decide) (by decide)]
    refine lt_of_lt_of_le
      (Nat.mul_lt_mul_of_pos_right (scaled_lt x.exponent_le) (Nat.pow_pos (by decide))) ?_
    subst hk
    decide +kernel
  have hone : Nat.pow 10 0 = 1 := rfl
  simp only [hexact, Decimal.magnitude?, hpos.ne', false_or]
  rw [if_neg (by omega), if_neg (by omega), ofQuotient?, Int.toNat_of_nonpos (by omega),
    Int.neg_neg, Int.toNat_natCast, ← hk, hone, Nat.mul_one, ofScaled?_places]

/-- The shortest numeral of a magnitude reads back as the magnitude. -/
theorem magnitude?_shortest (h : x.mantissa ≠ 0) (tieUp : Bool) :
    (x.shortest tieUp).magnitude? = some x := by
  unfold shortest
  cases hd : (List.range 24).findSome? fun i : ℕ => x.onGrid? tieUp (x.topExponent - i) with
  | none =>
    rw [Option.getD_none, magnitude?_exact h]
  | some d =>
    obtain ⟨i, _, hi⟩ := List.exists_of_findSome?_eq_some hd
    simpa using List.find?_some hi

end Magnitude

/-- Zeros may be written in place of an exponent. -/
theorem Decimal.magnitude?_mul_pow (d k : ℕ) :
    Decimal.magnitude? ⟨d * 10 ^ (k + 1), -1⟩ = Decimal.magnitude? ⟨d, k⟩ := by
  rcases Nat.eq_zero_or_pos d with rfl | hd
  · simp [magnitude?]
  have hlength := length_toDigits_mul_pow hd (k + 1)
  have htop : (-1 : ℤ) + (Nat.toDigits 10 (d * 10 ^ (k + 1))).length =
      k + (Nat.toDigits 10 d).length := by omega
  have hquotient : Magnitude.ofQuotient? (d * 10 ^ (k + 1)) 10 =
      Magnitude.ofQuotient? (d * 10 ^ k) 1 := by
    rw [pow_succ, ← mul_assoc]
    exact Nat.one_mul 10 ▸ Magnitude.ofQuotient?_mul (c := 10) (by decide)
  simp [magnitude?, htop, hd.ne', hquotient]

/-- Digits, perhaps a point with digits after it, and perhaps an exponent with its digits. -/
structure Numeral where
  negative : Bool
  whole : List Char
  fraction : List Char := []
  exponent : Option (Bool × List Char) := none
  whole_ne : whole ≠ []
  whole_digits : whole.all Char.isDigit = true
  fraction_digits : fraction.all Char.isDigit = true := by rfl
  exponent_digits : ∀ e ∈ exponent, e.2 ≠ [] ∧ e.2.all Char.isDigit = true := by simp

/-- The text does not go on with a digit. -/
def NoDigit (cs : List Char) : Prop := ∀ c ∈ cs.head?, c.isDigit = false

theorem noDigit_nil : NoDigit [] := fun _ h => by cases h

theorem span_digits {ds rest : List Char} (hd : ds.all Char.isDigit = true) (hr : NoDigit rest) :
    (ds ++ rest).takeWhile Char.isDigit = ds ∧ (ds ++ rest).dropWhile Char.isDigit = rest := by
  have hall := List.all_eq_true.1 hd
  rw [List.takeWhile_append_of_pos hall, List.dropWhile_append_of_pos hall]
  cases rest with
  | nil => simp
  | cons c cs =>
    have hc : c.isDigit = false := hr c rfl
    simp [hc]

theorem ne_of_isDigit {c d : Char} (hc : c.isDigit = true) (hd : d.isDigit = false) : c ≠ d := by
  rintro rfl
  rw [hc] at hd
  cases hd

theorem unsigned_signed {c : Char} (negative : Bool) (hc : c.isDigit = true) (cs : List Char) :
    unsigned (signChars negative ++ c :: cs) = (negative, c :: cs) := by
  cases negative
  · show unsigned (c :: cs) = _
    unfold unsigned
    split
    · exact absurd (List.cons.inj ‹_›).1 (ne_of_isDigit hc rfl)
    · exact absurd (List.cons.inj ‹_›).1 (ne_of_isDigit hc rfl)
    · rfl
  · rfl

/-- After a digit there is no word like `inf`, so what is there is read as a decimal. -/
theorem ofChars?_signed {c : Char} (negative : Bool) (hc : c.isDigit = true) (cs : List Char) :
    Binary64.ofChars? (signChars negative ++ c :: cs) =
      (Decimal.ofChars? (c :: cs)).map fun d => .signed negative d.magnitude? := by
  have hlower : c.toLower = c := by
    have hdigit := Char.isDigit_iff_toNat.1 hc
    have hnot : ¬(c.val ≥ 'A'.val ∧ c.val ≤ 'Z'.val) := fun h =>
      absurd (UInt32.le_iff_toNat_le.1 h.1) (by simp at hdigit ⊢; omega)
    rw [Char.toLower, dif_neg hnot]
  have hword : ∀ d ds, d.isDigit = false → String.ofList ((c :: cs).map Char.toLower) ≠
      String.ofList (d :: ds) := by
    intro d ds hd he
    have hhead := String.ofList_injective he
    rw [List.map_cons, hlower, List.cons.injEq] at hhead
    exact ne_of_isDigit hc hd hhead.1
  unfold Binary64.ofChars?
  rw [unsigned_signed negative hc]
  simp only
  split
  · exact absurd ‹_› (hword 'i' ['n', 'f'] rfl)
  · exact absurd ‹_› (hword 'i' ['n', 'f', 'i', 'n', 'i', 't', 'y'] rfl)
  · exact absurd ‹_› (hword 'n' ['a', 'n'] rfl)
  · rfl

namespace Numeral

def point (n : Numeral) : List Char := if n.fraction = [] then [] else '.' :: n.fraction

def power (n : Numeral) : List Char :=
  match n.exponent with
  | none => []
  | some (negative, ds) => 'e' :: (signChars negative ++ ds)

/-- The numeral without its sign. -/
def size (n : Numeral) : List Char := n.whole ++ (n.point ++ n.power)

def chars (n : Numeral) : List Char := signChars n.negative ++ n.size

def powerValue (n : Numeral) : ℤ :=
  match n.exponent with
  | none => 0
  | some (negative, ds) => if negative then -(digitsValue ds : ℤ) else digitsValue ds

def decimal (n : Numeral) : Decimal :=
  ⟨digitsValue (n.whole ++ n.fraction), n.powerValue - n.fraction.length⟩

variable (n : Numeral)

theorem exists_size_eq : ∃ c cs, n.size = c :: cs ∧ c.isDigit = true := by
  obtain ⟨c, ds, hw⟩ := List.exists_cons_of_ne_nil n.whole_ne
  have hd := n.whole_digits
  rw [hw, List.all_cons, Bool.and_eq_true] at hd
  exact ⟨c, ds ++ (n.point ++ n.power), by simp [size, hw], hd.1⟩

theorem noDigit_power {rest : List Char} (hr : NoDigit rest) : NoDigit (n.power ++ rest) := by
  unfold power
  split
  · exact hr
  · intro c hc
    obtain rfl := Option.some.inj hc
    rfl

theorem noDigit_point {rest : List Char} (hr : NoDigit rest) : NoDigit (n.point ++ rest) := by
  unfold point
  split
  · exact hr
  · intro c hc
    obtain rfl := Option.some.inj hc
    rfl

theorem noDigit_power_nil : NoDigit n.power := by
  simpa using n.noDigit_power noDigit_nil

theorem suffix?_power : Decimal.suffix? n.power = some n.powerValue := by
  unfold power powerValue
  rcases he : n.exponent with _ | ⟨negative, ds⟩
  · rfl
  obtain ⟨hne, hall⟩ := n.exponent_digits _ he
  cases negative
  · obtain ⟨d, ds, rfl⟩ := List.exists_cons_of_ne_nil hne
    have hd : d.isDigit = true := by
      rw [List.all_cons, Bool.and_eq_true] at hall
      exact hall.1
    have hexponent : Decimal.exponent? (d :: ds) = some (digitsValue (d :: ds) : ℤ) := by
      unfold Decimal.exponent?
      split
      · exact absurd (List.cons.inj ‹_›).1 (ne_of_isDigit hd rfl)
      · exact absurd (List.cons.inj ‹_›).1 (ne_of_isDigit hd rfl)
      · rw [if_pos ⟨hne, hall⟩]
    exact hexponent
  · exact if_pos ⟨hne, hall⟩

theorem fraction_point_power : Decimal.fraction (n.point ++ n.power) = (n.fraction, n.power) := by
  unfold point
  split_ifs with hf
  · rw [hf, List.nil_append]
    unfold power
    rcases n.exponent with _ | ⟨negative, ds⟩ <;> rfl
  · obtain ⟨htake, hdrop⟩ := span_digits n.fraction_digits n.noDigit_power_nil
    simp only [List.cons_append, Decimal.fraction, htake, hdrop]

theorem ofChars?_size : Decimal.ofChars? n.size = some n.decimal := by
  obtain ⟨htake, hdrop⟩ := span_digits n.whole_digits (n.noDigit_point n.noDigit_power_nil)
  simp only [Decimal.ofChars?, size, htake, hdrop, fraction_point_power, suffix?_power]
  rw [if_neg (by simp [n.whole_ne])]
  rfl

theorem unsigned_chars : unsigned n.chars = (n.negative, n.size) := by
  obtain ⟨c, cs, hcs, hc⟩ := n.exists_size_eq
  rw [chars, hcs]
  exact unsigned_signed n.negative hc cs

/-- A numeral is read as the number nearest to what it stands for. -/
theorem ofChars?_chars :
    Binary64.ofChars? n.chars = some (.signed n.negative n.decimal.magnitude?) := by
  obtain ⟨c, cs, hcs, hc⟩ := n.exists_size_eq
  rw [chars, hcs, ofChars?_signed n.negative hc, ← hcs, ofChars?_size, Option.map_some]

theorem integer?_of_not_all (h : n.size.all Char.isDigit = false) : integer? n.chars = none := by
  unfold integer?
  rw [n.unsigned_chars]
  simp [h]

theorem not_all_isDigit (h : n.fraction ≠ [] ∨ n.exponent ≠ none) :
    n.size.all Char.isDigit = false := by
  rw [size, List.all_append, List.all_append, Bool.and_eq_false_iff, Bool.and_eq_false_iff]
  rcases h with h | h
  · right; left
    rw [point, if_neg h]
    rfl
  · right; right
    obtain ⟨e, he⟩ := Option.ne_none_iff_exists'.1 h
    rw [power, he]
    rfl

def ofInt (i : ℤ) : Numeral where
  negative := i < 0
  whole := Nat.toDigits 10 i.natAbs
  whole_ne := Nat.toDigits_ne_nil
  whole_digits := all_isDigit_toDigits _

theorem size_ofInt (i : ℤ) : (ofInt i).size = Nat.toDigits 10 i.natAbs := by
  simp [size, point, power, ofInt]

theorem chars_ofInt (i : Int64) : (ofInt i.toInt).chars = (integerText i).toList := by
  rw [chars, size_ofInt, integerText]
  generalize i.toInt = j
  cases j with
  | ofNat n => exact Nat.toList_repr.symm
  | negSucc n =>
    have htext : toString (Int.negSucc n) = "-" ++ (n + 1).repr := rfl
    have hnegative : (ofInt (Int.negSucc n)).negative = true := decide_eq_true (by omega)
    rw [htext, String.toList_append, Nat.toList_repr, hnegative]
    rfl

/-- The text of an integer is read as that integer. -/
theorem integer?_chars_ofInt (i : Int64) : integer? (ofInt i.toInt).chars = some i := by
  have hvalue : (if (ofInt i.toInt).negative then -(i.toInt.natAbs : ℤ) else i.toInt.natAbs) =
      i.toInt := by
    simp only [ofInt, decide_eq_true_eq]
    split <;> omega
  have hall : (Nat.toDigits 10 i.toInt.natAbs).all Char.isDigit = true := all_isDigit_toDigits _
  unfold integer?
  rw [unsigned_chars]
  simp only [size_ofInt, Nat.toDigits_ne_nil, hall, digitsValue_toDigits, hvalue]
  rw [if_neg (by simp), if_pos ⟨i.minValue_le_toInt, i.toInt_le⟩, Int64.ofInt_toInt]

/-- Digits with zeros after them and a point. -/
theorem exists_plain_zeros (negative : Bool) (d k : ℕ) :
    ∃ n : Numeral, n.negative = negative ∧ n.size = FloatLayout.plain (Nat.toDigits 10 d) k ∧
      n.size.all Char.isDigit = false ∧ n.decimal.magnitude? = Decimal.magnitude? ⟨d, k⟩ := by
  let n : Numeral :=
    { negative
      whole := Nat.toDigits 10 d ++ List.replicate k '0'
      fraction := ['0']
      whole_ne := by simp
      whole_digits := by
        rw [List.all_append, all_isDigit_toDigits, all_isDigit_zeros]
        rfl }
  refine ⟨n, rfl, ?_, n.not_all_isDigit (.inl (by simp [n])), ?_⟩
  · simp [n, size, point, power, FloatLayout.plain]
  · have hdigits : digitsValue (n.whole ++ n.fraction) = d * 10 ^ (k + 1) := by
      have hzeros : n.whole ++ n.fraction = Nat.toDigits 10 d ++ List.replicate (k + 1) '0' := by
        simp [n, List.replicate_succ']
      rw [hzeros, digitsValue_append, digitsValue_toDigits, digitsValue_zeros,
        List.length_replicate, Nat.add_zero, Nat.mul_comm]
    rw [← Decimal.magnitude?_mul_pow, decimal, hdigits]
    rfl

/-- Digits with a point among them, or before them. -/
theorem exists_plain_places (negative : Bool) (d k : ℕ) :
    ∃ n : Numeral, n.negative = negative ∧
      n.size = FloatLayout.plain (Nat.toDigits 10 d) (-(k + 1 : ℕ)) ∧
      n.size.all Char.isDigit = false ∧ n.decimal = ⟨d, -(k + 1 : ℕ)⟩ := by
  have hall := all_isDigit_toDigits d
  have hneg : ¬0 ≤ (-(k + 1 : ℕ) : ℤ) := by omega
  by_cases hk : k + 1 < (Nat.toDigits 10 d).length
  · have hsplit := List.take_append_drop ((Nat.toDigits 10 d).length - (k + 1)) (Nat.toDigits 10 d)
    rw [← hsplit, List.all_append, Bool.and_eq_true] at hall
    let n : Numeral :=
      { negative
        whole := (Nat.toDigits 10 d).take ((Nat.toDigits 10 d).length - (k + 1))
        fraction := (Nat.toDigits 10 d).drop ((Nat.toDigits 10 d).length - (k + 1))
        whole_ne := by
          rw [ne_eq, List.take_eq_nil_iff]
          simp only [Nat.toDigits_ne_nil, or_false]
          omega
        whole_digits := hall.1
        fraction_digits := hall.2 }
    have hfraction : n.fraction ≠ [] := by
      rw [ne_eq, List.drop_eq_nil_iff]
      omega
    refine ⟨n, rfl, ?_, n.not_all_isDigit (.inl hfraction), ?_⟩
    · rw [FloatLayout.plain, if_neg hneg, Int.neg_neg, Int.toNat_natCast, if_pos hk, size, point,
        if_neg hfraction, power, List.append_nil]
    · have hlength : n.fraction.length = k + 1 := by
        rw [List.length_drop]
        omega
      rw [decimal, hsplit, digitsValue_toDigits, hlength]
      simp [powerValue, n]
  · let zeros := List.replicate (k + 1 - (Nat.toDigits 10 d).length) '0'
    let n : Numeral :=
      { negative
        whole := ['0']
        fraction := zeros ++ Nat.toDigits 10 d
        whole_ne := by simp
        whole_digits := rfl
        fraction_digits := by
          rw [List.all_append, all_isDigit_zeros, hall]
          rfl }
    have hfraction : n.fraction ≠ [] := by simp [n]
    refine ⟨n, rfl, ?_, n.not_all_isDigit (.inl hfraction), ?_⟩
    · rw [FloatLayout.plain, if_neg hneg, Int.neg_neg, Int.toNat_natCast, if_neg hk, size, point,
        if_neg hfraction, power, List.append_nil]
      rfl
    · have hlength : n.fraction.length = k + 1 := by
        simp only [n, zeros, List.length_append, List.length_replicate]
        omega
      have hdigits : digitsValue (n.whole ++ n.fraction) = d := by
        have hzeros : n.whole ++ n.fraction =
            List.replicate (k + 1 - (Nat.toDigits 10 d).length + 1) '0' ++ Nat.toDigits 10 d := rfl
        rw [hzeros, digitsValue_append, digitsValue_zeros, digitsValue_toDigits, Nat.mul_zero,
          Nat.zero_add]
      rw [decimal, hdigits, hlength]
      simp [powerValue, n]

/-- Digits with an exponent. -/
theorem exists_scientific (negative : Bool) (d : ℕ) (e : ℤ) :
    ∃ n : Numeral, n.negative = negative ∧
      n.size = valueLayout.scientific (Nat.toDigits 10 d) (e + (Nat.toDigits 10 d).length - 1) ∧
      n.size.all Char.isDigit = false ∧ n.decimal = ⟨d, e⟩ := by
  have hall := all_isDigit_toDigits d
  have hvalue := digitsValue_toDigits d
  obtain ⟨c, ds, hds⟩ := List.exists_cons_of_ne_nil (Nat.toDigits_ne_nil (n := d) (b := 10))
  rw [hds] at hall hvalue ⊢
  rw [List.all_cons, Bool.and_eq_true] at hall
  generalize hleading : e + (c :: ds).length - 1 = leading
  let n : Numeral :=
    { negative
      whole := [c]
      fraction := ds
      exponent := some (decide (leading < 0), Nat.toDigits 10 leading.natAbs)
      whole_ne := by simp
      whole_digits := by simpa using hall.1
      fraction_digits := hall.2
      exponent_digits := by
        rintro _ ⟨⟩
        exact ⟨Nat.toDigits_ne_nil, all_isDigit_toDigits _⟩ }
  refine ⟨n, rfl, ?_, n.not_all_isDigit (.inr (by simp [n])), ?_⟩
  · have hsign : signChars (decide (leading < 0)) =
        if leading < 0 then ['-'] else valueLayout.plus := by
      by_cases h : leading < 0 <;> simp [signChars, h, valueLayout]
    cases ds <;> simp [n, size, point, power, FloatLayout.scientific, hsign]
  · have hpower : n.powerValue = leading := by
      simp only [powerValue, n, digitsValue_toDigits, decide_eq_true_eq]
      split <;> omega
    have hexponent : leading - ds.length = e := by
      rw [← hleading, List.length_cons]
      omega
    rw [decimal, hpower, ← hexponent]
    exact congrArg (Decimal.mk · _) hvalue

theorem exists_plain (negative : Bool) (d : ℕ) (e : ℤ) :
    ∃ n : Numeral, n.negative = negative ∧ n.size = FloatLayout.plain (Nat.toDigits 10 d) e ∧
      n.size.all Char.isDigit = false ∧ n.decimal.magnitude? = Decimal.magnitude? ⟨d, e⟩ := by
  by_cases he : 0 ≤ e
  · obtain ⟨k, rfl⟩ := Int.eq_ofNat_of_zero_le he
    exact exists_plain_zeros negative d k
  · obtain ⟨k, rfl⟩ : ∃ k : ℕ, e = -(k + 1 : ℕ) := ⟨(-e - 1).toNat, by omega⟩
    obtain ⟨n, hn, hsize, hall, hdecimal⟩ := exists_plain_places negative d k
    exact ⟨n, hn, hsize, hall, congrArg Decimal.magnitude? hdecimal⟩

theorem exists_magnitude (negative : Bool) (x : Magnitude) :
    ∃ n : Numeral, n.negative = negative ∧ n.size = valueLayout.magnitudeChars x ∧
      n.size.all Char.isDigit = false ∧ n.decimal.magnitude? = some x := by
  by_cases hx : x.mantissa = 0
  · have hzero : x = .zero := by
      obtain ⟨m, e, hm, normal, he⟩ := x
      obtain rfl : m = 0 := hx
      have : e = 0 := normal.resolve_right (by decide)
      subst this
      rfl
    refine ⟨{ negative, whole := ['0'], fraction := ['0'], whole_ne := by simp,
              whole_digits := rfl }, rfl, ?_, rfl, ?_⟩
    · rw [FloatLayout.magnitudeChars, if_pos hx]
      rfl
    · rw [hzero]
      rfl
  · have hread := Magnitude.magnitude?_shortest hx valueLayout.tieUp
    simp only [FloatLayout.magnitudeChars, hx, if_false]
    generalize x.shortest valueLayout.tieUp = shortest at hread ⊢
    obtain ⟨d, e⟩ := shortest
    split
    · obtain ⟨n, hn, hsize, hall, hdecimal⟩ := exists_plain negative d e
      exact ⟨n, hn, hsize, hall, hdecimal.trans hread⟩
    · obtain ⟨n, hn, hsize, hall, hdecimal⟩ := exists_scientific negative d e
      exact ⟨n, hn, hsize, hall, (congrArg Decimal.magnitude? hdecimal).trans hread⟩

/-- The text of a finite number is a numeral that no integer has, and it is read as that number. -/
theorem exists_float {x : Binary64} (h : x.isFinite = true) :
    ∃ n : Numeral, n.chars = valueLayout.chars x ∧ integer? n.chars = none ∧
      Binary64.ofChars? n.chars = some x := by
  rcases x with _ | _ | ⟨negative, x⟩
  · cases h
  · cases h
  · obtain ⟨n, rfl, hsize, hall, hmagnitude⟩ := exists_magnitude negative x
    refine ⟨n, ?_, n.integer?_of_not_all hall, ?_⟩
    · rw [chars, hsize]
      rfl
    · rw [ofChars?_chars, hmagnitude]
      rfl

end Numeral

end TypeLattice
