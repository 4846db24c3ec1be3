/-!
# Binary64 values, held exactly

Every finite binary64 magnitude is a whole number of *units* of 2⁻¹⁰⁷⁴, the smallest positive
magnitude.  Counting units keeps a number exact without any floating-point operation: equal
magnitudes are equal natural numbers, and comparing is comparing naturals.

* `twoTo`, `tenTo` : powers of two and of ten.
* `IsRepresentable` : the unit counts that binary64 has: a multiple of the spacing at their size,
  below the limit.
* `Number` : a finite value, a sign and a representable count of units.
* `Binary64` : a number, an infinity or not a number.
* `Decimal` : digits and a power of ten.
* `Binary64.ofRatio`, `Binary64.ofDecimal` : the value nearest to a quotient of units and to a
  decimal, a tie going to the even neighbour.

Rounding always meets the spacing (`spacing_dvd_roundUnits`), so only size can make a result
infinite.
-/

namespace Pddl

/-- A power of two. -/
def twoTo (k : Nat) : Nat := Nat.pow 2 k

/-- A power of ten. -/
def tenTo (k : Nat) : Nat := Nat.pow 10 k

theorem twoTo_pos (k : Nat) : 0 < twoTo k := Nat.two_pow_pos k

theorem twoTo_add (j k : Nat) : twoTo (j + k) = twoTo j * twoTo k := Nat.pow_add 2 j k

theorem twoTo_le {j k : Nat} (h : j ≤ k) : twoTo j ≤ twoTo k := Nat.pow_le_pow_right (by omega) h

theorem twoTo_dvd {j k : Nat} (h : j ≤ k) : twoTo j ∣ twoTo k := Nat.pow_dvd_pow 2 h

theorem log2_twoTo (k : Nat) : (twoTo k).log2 = k := Nat.log2_two_pow

theorem lt_twoTo_log2 (n : Nat) : n < twoTo (n.log2 + 1) := Nat.lt_log2_self

theorem log2_lt_iff {n k : Nat} (h : n ≠ 0) : n.log2 < k ↔ n < twoTo k := Nat.log2_lt h

/-- How many units make one. -/
def unitsPerOne : Nat := twoTo 1074

/-- Every finite magnitude stays below this many units. -/
def unitsLimit : Nat := twoTo 2098

theorem unitsLimit_pos : 0 < unitsLimit :=
  twoTo_pos 2098

/-- The distance between neighbouring magnitudes of the size of `units`: 53 binary digits are
kept. -/
def spacing (units : Nat) : Nat := twoTo (units.log2 - 52)

/-- A count of units that binary64 represents. -/
def IsRepresentable (units : Nat) : Prop := spacing units ∣ units ∧ units < unitsLimit

instance (units : Nat) : Decidable (IsRepresentable units) :=
  inferInstanceAs (Decidable (_ ∧ _))

/-- A finite binary64 value; zero has two signs. -/
structure Number where
  /-- The sign. -/
  negative : Bool
  /-- The magnitude, in units. -/
  units : Nat
  representable : IsRepresentable units
  deriving DecidableEq

/-- A binary64 value. -/
inductive Binary64 where
  /-- No number at all. -/
  | nan
  /-- Beyond every number, on either side. -/
  | infinite (negative : Bool)
  /-- A number. -/
  | finite (number : Number)
  deriving DecidableEq

/-! ### Rounding -/

/-- The whole number nearest to `num / den`, the even one of two. -/
def roundHalfEven (num den : Nat) : Nat :=
  let floor := num / den
  let twice := 2 * (num % den)
  if twice < den then floor
  else if den < twice then floor + 1
  else floor + floor % 2

/-- The multiple of the spacing nearest to `num / den` units. -/
def roundUnits (num den : Nat) : Nat :=
  let step := spacing (num / den)
  roundHalfEven num (den * step) * step

theorem roundHalfEven_le (num den : Nat) : roundHalfEven num den ≤ num / den + 1 := by
  simp only [roundHalfEven]
  split
  · omega
  · split <;> omega

theorem spacing_pos (units : Nat) : 0 < spacing units := twoTo_pos _

/-- A number of at most 53 binary digits, shifted, meets the spacing at its size. -/
theorem spacing_dvd_of_le {k : Nat} (j : Nat) (h : k ≤ twoTo 53) :
    spacing (k * twoTo j) ∣ k * twoTo j := by
  rcases Nat.eq_zero_or_pos k with rfl | hk
  · simp
  by_cases h53 : k = twoTo 53
  · subst h53
    rw [← twoTo_add, spacing, log2_twoTo]
    exact twoTo_dvd (by omega)
  · have hn : k * twoTo j ≠ 0 := Nat.ne_of_gt (Nat.mul_pos hk (twoTo_pos j))
    have hlt : k * twoTo j < twoTo (53 + j) := by
      rw [twoTo_add]
      exact Nat.mul_lt_mul_of_pos_right (by omega) (twoTo_pos j)
    have hlog := (log2_lt_iff hn).2 hlt
    exact Nat.dvd_trans (twoTo_dvd (by omega)) (Nat.dvd_mul_left _ k)

/-- Rounding meets the spacing of the rounded magnitude. -/
theorem spacing_dvd_roundUnits (num den : Nat) :
    spacing (roundUnits num den) ∣ roundUnits num den := by
  refine spacing_dvd_of_le _ (Nat.le_trans (roundHalfEven_le _ _) ?_)
  rw [← Nat.div_div_eq_div_mul]
  refine Nat.div_lt_of_lt_mul (Nat.lt_of_lt_of_le (lt_twoTo_log2 _) ?_)
  rw [spacing, ← twoTo_add]
  exact twoTo_le (by omega)

/-! ### Values from quotients, integers and decimals -/

/-- The number of decimal digits of a natural number; zero has one. -/
def digitCount (n : Nat) : Nat := (Nat.toDigits 10 n).length

namespace Binary64

/-- The value nearest to `num / den` units; a magnitude of the limit or more is infinite. -/
def ofRatio (negative : Bool) (num den : Nat) : Binary64 :=
  let units := roundUnits num den
  if h : units < unitsLimit then .finite ⟨negative, units, spacing_dvd_roundUnits num den, h⟩
  else .infinite negative

end Binary64

/-- The decimal `digits · 10 ^ exponent`. -/
structure Decimal where
  /-- The significant digits, read as one natural number. -/
  digits : Nat
  /-- The power of ten of the last digit. -/
  exponent : Int
  deriving DecidableEq, Repr

/-- The value nearest to a decimal or to its negation.  A decimal of more than 310 integer digits
lies beyond every number and one of more than 330 leading zeros below half a unit, so no power of
ten needs to be formed for them. -/
def Binary64.ofDecimal (negative : Bool) (d : Decimal) : Binary64 :=
  let size := digitCount d.digits + d.exponent
  if d.digits = 0 ∨ size < -330 then ofRatio negative 0 1
  else if 310 < size then .infinite negative
  else ofRatio negative (d.digits * tenTo d.exponent.toNat * unitsPerOne) (tenTo (-d.exponent).toNat)

namespace Number

/-- Positive zero. -/
def zero : Number := ⟨false, 0, Nat.dvd_zero _, unitsLimit_pos⟩

/-- The number nearest to an integer, if the integer is not too large. -/
def ofInt? (n : Int) : Option Number :=
  match Binary64.ofRatio (n < 0) (n.natAbs * unitsPerOne) 1 with
  | .finite x => some x
  | _ => none

/-- The signed count of units: the value itself, on a scale on which one is `unitsPerOne`. -/
def signedUnits (x : Number) : Int := if x.negative then -x.units else x.units

/-- The number with the other sign. -/
def negate (x : Number) : Number := { x with negative := !x.negative }

/-- The number has no fractional part. -/
def isInteger (x : Number) : Bool := x.units % unitsPerOne == 0

end Number

end Pddl
