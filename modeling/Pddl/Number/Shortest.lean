import Pddl.Number.Binary64

/-!
# Shortest decimals

Of all decimals that round to a given magnitude, the shortest is the one with the fewest
significant digits; among those it is the one nearest to the magnitude, a tie going to the even
digit.

* `RoundingInterval` : the decimals that round to a magnitude lie between two bounds, given in quarters
  of a unit; the bounds belong to it exactly when the magnitude's last binary digit is zero.
* `shortestDecimal` : grids of one, two, … seventeen significant digits are tried in turn, and
  on each grid only the two neighbours of the magnitude can be the nearest hit.
-/

namespace Pddl

/-- The interval of magnitudes that round to one magnitude. -/
structure RoundingInterval where
  /-- The lower bound, in quarters of a unit. -/
  lower : Nat
  /-- The upper bound, in quarters of a unit. -/
  upper : Nat
  /-- The bounds themselves belong to the interval. -/
  closed : Bool

namespace RoundingInterval

/-- The interval of a positive magnitude.  Below a power of two the spacing is half as wide. -/
def around (units : Nat) : RoundingInterval where
  lower := 4 * units -
    (if units = twoTo units.log2 ∧ 53 ≤ units.log2 then spacing units else 2 * spacing units)
  upper := 4 * units + 2 * spacing units
  closed := units / spacing units % 2 == 0

/-- The decimal lies in the interval. -/
def contains (i : RoundingInterval) (d : Decimal) : Bool :=
  let quarters := 4 * (d.digits * tenTo d.exponent.toNat * unitsPerOne)
  let lower := i.lower * tenTo (-d.exponent).toNat
  let upper := i.upper * tenTo (-d.exponent).toNat
  if i.closed then lower ≤ quarters && quarters ≤ upper else lower < quarters && quarters < upper

end RoundingInterval

/-- The power of ten of the first significant digit of a positive magnitude. -/
def leadingExponent (units : Nat) : Int :=
  if unitsPerOne ≤ units then digitCount (units / unitsPerOne) - 1
  else -(digitCount ((unitsPerOne - 1) / units) : Int)

/-- The decimal with the given last power of ten that is nearest to the magnitude among those
that round to it. -/
def nearestOnGrid? (units : Nat) (exponent : Int) : Option Decimal :=
  let num := units * tenTo (-exponent).toNat
  let den := unitsPerOne * tenTo exponent.toNat
  let below : Decimal := ⟨num / den, exponent⟩
  let above : Decimal := ⟨num / den + 1, exponent⟩
  let nearest := if roundHalfEven num den = num / den then below else above
  let other := if roundHalfEven num den = num / den then above else below
  [nearest, other].find? (RoundingInterval.around units).contains

/-- The same decimal without zeros at the end of its digits. -/
def Decimal.trim (d : Decimal) : Decimal :=
  let zeros := ((Nat.toDigits 10 d.digits).reverse.takeWhile (· == '0')).length
  ⟨d.digits / tenTo zeros, d.exponent + zeros⟩

/-- The shortest decimal that rounds to a positive magnitude. -/
def shortestDecimal (units : Nat) : Decimal :=
  let lead := leadingExponent units
  match (List.range 17).findSome? fun i : Nat => nearestOnGrid? units (lead - i) with
  | some d => d.trim
  | none => ⟨0, 0⟩

end Pddl
