import Pddl.Number.Shortest

/-!
# Spellings of numbers

A number has two spellings.  Planning texts know only digits with an optional decimal point, so
`Number.plain` writes an integer with all its digits and any other number positionally.  For
display, `Number.display` switches to an exponent for very large and very small numbers.  Both
show the shortest digits that read back, except that a plain integer shows its exact value.

* `Number.plain` : digits, optionally a point and digits; never an exponent.
* `Number.written` : the plain spelling as a planning expression, where a negative number is the
  negation of a positive one.
* `Number.display`, `Binary64.display` : with an exponent from 10¹⁶ on and below 10⁻⁴.
-/

namespace Pddl

/-- The decimal without an exponent; a point stands in it exactly when its exponent is
negative. -/
def Decimal.positional (d : Decimal) : List Char :=
  let digits := Nat.toDigits 10 d.digits
  if 0 ≤ d.exponent then digits ++ List.replicate d.exponent.toNat '0'
  else
    let places := (-d.exponent).toNat
    let padded := List.replicate (places + 1 - digits.length) '0' ++ digits
    padded.take (padded.length - places) ++ '.' :: padded.drop (padded.length - places)

/-- The decimal with one digit before the point and an exponent of at least two digits. -/
def Decimal.scientific (d : Decimal) : List Char :=
  let digits := Nat.toDigits 10 d.digits
  let exponent := d.exponent + digits.length - 1
  let magnitude := Nat.toDigits 10 exponent.natAbs
  let fraction := if digits.length ≤ 1 then [] else '.' :: digits.drop 1
  digits.take 1 ++ fraction ++ 'e' :: (if exponent < 0 then '-' else '+') ::
    (List.replicate (2 - magnitude.length) '0' ++ magnitude)

namespace Number

/-- The digits of the magnitude in a planning text. -/
def plainMagnitude (x : Number) : List Char :=
  if x.isInteger then Nat.toDigits 10 (x.units / unitsPerOne)
  else (shortestDecimal x.units).positional

/-- The number with all its digits and no exponent; zero has no sign. -/
def plain (x : Number) : String :=
  String.ofList ((if x.negative && x.units != 0 then ['-'] else []) ++ x.plainMagnitude)

/-- The number as a planning expression. -/
def written (x : Number) : String :=
  if x.signedUnits < 0 then "(- " ++ x.negate.plain ++ ")" else x.plain

/-- The magnitude for display: positional from 10⁻⁴ up to 10¹⁶, with at least one decimal, and
with an exponent outside. -/
def displayMagnitude (units : Nat) : List Char :=
  if units = 0 then ['0', '.', '0']
  else
    let d := shortestDecimal units
    let lead := d.exponent + digitCount d.digits - 1
    if -4 ≤ lead ∧ lead < 16 then
      d.positional ++ (if 0 ≤ d.exponent then ['.', '0'] else [])
    else d.scientific

/-- The number for display; zero keeps its sign. -/
def display (x : Number) : String :=
  String.ofList ((if x.negative then ['-'] else []) ++ displayMagnitude x.units)

end Number

/-- The value for display. -/
def Binary64.display : Binary64 → String
  | .nan => "nan"
  | .infinite negative => if negative then "-inf" else "inf"
  | .finite x => x.display

end Pddl
