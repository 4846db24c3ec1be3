import Pddl.Number.Binary64
import Pddl.Text.Blank
import Pddl.Text.Digit

/-!
# Numerals

Numerals as they stand in data, which are freer than the numbers of a planning text: blanks around
them, digits of any script, a sign, an underscore between two digits, an exponent, and the names
of the values that are no numbers.

* `Binary64.ofNumeral?` : the value that a numeral denotes, rounded to the nearest.
* `intOfNumeral?` : the integer that a numeral without point and exponent denotes.
* `natOfDigits` : the natural number that decimal digits denote.
-/

namespace Pddl

/-- The natural number that decimal digits denote. -/
def natOfDigits (digits : List Char) : Nat :=
  digits.foldl (fun n c => 10 * n + (c.toNat - '0'.toNat)) 0

namespace Numeral

/-- The text without the blanks at either end. -/
def trim (cs : List Char) : List Char :=
  ((cs.dropWhile isWideBlank).reverse.dropWhile isWideBlank).reverse

/-- The text without its underscores, each of which must stand between two digits. -/
def ungroup? (afterDigit : Bool) : List Char → Option (List Char)
  | [] => some []
  | c :: cs =>
    if c == '_' then
      if afterDigit && cs.head?.any Char.isDigit then ungroup? false cs else none
    else (ungroup? c.isDigit cs).map (c :: ·)

/-- An optional sign: whether it is a minus, and the rest. -/
def sign : List Char → Bool × List Char
  | '-' :: cs => (true, cs)
  | '+' :: cs => (false, cs)
  | cs => (false, cs)

/-- An optional fraction, a point and perhaps digits: the digits and the rest. -/
def fraction : List Char → List Char × List Char
  | '.' :: cs => (cs.takeWhile Char.isDigit, cs.dropWhile Char.isDigit)
  | cs => ([], cs)

/-- An exponent, or nothing at the end of the numeral. -/
def exponent? : List Char → Option Int
  | [] => some 0
  | c :: cs =>
    let (negative, digits) := sign cs
    if (c == 'e' || c == 'E') && !digits.isEmpty && digits.all Char.isDigit then
      some (if negative then -natOfDigits digits else natOfDigits digits)
    else none

/-- The value of an unsigned numeral. -/
def magnitude? (negative : Bool) (cs : List Char) : Option Binary64 :=
  let word := String.ofList (cs.map Char.toLower)
  if word == "nan" then some .nan
  else if word == "inf" || word == "infinity" then some (.infinite negative)
  else
    let whole := cs.takeWhile Char.isDigit
    let (places, rest) := fraction (cs.dropWhile Char.isDigit)
    if whole.isEmpty && places.isEmpty then none
    else (exponent? rest).map fun e =>
      .ofDecimal negative ⟨natOfDigits (whole ++ places), e - places.length⟩

end Numeral

open Numeral

/-- The value that a numeral denotes. -/
def Binary64.ofNumeral? (text : String) : Option Binary64 := do
  let (negative, cs) := sign (← ungroup? false (trim (text.toList.map asciiDigit)))
  magnitude? negative cs

/-- The integer that a numeral denotes. -/
def intOfNumeral? (text : String) : Option Int := do
  let (negative, cs) := sign (← ungroup? false (trim (text.toList.map asciiDigit)))
  if cs.isEmpty || !cs.all Char.isDigit then none
  else some (if negative then -natOfDigits cs else natOfDigits cs)

end Pddl
