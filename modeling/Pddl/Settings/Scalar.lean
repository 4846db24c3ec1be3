import Pddl.Settings.Basic

/-!
# Scalars of settings documents

A scalar of a YAML document stands in quotes, and then it is a text, or without them, and then it is
what it looks like: nothing, a truth value, an integer in one of several bases, a number with a
point, or a text.

* `Scalar.integer?`, `Scalar.real?` : the numbers that a scalar looks like.
* `Scalar.plain` : what a scalar without quotes is.
* `Scalar.doubleQuoted?`, `Scalar.singleQuoted?` : the text of a scalar in quotes.
-/

namespace Pddl

namespace Settings

namespace Scalar

/-! ### Integers -/

/-- The value of a hexadecimal digit. -/
def digitValue (c : Char) : Nat :=
  if c.isDigit then c.toNat - '0'.toNat else c.toLower.toNat - 'a'.toNat + 10

/-- The natural number that digits denote in a base. -/
def natOfBase (base : Nat) (digits : List Char) : Nat :=
  digits.foldl (fun n c => base * n + digitValue c) 0

/-- The character is a hexadecimal digit. -/
def isHexDigit (c : Char) : Bool := c.isDigit || ('a' ≤ c && c ≤ 'f') || ('A' ≤ c && c ≤ 'F')

/-- The natural number that digits and underscores denote in a base, if there is a digit and all of
them belong to the base. -/
def digits? (base : Nat) (belongs : Char → Bool) (cs : List Char) : Option Nat :=
  let digits := cs.filter (· != '_')
  if digits.isEmpty || !digits.all belongs then none else some (natOfBase base digits)

/-- The scalar begins with a digit that is not zero. -/
def beginsPositive (cs : List Char) : Bool := cs.head?.any fun c => c.isDigit && c != '0'

/-- The number below sixty that one or two digits denote. -/
def sixtieth? (cs : List Char) : Option Nat :=
  let n := natOfDigits cs
  if (cs.length = 1 ∨ cs.length = 2) ∧ cs.all Char.isDigit ∧ n < 60 then some n else none

/-- The number that parts between colons denote, each part worth sixty of the next one. -/
def ofSixtieths (parts : List Nat) : Nat := parts.foldl (fun n part => 60 * n + part) 0

/-- The unsigned integer that a scalar looks like: in base two behind `0b`, sixteen behind `0x`,
eight behind a zero, sixty with colons, and ten otherwise. -/
def unsigned? : List Char → Option Nat
  | '0' :: 'b' :: cs => digits? 2 (fun c => c == '0' || c == '1') cs
  | '0' :: 'x' :: cs => digits? 16 isHexDigit cs
  | '0' :: cs => digits? 8 (fun c => '0' ≤ c && c ≤ '7') ('0' :: cs)
  | cs =>
    if !beginsPositive cs then none
    else
      match cs.splitOn ':' with
      | [] => none
      | first :: parts => do
        return ofSixtieths ((← digits? 10 Char.isDigit first) :: (← parts.mapM sixtieth?))

/-- The integer that a scalar looks like. -/
def integer? (cs : List Char) : Option Int :=
  let (negative, cs) := Numeral.sign cs
  (unsigned? cs).map fun n => if negative then -n else n

/-! ### Numbers with a point -/

/-- The exponent at the end of a scalar, with its sign, or nothing. -/
def exponent? : List Char → Option Int
  | [] => some 0
  | e :: sign :: cs =>
    if (e == 'e' || e == 'E') && (sign == '+' || sign == '-') && !cs.isEmpty &&
        cs.all Char.isDigit then
      some (if sign == '-' then -natOfDigits cs else natOfDigits cs)
    else none
  | _ => none

/-- The unsigned number with a point that a scalar looks like: digits and underscores before and
behind the point and an exponent, or parts worth sixty of the next one and no exponent.  There must
be a digit first, or right behind the point if nothing is before it. -/
def magnitude? (cs : List Char) : Option Decimal := do
  let isPart := fun c : Char => c.isDigit || c == '_'
  let before := cs.takeWhile (· != '.')
  let behind := (cs.drop before.length).drop 1
  let places := (behind.takeWhile isPart).filter (· != '_')
  let tail := behind.dropWhile isPart
  if before.length = cs.length then none
  if before.isEmpty then
    if !behind.head?.any Char.isDigit then none
    return ⟨natOfDigits places, (← exponent? tail) - places.length⟩
  if !before.head?.any Char.isDigit then none
  match before.splitOn ':' with
  | [] => none
  | first :: parts =>
    let whole ← digits? 10 Char.isDigit first
    if parts.isEmpty then
      return ⟨whole * tenTo places.length + natOfDigits places, (← exponent? tail) - places.length⟩
    if !tail.isEmpty then none
    let whole := ofSixtieths (whole :: (← parts.mapM sixtieth?))
    return ⟨whole * tenTo places.length + natOfDigits places, -places.length⟩

/-- The word is in small letters, in capitals, or has only the first letter as a capital. -/
def isUniform (word : List Char) : Bool :=
  word.all Char.isLower || word.all Char.isUpper ||
    (word.head?.any Char.isUpper && (word.drop 1).all Char.isLower)

/-- The word in small letters, if it is written in a uniform way. -/
def uniformWord? (cs : List Char) : Option String :=
  if isUniform cs then some (String.ofList (cs.map Char.toLower)) else none

/-- The number with a point that a scalar looks like; infinities and "not a number" begin with a
point. -/
def real? (cs : List Char) : Option Binary64 :=
  let (negative, unsigned) := Numeral.sign cs
  if cs == ".nan".toList || cs == ".NaN".toList || cs == ".NAN".toList then some .nan
  else if unsigned.head? == some '.' && uniformWord? (unsigned.drop 1) == some "inf" then
    some (.infinite negative)
  else if cs.length != unsigned.length && unsigned.head? == some '.' then none
  else (magnitude? unsigned).map (.ofDecimal negative)

/-! ### Scalars without quotes -/

/-- The words for truth values. -/
def truthWords : List (String × Bool) :=
  [("true", true), ("yes", true), ("on", true), ("false", false), ("no", false), ("off", false)]

/-- What a scalar without quotes is. -/
def plain (cs : List Char) : Datum :=
  let word := uniformWord? cs
  if cs.isEmpty || cs == ['~'] || word == some "null" then .nothing
  else
    match word.bind fun w => truthWords.lookup w with
    | some b => .truth b
    | none =>
      match integer? cs with
      | some n => .integer n
      | none =>
        match real? cs with
        | some x => .real x
        | none => .text (String.ofList cs)

/-! ### Scalars in quotes -/

/-- The characters of the escapes with a single letter. -/
def escapes : List (Char × Nat) :=
  [('0', 0x00), ('a', 0x07), ('b', 0x08), ('t', 0x09), ('\t', 0x09), ('n', 0x0A), ('v', 0x0B),
    ('f', 0x0C), ('r', 0x0D), ('e', 0x1B), (' ', 0x20), ('\x22', 0x22), ('/', 0x2F),
    ('\\', 0x5C), ('N', 0x85), ('_', 0xA0), ('L', 0x2028), ('P', 0x2029)]

/-- The number of hexadecimal digits in the escapes of code points. -/
def escapeLengths : List (Char × Nat) := [('x', 2), ('u', 4), ('U', 8)]

/-- The character that an escape stands for, and how many characters there are behind the
backslash. -/
def escape? (cs : List Char) : Option (Char × Nat) := do
  let c ← cs.head?
  match escapeLengths.lookup c with
  | none => return (Char.ofNat (← escapes.lookup c), 1)
  | some count =>
    let digits := (cs.drop 1).take count
    if digits.length ≠ count ∨ !digits.all isHexDigit then none
    return (Char.ofNat (natOfBase 16 digits), count + 1)

/-- The text up to the closing double quotes and what is behind them, with some characters to pass
over first. -/
def doubleQuoted? (passed : Nat) : List Char → Option (List Char × List Char)
  | [] => none
  | c :: cs =>
    match passed with
    | passed + 1 => doubleQuoted? passed cs
    | 0 =>
      if c == '\x22' then some ([], cs)
      else if c == '\\' then
        match escape? cs with
        | none => none
        | some (x, length) =>
          (doubleQuoted? length cs).map fun (text, rest) => (x :: text, rest)
      else (doubleQuoted? 0 cs).map fun (text, rest) => (c :: text, rest)

/-- The text up to the closing single quote and what is behind it; a doubled quote stands for
one. -/
def singleQuoted? : List Char → Option (List Char × List Char)
  | [] => none
  | '\x27' :: '\x27' :: cs => (singleQuoted? cs).map fun (text, rest) => ('\x27' :: text, rest)
  | c :: cs =>
    if c == '\x27' then some ([], cs)
    else (singleQuoted? cs).map fun (text, rest) => (c :: text, rest)

end Scalar

end Settings

end Pddl
