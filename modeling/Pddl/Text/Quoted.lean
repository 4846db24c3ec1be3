import Pddl.Text.Printable

/-!
# Quoted texts

Messages show a text from outside in quotes, so that its end can be seen, and with everything that
cannot be shown as it is written as an escape.

* `hexDigits` : a number of hexadecimal digits.
* `displayText` : a text in quotes; single ones, unless the text holds single but no double ones.
-/

namespace Pddl

/-- The lower-case hexadecimal digit of a number below sixteen. -/
def hexDigit (n : Nat) : Char :=
  if n < 10 then Char.ofNat ('0'.toNat + n) else Char.ofNat ('a'.toNat + (n - 10))

/-- The last hexadecimal digits of a number, the most significant one first. -/
def hexDigits : (count : Nat) → Nat → List Char
  | 0, _ => []
  | count + 1, n => hexDigits count (n / 16) ++ [hexDigit (n % 16)]

/-- A character by its code point, in two, four or eight hexadecimal digits. -/
def codePointEscape (c : Char) : List Char :=
  if c.toNat < 0x100 then '\\' :: 'x' :: hexDigits 2 c.toNat
  else if c.toNat < 0x10000 then '\\' :: 'u' :: hexDigits 4 c.toNat
  else '\\' :: 'U' :: hexDigits 8 c.toNat

/-- A character between quotes of the given sort. -/
def quotedChar (quote c : Char) : List Char :=
  if c == quote || c == '\\' then ['\\', c]
  else if c == '\n' then ['\\', 'n']
  else if c == '\r' then ['\\', 'r']
  else if c == '\t' then ['\\', 't']
  else if isPrintable c then [c]
  else codePointEscape c

/-- The sort of quotes around a text. -/
def quoteAround (cs : List Char) : Char :=
  if cs.contains '\x27' && !cs.contains '\x22' then '\x22' else '\x27'

/-- A text in quotes. -/
def displayText (text : String) : String :=
  let quote := quoteAround text.toList
  String.ofList (quote :: text.toList.flatMap (quotedChar quote) ++ [quote])

end Pddl
