import Pddl.Failure

/-!
# Cursors

A cursor is a place in a text, together with the depth of nesting at that place and the furthest
mismatch that was recovered from on the way there.  Cursors are values: reading on makes a new
one.

* `Cursor` : the place; the characters from there on and the character before are kept at hand.
* `Cursor.advance`, `Cursor.moveTo` : another place in the same text.
* `Cursor.taken?` : the place behind an expected character.
* `Cursor.mismatch` : the mismatch to report, which is the remembered one if that lies further on.
* `Cursor.report` : the same for every cause; the others are reported at the very place.
* `Cursor.recovered` : the same place, remembering a mismatch if none further on is remembered.
* `Cursor.deeper?` : one level of nesting more, up to the ceiling.
-/

namespace Pddl

/-- How deeply constructs may nest where nothing else is said. -/
def defaultCeiling : Nat := 40

theorem defaultCeiling_pos : 0 < defaultCeiling := by decide

/-- The character before an offset. -/
def charBefore (text : List Char) : Nat → Option Char
  | 0 => none
  | offset + 1 => text[offset]?

/-- A place in a text. -/
structure Cursor where
  /-- The whole text. -/
  text : List Char
  /-- The number of characters before the place; it may lie beyond the end of the text. -/
  offset : Nat
  /-- The characters from the place on. -/
  rest : List Char
  /-- The character before the place. -/
  previous : Option Char
  /-- How many levels of nesting are open. -/
  depth : Nat
  /-- How many levels of nesting may be open. -/
  ceiling : Nat
  /-- The furthest mismatch that was recovered from. -/
  furthest : Option Mismatch
  rest_eq : rest = text.drop offset
  previous_eq : previous = charBefore text offset

namespace Cursor

/-- The place at an offset of a text. -/
def ofOffset (text : List Char) (offset depth ceiling : Nat) : Cursor where
  text := text
  offset := offset
  rest := text.drop offset
  previous := charBefore text offset
  depth := depth
  ceiling := ceiling
  furthest := none
  rest_eq := rfl
  previous_eq := rfl

/-- The beginning of a text. -/
def ofText (text : List Char) (ceiling : Nat) : Cursor := ofOffset text 0 0 ceiling

variable (c : Cursor)

/-- The place at another offset of the same text. -/
def moveTo (offset : Nat) : Cursor :=
  { c with
    offset := offset
    rest := c.text.drop offset
    previous := charBefore c.text offset
    rest_eq := rfl
    previous_eq := rfl }

/-- The place some characters further on. -/
def advance : Nat → Cursor
  | 0 => c
  | n + 1 =>
    { c with
      offset := c.offset + (n + 1)
      rest := c.rest.drop (n + 1)
      previous := c.rest[n]?
      rest_eq := by rw [c.rest_eq, List.drop_drop]
      previous_eq := by rw [c.rest_eq, List.getElem?_drop, ← Nat.add_assoc, charBefore] }

/-- The character at a distance from the place. -/
def peek? (distance : Int) : Option Char :=
  let index := c.offset + distance
  if index < 0 then none else c.text[index.toNat]?

/-- The text of the character at a distance from the place, which is empty outside the text. -/
def peekText (distance : Int) : String := ((c.peek? distance).map String.singleton).getD ""

/-- The whole text lies before the place. -/
def atEnd : Bool := c.rest.isEmpty

/-- The position of the place. -/
def position : Position := Position.of c.text c.offset

/-- The cursors at a place that differ in nothing but what they keep at hand are equal. -/
theorem ext_of_eq {c d : Cursor} (text : c.text = d.text) (offset : c.offset = d.offset)
    (depth : c.depth = d.depth) (ceiling : c.ceiling = d.ceiling)
    (furthest : c.furthest = d.furthest) : c = d := by
  rcases c with ⟨text, offset, rest, previous, depth, ceiling, furthest, hr, hp⟩
  rcases d with ⟨text', offset', rest', previous', depth', ceiling', furthest', hr', hp'⟩
  simp only at text offset depth ceiling furthest
  subst text offset depth ceiling furthest hr hp hr' hp'
  rfl

theorem advance_eq_moveTo (n : Nat) : c.advance n = c.moveTo (c.offset + n) := by
  cases n <;> exact ext_of_eq rfl rfl rfl rfl rfl

/-! ### Mismatches -/

/-- A mismatch at this very place. -/
def mismatchHere (cause : Mismatch.Cause) (expected : Expectation) : Mismatch :=
  ⟨cause, expected, c.offset⟩

/-- The mismatch to report where something expected is not there. -/
def mismatch (expected : Expectation) : Mismatch :=
  match c.furthest with
  | some m => if c.offset < m.offset then m else c.mismatchHere .unmatched expected
  | none => c.mismatchHere .unmatched expected

/-- The mismatch to report for a cause.  Only a mere expectation that failed gives way to what is
remembered. -/
def report : Mismatch.Cause → Expectation → Mismatch
  | .unmatched => c.mismatch
  | cause => c.mismatchHere cause

/-- The place behind an expected character; where none is expected, the end of the text. -/
def taken? (expected : Option Char) : Except Mismatch Cursor :=
  if c.rest.head? = expected then .ok (c.advance 1)
  else .error (c.mismatch (.word ((expected.map String.singleton).getD "")))

/-- The same place, remembering a mismatch that was recovered from. -/
def recovered (m : Mismatch) : Cursor :=
  if m.offset ≤ c.offset then c
  else
    match c.furthest with
    | some known => if m.offset ≤ known.offset then c else { c with furthest := some m }
    | none => { c with furthest := some m }

/-! ### Nesting -/

/-- The same place with another number of open levels. -/
def withDepth (depth : Nat) : Cursor := { c with depth := depth }

/-- The same place with one more open level. -/
def deeper? : Except Failure Cursor :=
  if c.depth < c.ceiling then .ok (c.withDepth (c.depth + 1))
  else .error (.tooDeep c.ceiling c.offset)

/-! ### Blanks -/

/-- The place behind the blanks and comments. -/
def skipBlanks : Cursor := c.advance (blankLength false c.rest)

/-- The place behind what separates two elements of a list: blanks and comments, also just before
the place, or nothing at all next to a parenthesis. -/
def separated? : Except Mismatch Cursor :=
  let next := c.skipBlanks
  if c.offset < next.offset || c.previous.any (fun x => x == ')' || isWideBlank x)
      || c.rest.head?.any (fun x => x == '(' || x == ')') then .ok next
  else .error (c.mismatch .separation)

end Cursor

end Pddl
