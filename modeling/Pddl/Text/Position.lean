/-!
# Positions in a text

A position names a place in a text for a reader: the line, counted from one, and the column,
counted from zero in code points.  Only a line feed starts a new line.  The line of an offset is
searched for in a table of all lines.

* `lineStarts` : the table of the offsets at which lines begin.
* `bisectRight` : how many entries of a table are not beyond an offset, by binary search.
* `Position.of` : the position of an offset; past the end of the text the column keeps counting.
-/

namespace Pddl

/-! ### Tables of lines -/

/-- The offsets just behind the line feeds of a text that itself begins at an offset. -/
def startsBehind (offset : Nat) : List Char → List Nat
  | [] => []
  | c :: cs =>
    if c = '\n' then (offset + 1) :: startsBehind (offset + 1) cs else startsBehind (offset + 1) cs

/-- The offsets at which the lines of a text begin. -/
def lineStarts (text : List Char) : Array Nat := (0 :: startsBehind 0 text).toArray

/-- The index of the first entry beyond `x`, if it is from `low` up to `high`. -/
def bisectRight (entries : Array Nat) (x low high : Nat) : Nat :=
  if low < high then
    let middle := (low + high) / 2
    if x < entries.getD middle 0 then bisectRight entries x low middle
    else bisectRight entries x (middle + 1) high
  else low
termination_by high - low

/-! ### Positions -/

/-- A place in a text as a reader counts it. -/
structure Position where
  /-- The line, counted from one. -/
  line : Nat
  /-- The column, counted from zero. -/
  column : Nat
  deriving DecidableEq, Repr

/-- The position of an offset in a text.  Its line is the number of lines that begin at or before
it, the last of which it is in. -/
def Position.of (text : List Char) (offset : Nat) : Position :=
  let starts := lineStarts text
  let line := bisectRight starts offset 0 starts.size
  ⟨line, offset - starts.getD (line - 1) 0⟩

end Pddl
