import Pddl.Number.Binary64

/-!
# The order of numbers

Numbers are compared exactly, with each other, with any binary64 value and with integers of any
size; the two zeros are equal.  Two relations are primitive, `equals` and `below`; the other four
are made from them, so a comparison with "not a number" finds it neither equal nor below and
hence above.

* `Comparand` : what a number can be compared with; a text is only ever unequal.
* `Comparand.equals`, `Comparand.below?` : the two primitive relations.
* `sortNumbers`, `distinctNumbers` : a stable sort, and the first of each run of equals.
-/

namespace Pddl

/-- What a number can be compared with. -/
inductive Comparand where
  /-- A binary64 value. -/
  | value (x : Binary64)
  /-- An integer of any size. -/
  | integer (n : Int)
  /-- A text, which has no place in the order. -/
  | text (s : String)

/-- The four relations that follow from equality and precedence. -/
inductive OrderRelation where
  | less | atMost | greater | atLeast
  deriving DecidableEq, Repr

namespace Comparand

/-- The number equals the comparand. -/
def equals (a : Number) : Comparand → Bool
  | value (.finite b) => a.signedUnits == b.signedUnits
  | value _ => false
  | integer n => a.signedUnits == n * unitsPerOne
  | text _ => false

/-- The number precedes the comparand, if the two have an order. -/
def below? (a : Number) : Comparand → Option Bool
  | value (.finite b) => some (a.signedUnits < b.signedUnits)
  | value (.infinite negative) => some !negative
  | value .nan => some false
  | integer n => some (a.signedUnits < n * unitsPerOne)
  | text _ => none

/-- The number stands in the relation to the comparand, if the two have an order. -/
def holds? (a : Number) (b : Comparand) (r : OrderRelation) : Option Bool :=
  (below? a b).map fun below =>
    match r with
    | .less => below
    | .atMost => below || equals a b
    | .greater => !below && !equals a b
    | .atLeast => !below

end Comparand

/-- The numbers in ascending order; equal numbers keep their order. -/
def sortNumbers (xs : List Number) : List Number :=
  xs.mergeSort fun a b => a.signedUnits ≤ b.signedUnits

/-- The first of each run of equal numbers. -/
def distinctNumbers : List Number → List Number
  | [] => []
  | [a] => [a]
  | a :: b :: xs =>
    if a.signedUnits = b.signedUnits then
      match distinctNumbers (b :: xs) with
      | [] => [a]
      | _ :: rest => a :: rest
    else a :: distinctNumbers (b :: xs)

end Pddl
