import Pddl.Node.Basic

/-!
# Types and typed lists

Parameters, objects and declarations are listed with their types.  The compact notation
`x y z - type` gives one type to several neighbours; the list itself keeps one type per item, in
declared order.

* `TypeSpec` : one primitive type or a choice among several.
* `Typed`, `TypedList` : a value with its type, and a list of those.
* `TypedList.get?`, `TypedList.slice?` : items by position, where negative positions count from
  the end, and evenly spaced items.
-/

namespace Pddl

/-- The type of an item. -/
inductive TypeSpec where
  /-- Exactly one primitive type. -/
  | exact (type : PrimitiveType)
  /-- A choice among primitive types. -/
  | either (types : List PrimitiveType)
  deriving DecidableEq

instance : ToNode TypeSpec where
  toNode
    | .exact t => .form .exactType [.symbol t]
    | .either ts => .form .eitherType [toNode ts]

/-- The type of an item that is listed without a type. -/
def TypeSpec.object : TypeSpec := .exact objectType

/-- The type of a function that is declared without a type. -/
def TypeSpec.number : TypeSpec := .exact numberType

/-- A value with its type. -/
structure Typed (α : Type) where
  /-- The value. -/
  value : α
  /-- Its type. -/
  type : TypeSpec
  deriving DecidableEq

instance {α : Type} [ToNode α] : ToNode (Typed α) :=
  ⟨fun t => .form .typed [toNode t.value, toNode t.type]⟩

/-- A list of values with their types. -/
structure TypedList (α : Type) where
  /-- The items in declared order. -/
  items : List (Typed α) := []
  deriving DecidableEq

instance {α : Type} [ToNode α] : ToNode (TypedList α) :=
  ⟨fun l => .form .typedList [toNode l.items]⟩

/-! ### Items by position -/

/-- The element at a position; a negative position counts from the end. -/
def elementAt? {α : Type} (as : List α) (position : Int) : Option α :=
  if 0 ≤ position then as[position.toNat]?
  else if position.natAbs ≤ as.length then as[as.length - position.natAbs]?
  else none

/-- A bound of a slice as a position from the start, kept between the given limits. -/
def sliceBound (length : Nat) (low high : Int) (bound : Int) : Int :=
  max low (min high (if bound < 0 then bound + length else bound))

/-- The elements from one bound up to another at even distances, or nothing if the distance is
zero.  A missing bound is the end of the list at which the slice starts or stops. -/
def slice? {α : Type} (as : List α) (start stop step : Option Int) : Option (List α) :=
  let step := step.getD 1
  let length := as.length
  if step = 0 then none
  else if 0 < step then
    let first := (start.map (sliceBound length 0 length)).getD 0
    let last := (stop.map (sliceBound length 0 length)).getD length
    let count := ((last - first + step - 1) / step).toNat
    some ((List.range count).filterMap fun k : Nat => as[(first + k * step).toNat]?)
  else
    let first := (start.map (sliceBound length (-1) (length - 1))).getD (length - 1)
    let last := (stop.map (sliceBound length (-1) (length - 1))).getD (-1)
    let count := ((first - last - step - 1) / -step).toNat
    some ((List.range count).filterMap fun k : Nat => as[(first + k * step).toNat]?)

end Pddl
