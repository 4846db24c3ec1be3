import Pddl.Node.Basic

/-!
# Walking through syntax nodes

* `Node.subnodes` : a node and everything below it, each node before what is below it and the
  fields of a form in their order; the name inside a symbol and the value inside a number are
  nodes of their own.
* `Node.describe` : the type of a node, with the text of a word.
* `Node.memberNodes`, `Node.size?`, `Node.isVacuous?`, `Node.sole?` : the constructs that collect
  members.
-/

namespace Pddl

namespace Node

mutual

/-- The node and everything below it. -/
def subnodes : Node → List Node
  | form kind fields => form kind fields :: allSubnodes fields
  | tuple members => tuple members :: allSubnodes members
  | symbol s => [symbol s, text s.text]
  | number x => [number x, float (.finite x)]
  | n => [n]

/-- The nodes and everything below them. -/
def allSubnodes : List Node → List Node
  | [] => []
  | n :: ns => subnodes n ++ allSubnodes ns

end

theorem mem_subnodes_self (n : Node) : n ∈ n.subnodes := by
  cases n <;> simp [subnodes]

/-- The type of the node, followed by a word as it is displayed. -/
def describe (n : Node) : String :=
  if n.word?.isSome then n.typeName ++ ":" ++ n.display else n.typeName

/-! ### Constructs that collect members -/

/-- The members of a construct that collects them. -/
def memberNodes : Node → List Node
  | form _ (tuple members :: _) => members
  | _ => []

/-- The kind of construct has a size: it collects members. -/
def hasSize : Kind → Bool
  | .typedList | .preconditions | .consequent | .effects | .durationConstraint
  | .requirements => true
  | _ => false

/-- The number of members of a construct, or of characters of a name. -/
def size? : Node → Option Nat
  | symbol s => some s.text.length
  | n@(form kind _) => if hasSize kind then some n.memberNodes.length else none
  | _ => none

/-- The kind of construct gives its members one after another. -/
def isIterable : Kind → Bool
  | .preconditions | .consequent | .effects | .durationConstraint => true
  | _ => false

/-- The kind of construct gives its members by position. -/
def isIndexed : Kind → Bool
  | .typedList | .preconditions | .consequent | .effects => true
  | _ => false

mutual

/-- Every node is a conjunction of trajectory constraints that constrains nothing. -/
def allUnconstraining : List Node → Bool
  | [] => true
  | n :: ns => isUnconstraining n && allUnconstraining ns

/-- The node is a conjunction of trajectory constraints that constrains nothing. -/
def isUnconstraining : Node → Bool
  | form .constraintAnd [tuple cs] => allUnconstraining cs
  | _ => false

end

/-- Whether a construct holds nothing, for the kinds that can tell: conjunctions of trajectory
constraints look through conjunctions inside them, the others only count their members. -/
def isVacuous? (n : Node) : Option Bool :=
  match n with
  | form .constraintAnd _ => some n.isUnconstraining
  | form .preferenceAnd _ | form .preconditions _ | form .effects _ | form .requirements _ =>
    some n.memberNodes.isEmpty
  | _ => none

/-- The only effect, if there is exactly one. -/
def sole? (n : Node) : Option Node :=
  match n with
  | form .effects [tuple [one]] => some one
  | _ => none

end Node

end Pddl
