import Pddl.Domain

/-!
# Problems

A problem poses a task in some domain: objects, an initial state, a goal, and perhaps constraints
and a metric to optimise.

* `InitialFact` : an element of the initial state.
* `Metric`, `LengthBounds` : how plans are measured.
* `Problem` : a problem, section by section.
-/

namespace Pddl

/-- An element of the initial state. -/
inductive InitialFact where
  /-- A literal holds from the start. -/
  | literal (l : Literal Name)
  /-- A literal comes to hold at a time. -/
  | timed (time : Number) (l : Literal Name)
  /-- A numeric fluent has a value. -/
  | numeric (term : GroundTerm) (value : Number)
  /-- An object fluent has a value. -/
  | object (term : GroundTerm) (value : Name)

instance : ToNode InitialFact where
  toNode
    | .literal l => toNode l
    | .timed x l => .form .timedLiteral [toNode x, toNode l]
    | .numeric t x => .form .numericValue [toNode t, toNode x]
    | .object t n => .form .objectValue [toNode t, toNode n]

/-- What plans are measured by. -/
structure Metric where
  /-- The direction of optimisation. -/
  optimization : Optimization
  /-- The measure. -/
  expression : MetricExpression

instance : ToNode Metric := ⟨fun m => .form .metric [toNode m.optimization, toNode m.expression]⟩

/-- Bounds on the length of plans. -/
structure LengthBounds where
  /-- The number of steps one after another. -/
  serial : Option Nat := none
  /-- The number of steps at the same time. -/
  parallel : Option Nat := none

instance : ToNode LengthBounds := ⟨fun l => .form .length [toNode l.serial, toNode l.parallel]⟩

/-- A planning problem. -/
structure Problem where
  /-- The name. -/
  name : Name
  /-- The domain in which it is posed. -/
  domain : Name
  /-- The requirement flags that it declares. -/
  requirements : Requirements := .none
  /-- The objects. -/
  objects : TypedList Name := {}
  /-- The initial state. -/
  init : List InitialFact := []
  /-- The goal. -/
  goal : Preconditions := {}
  /-- The constraints on plans. -/
  constraints : PreferredConstraint := .conj []
  /-- The metric, if there is one. -/
  metric : Option Metric := none
  /-- The bounds on the length of plans, if there are any. -/
  length : Option LengthBounds := none

instance : ToNode Problem where
  toNode p := .form .problem
    [toNode p.name, toNode p.domain, toNode p.requirements, toNode p.objects, toNode p.init,
      toNode p.goal, toNode p.constraints, toNode p.metric, toNode p.length]

end Pddl
