import Pddl.Goal

/-!
# Durations and trajectories

* `DurationBound`, `DurationConstraint` : what the duration of an action must satisfy.
* `Constraint`, `Operand` : what must hold along the whole course of a plan; the operand of a
  modal operator is a goal or another constraint.
* `PreferredConstraint` : a constraint of a problem, perhaps only preferred.
-/

namespace Pddl

/-- A bound on the duration of an action. -/
inductive DurationBound where
  /-- The duration compares to a value. -/
  | compare (comparator : DurationComparator) (value : NumericExpression)
  /-- The bound is evaluated at a time point. -/
  | «at» (time : TimePoint) (bound : DurationBound)

namespace DurationBound

/-- The bound as a node. -/
protected def toNode : DurationBound → Node
  | compare c e => .form .durationBound [Pddl.toNode c, Pddl.toNode e]
  | «at» t b => .form .timedDurationBound [Pddl.toNode t, b.toNode]

instance : ToNode DurationBound := ⟨DurationBound.toNode⟩

end DurationBound

/-- Bounds that the duration of an action must all satisfy. -/
structure DurationConstraint where
  /-- The bounds. -/
  bounds : List DurationBound

instance : ToNode DurationConstraint := ⟨fun c => .form .durationConstraint [toNode c.bounds]⟩

/-! ### Trajectories -/

mutual

/-- A constraint on the course of a plan. -/
inductive Constraint where
  /-- All constraints hold. -/
  | conj (constraints : List Constraint)
  /-- The constraint holds for all objects. -/
  | universal (vars : TypedList Variable) (constraint : Constraint)
  /-- The goal holds in the final state. -/
  | atEnd (goal : Goal)
  /-- The condition holds in every state. -/
  | always (condition : Operand)
  /-- The condition holds in some state. -/
  | sometime (condition : Operand)
  /-- The condition holds within a time. -/
  | within (deadline : Number) (condition : Operand)
  /-- The condition becomes true at most once. -/
  | atMostOnce (condition : Operand)
  /-- Whenever the first condition holds, the second one holds then or later. -/
  | sometimeAfter (first second : Operand)
  /-- Whenever the first condition holds, the second one held before. -/
  | sometimeBefore (later earlier : Operand)
  /-- Whenever the first condition holds, the second one follows within a time. -/
  | alwaysWithin (deadline : Number) (first second : Operand)
  /-- The condition holds from one time up to another. -/
  | holdDuring (start stop : Number) (condition : Operand)
  /-- The condition holds from a time on. -/
  | holdAfter (time : Number) (condition : Operand)

/-- The operand of a modal operator. -/
inductive Operand where
  /-- A goal. -/
  | goal (goal : Goal)
  /-- A constraint inside another one. -/
  | constraint (constraint : Constraint)

end

mutual

/-- The constraint as a node. -/
protected def Constraint.toNode : Constraint → Node
  | .conj cs => .form .constraintAnd [.tuple (Constraint.toNodes cs)]
  | .universal vs c => .form .constraintForall [toNode vs, c.toNode]
  | .atEnd g => .form .atEnd [toNode g]
  | .always o => .form .always [o.toNode]
  | .sometime o => .form .sometime [o.toNode]
  | .within x o => .form .within [.number x, o.toNode]
  | .atMostOnce o => .form .atMostOnce [o.toNode]
  | .sometimeAfter o p => .form .sometimeAfter [o.toNode, p.toNode]
  | .sometimeBefore o p => .form .sometimeBefore [o.toNode, p.toNode]
  | .alwaysWithin x o p => .form .alwaysWithin [.number x, o.toNode, p.toNode]
  | .holdDuring x y o => .form .holdDuring [.number x, .number y, o.toNode]
  | .holdAfter x o => .form .holdAfter [.number x, o.toNode]

/-- The operand as a node. -/
protected def Operand.toNode : Operand → Node
  | .goal g => toNode g
  | .constraint c => c.toNode

/-- The constraints as nodes. -/
def Constraint.toNodes : List Constraint → List Node
  | [] => []
  | c :: cs => c.toNode :: Constraint.toNodes cs

end

instance : ToNode Constraint := ⟨Constraint.toNode⟩

instance : ToNode Operand := ⟨Operand.toNode⟩

/-- A constraint of a problem, perhaps only preferred. -/
inductive PreferredConstraint where
  /-- A constraint that must hold. -/
  | required (constraint : Constraint)
  /-- All constraints hold. -/
  | conj (constraints : List PreferredConstraint)
  /-- The constraint holds for all objects. -/
  | universal (vars : TypedList Variable) (constraint : PreferredConstraint)
  /-- A constraint that should hold, perhaps under a name. -/
  | preferred (name : Option PreferenceName) (constraint : Constraint)

namespace PreferredConstraint

mutual

/-- The constraint as a node. -/
protected def toNode : PreferredConstraint → Node
  | required c => c.toNode
  | conj cs => .form .preferenceAnd [.tuple (toNodes cs)]
  | universal vs c => .form .preferenceForall [Pddl.toNode vs, c.toNode]
  | preferred n c => .form .constraintPreference [Pddl.toNode n, c.toNode]

/-- The constraints as nodes. -/
def toNodes : List PreferredConstraint → List Node
  | [] => []
  | c :: cs => c.toNode :: toNodes cs

end

instance : ToNode PreferredConstraint := ⟨PreferredConstraint.toNode⟩

end PreferredConstraint

end Pddl
