import Pddl.Expression

/-!
# Goals, preconditions and conditions

* `Goal` : the logical language of goals.
* `PreferredGoal` : a goal or the preference for one.
* `Preconditions` : a list of preconditions, each a goal, a preference or a quantified list; an
  explicit conjunction of preconditions is no construct of its own but part of the list.
* `TimedGoal`, `PreferredTimedGoal`, `Condition` : goals at a time point or over an interval, and
  the conditions of durative actions made of them.
-/

namespace Pddl

/-- A goal description. -/
inductive Goal where
  /-- An atomic formula. -/
  | atom (formula : AtomicFormula Term)
  /-- A literal that is no other goal. -/
  | literal (l : Literal Term)
  /-- All goals hold. -/
  | conj (goals : List Goal)
  /-- Some goal holds. -/
  | disj (goals : List Goal)
  /-- The goal does not hold. -/
  | neg (goal : Goal)
  /-- The conclusion holds if the premise does. -/
  | imply (premise conclusion : Goal)
  /-- The goal holds for some objects. -/
  | existential (vars : TypedList Variable) (goal : Goal)
  /-- The goal holds for all objects. -/
  | universal (vars : TypedList Variable) (goal : Goal)
  /-- A comparison of numeric expressions holds. -/
  | compare (comparison : Comparison)

namespace Goal

mutual

/-- The goal as a node. -/
protected def toNode : Goal → Node
  | atom f => Pddl.toNode f
  | literal l => Pddl.toNode l
  | conj gs => .form .conjunction [.tuple (toNodes gs)]
  | disj gs => .form .disjunction [.tuple (toNodes gs)]
  | neg g => .form .negation [g.toNode]
  | imply p c => .form .implication [p.toNode, c.toNode]
  | existential vs g => .form .existential [Pddl.toNode vs, g.toNode]
  | universal vs g => .form .universal [Pddl.toNode vs, g.toNode]
  | compare c => Pddl.toNode c

/-- The goals as nodes. -/
def toNodes : List Goal → List Node
  | [] => []
  | g :: gs => g.toNode :: toNodes gs

end

instance : ToNode Goal := ⟨Goal.toNode⟩

end Goal

/-- A goal, or the preference for one. -/
inductive PreferredGoal where
  /-- A goal that must hold. -/
  | required (goal : Goal)
  /-- A goal that should hold, perhaps under a name. -/
  | preferred (name : Option PreferenceName) (goal : Goal)

instance : ToNode PreferredGoal where
  toNode
    | .required g => toNode g
    | .preferred n g => .form .preference [toNode n, toNode g]

/-- A precondition. -/
inductive Precondition where
  /-- A goal or a preference. -/
  | goal (goal : PreferredGoal)
  /-- Preconditions for all objects. -/
  | universal (vars : TypedList Variable) (goals : List Precondition)

/-- A list of preconditions, all of which must hold. -/
structure Preconditions where
  /-- The preconditions. -/
  goals : List Precondition := []

namespace Precondition

mutual

/-- The precondition as a node. -/
protected def toNode : Precondition → Node
  | goal g => Pddl.toNode g
  | universal vs gs =>
    .form .preconditionForall [Pddl.toNode vs, .form .preconditions [.tuple (toNodes gs)]]

/-- The preconditions as nodes. -/
def toNodes : List Precondition → List Node
  | [] => []
  | g :: gs => g.toNode :: toNodes gs

end

instance : ToNode Precondition := ⟨Precondition.toNode⟩

end Precondition

instance : ToNode Preconditions :=
  ⟨fun p => .form .preconditions [.tuple (Precondition.toNodes p.goals)]⟩

/-- The preconditions of several lists, in order. -/
def Preconditions.join (ps : List Preconditions) : Preconditions := ⟨ps.flatMap goals⟩

/-! ### Conditions of durative actions -/

/-- A goal at a time point or over an interval of a durative action. -/
inductive TimedGoal where
  /-- The goal holds at a time point. -/
  | «at» (time : TimePoint) (goal : Goal)
  /-- The goal holds over an interval. -/
  | over (interval : Interval) (goal : Goal)

instance : ToNode TimedGoal where
  toNode
    | .at t g => .form .goalAt [toNode t, toNode g]
    | .over i g => .form .goalOver [toNode i, toNode g]

/-- A timed goal, or the preference for one. -/
inductive PreferredTimedGoal where
  /-- A timed goal that must hold. -/
  | required (goal : TimedGoal)
  /-- A timed goal that should hold, perhaps under a name. -/
  | preferred (name : Option PreferenceName) (goal : TimedGoal)

instance : ToNode PreferredTimedGoal where
  toNode
    | .required g => toNode g
    | .preferred n g => .form .timedPreference [toNode n, toNode g]

/-- The condition of a durative action. -/
inductive Condition where
  /-- A timed goal or a preference. -/
  | goal (goal : PreferredTimedGoal)
  /-- All conditions hold. -/
  | conj (conditions : List Condition)
  /-- The condition holds for all objects. -/
  | universal (vars : TypedList Variable) (condition : Condition)

namespace Condition

mutual

/-- The condition as a node. -/
protected def toNode : Condition → Node
  | goal g => Pddl.toNode g
  | conj cs => .form .durativeConjunction [.tuple (toNodes cs)]
  | universal vs c => .form .durativeForall [Pddl.toNode vs, c.toNode]

/-- The conditions as nodes. -/
def toNodes : List Condition → List Node
  | [] => []
  | c :: cs => c.toNode :: toNodes cs

end

instance : ToNode Condition := ⟨Condition.toNode⟩

end Condition

end Pddl
