import Pddl.Goal

/-!
# Effects

* `PrimitiveEffect` : a formula becomes true or false, or a fluent changes.
* `Consequent` : the primitive effects behind a condition.
* `Effect`, `Effects` : the effects of an action; its `:effect` section is a list of them.
* `TimedEffect`, `DurativeEffect` : the effects of a durative action.
-/

namespace Pddl

/-- An effect without conditions. -/
inductive PrimitiveEffect where
  /-- The formula becomes true. -/
  | add (formula : AtomicFormula Term)
  /-- The formula becomes false. -/
  | delete (formula : AtomicFormula Term)
  /-- A numeric fluent changes. -/
  | assignNumeric (op : AssignOp) (fluent : Fluent) (value : NumericExpression)
  /-- An object fluent changes; without a value it becomes undefined. -/
  | assignObject (function : FunctionTerm) (value : Option Term)

instance : ToNode PrimitiveEffect where
  toNode
    | .add f => .form .addEffect [toNode f]
    | .delete f => .form .deleteEffect [toNode f]
    | .assignNumeric op f e => .form .assignNumeric [toNode op, toNode f, toNode e]
    | .assignObject f t => .form .assignObject [toNode f, toNode t]

/-- What happens where a condition holds. -/
structure Consequent where
  /-- The effects. -/
  effects : List PrimitiveEffect := []

instance : ToNode Consequent := ⟨fun c => .form .consequent [toNode c.effects]⟩

/-- An effect of an action. -/
inductive Effect where
  /-- An effect without conditions. -/
  | primitive (effect : PrimitiveEffect)
  /-- Effects for all objects. -/
  | universal (vars : TypedList Variable) (effects : List Effect)
  /-- Effects where a condition holds. -/
  | conditional (condition : Goal) (consequent : Consequent)

/-- The effects of an action. -/
structure Effects where
  /-- The effects. -/
  effects : List Effect := []

namespace Effect

mutual

/-- The effect as a node. -/
protected def toNode : Effect → Node
  | primitive e => Pddl.toNode e
  | universal vs es => .form .forallEffect [Pddl.toNode vs, .form .effects [.tuple (toNodes es)]]
  | conditional g c => .form .whenEffect [Pddl.toNode g, Pddl.toNode c]

/-- The effects as nodes. -/
def toNodes : List Effect → List Node
  | [] => []
  | e :: es => e.toNode :: toNodes es

end

instance : ToNode Effect := ⟨Effect.toNode⟩

end Effect

instance : ToNode Effects := ⟨fun es => .form .effects [.tuple (Effect.toNodes es.effects)]⟩

/-! ### Effects of durative actions -/

/-- An effect at a time point or throughout a durative action. -/
inductive TimedEffect where
  /-- Primitive effects at a time point. -/
  | «at» (time : TimePoint) (consequent : Consequent)
  /-- A change of a numeric fluent at a time point. -/
  | assignAt (time : TimePoint) (assignment : DurativeAssignment)
  /-- A numeric fluent changes continuously. -/
  | continuous (op : RateOp) (fluent : Fluent) (rate : Rate)

instance : ToNode TimedEffect where
  toNode
    | .at t c => .form .consequentAt [toNode t, toNode c]
    | .assignAt t a => .form .assignmentAt [toNode t, toNode a]
    | .continuous op f r => .form .continuousEffect [toNode op, toNode f, toNode r]

/-- The effect of a durative action. -/
inductive DurativeEffect where
  /-- A timed effect. -/
  | timed (effect : TimedEffect)
  /-- All effects happen. -/
  | conj (effects : List DurativeEffect)
  /-- The effect happens for all objects. -/
  | universal (vars : TypedList Variable) (effect : DurativeEffect)
  /-- A timed effect where a condition holds. -/
  | conditional (condition : Condition) (effect : TimedEffect)

namespace DurativeEffect

mutual

/-- The effect as a node. -/
protected def toNode : DurativeEffect → Node
  | timed e => Pddl.toNode e
  | conj es => .form .durativeEffects [.tuple (toNodes es)]
  | universal vs e => .form .durativeForallEffect [Pddl.toNode vs, e.toNode]
  | conditional c e => .form .durativeWhenEffect [Pddl.toNode c, Pddl.toNode e]

/-- The effects as nodes. -/
def toNodes : List DurativeEffect → List Node
  | [] => []
  | e :: es => e.toNode :: toNodes es

end

instance : ToNode DurativeEffect := ⟨DurativeEffect.toNode⟩

end DurativeEffect

end Pddl
