import Pddl.Term

/-!
# Numeric expressions

Arithmetic is the same in goals, in durative actions and in plan metrics; only what it may refer
to differs.  An expression is therefore a tree of operators over numbers and references of some
type.

* `Expression` : arithmetic over numbers and references.
* `Fluent`, `DurativeReference`, `MetricReference` : what goals and effects, durative actions and
  plan metrics may refer to.
* `Expression.map` : a change of references; it takes an expression over fluents into a durative
  action (`NumericExpression.toDurative`).
* `Comparison`, `Rate`, `DurativeAssignment` : the constructs around expressions.
-/

namespace Pddl

/-- Arithmetic over numbers and references of type `ρ`. -/
inductive Expression (ρ : Type) where
  /-- A number. -/
  | number (x : Number)
  /-- What a reference stands for. -/
  | reference (r : ρ)
  /-- Two operands. -/
  | binary (op : ArithmeticOp) (left right : Expression ρ)
  /-- Any number of operands. -/
  | variadic (op : VariadicOp) (first : Expression ρ) (rest : List (Expression ρ))
  /-- The negation of an expression. -/
  | negative (e : Expression ρ)

namespace Expression

variable {ρ σ : Type}

mutual

/-- The expression as a node. -/
protected def toNode [ToNode ρ] : Expression ρ → Node
  | number x => .number x
  | reference r => toNode r
  | binary op l r => .form .binaryExpression [toNode op, l.toNode, r.toNode]
  | variadic op e es => .form .variadicExpression [toNode op, e.toNode, .tuple (toNodes es)]
  | negative e => .form .negativeExpression [e.toNode]

/-- The expressions as nodes. -/
def toNodes [ToNode ρ] : List (Expression ρ) → List Node
  | [] => []
  | e :: es => e.toNode :: toNodes es

end

instance [ToNode ρ] : ToNode (Expression ρ) := ⟨Expression.toNode⟩

mutual

/-- The expression with every reference changed. -/
def map (f : ρ → σ) : Expression ρ → Expression σ
  | number x => number x
  | reference r => reference (f r)
  | binary op l r => binary op (l.map f) (r.map f)
  | variadic op e es => variadic op (e.map f) (mapAll f es)
  | negative e => negative (e.map f)

/-- The expressions with every reference changed. -/
def mapAll (f : ρ → σ) : List (Expression ρ) → List (Expression σ)
  | [] => []
  | e :: es => e.map f :: mapAll f es

end

end Expression

/-! ### References -/

/-- A numeric fluent of some objects. -/
structure Fluent where
  /-- The function. -/
  symbol : FunctionSymbol
  /-- The objects. -/
  arguments : List Term := []

instance : ToNode Fluent := ⟨fun f => .form .fluent [toNode f.symbol, toNode f.arguments]⟩

/-- What an expression of a durative action may refer to. -/
inductive DurativeReference where
  /-- The duration of the action. -/
  | duration
  /-- A fluent. -/
  | fluent (f : Fluent)

instance : ToNode DurativeReference where
  toNode
    | .duration => .form .durationVariable []
    | .fluent f => toNode f

/-- What a plan metric may refer to. -/
inductive MetricReference where
  /-- The time that the plan takes. -/
  | totalTime
  /-- How often a preference is violated. -/
  | violation (preference : PreferenceName)
  /-- A fluent of named objects. -/
  | function (symbol : FunctionSymbol) (arguments : List Name)

instance : ToNode MetricReference where
  toNode
    | .totalTime => .form .totalTime []
    | .violation p => .form .violation [toNode p]
    | .function f ns => .form .metricFunction [toNode f, toNode ns]

/-- An expression over fluents. -/
abbrev NumericExpression := Expression Fluent

/-- An expression of a durative action. -/
abbrev DurativeExpression := Expression DurativeReference

/-- An expression of a plan metric. -/
abbrev MetricExpression := Expression MetricReference

/-- An expression over fluents as an expression of a durative action. -/
def NumericExpression.toDurative (e : NumericExpression) : DurativeExpression := e.map .fluent

/-! ### Constructs around expressions -/

/-- A comparison of two expressions. -/
structure Comparison where
  /-- The comparison. -/
  comparator : Comparator
  /-- The expression on its left. -/
  left : NumericExpression
  /-- The expression on its right. -/
  right : NumericExpression

instance : ToNode Comparison :=
  ⟨fun c => .form .comparison [toNode c.comparator, toNode c.left, toNode c.right]⟩

/-- The rate of a continuous effect: the elapsed time, perhaps scaled by an expression. -/
structure Rate where
  /-- The factor, if there is one. -/
  scale : Option NumericExpression := none

instance : ToNode Rate := ⟨fun r => .form .rate [toNode r.scale]⟩

/-- A change of a numeric fluent in a durative action. -/
structure DurativeAssignment where
  /-- The change. -/
  op : AssignOp
  /-- The fluent. -/
  fluent : Fluent
  /-- The operand. -/
  value : DurativeExpression

instance : ToNode DurativeAssignment :=
  ⟨fun a => .form .durativeAssignment [toNode a.op, toNode a.fluent, toNode a.value]⟩

end Pddl
