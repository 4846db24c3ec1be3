import Pddl.Grammar.Forms
import Pddl.Domain
import Pddl.Problem

/-!
# Nonterminals

The constructs that may contain constructs of their own sort.  Each of them counts as one level
of nesting.

* `Nonterminal` : these constructs; the type of a nonterminal says what it reads.
* `Rule` : a grammar over them.
-/

namespace Pddl

/-- A construct that may contain others of its sort. -/
inductive Nonterminal : Type → Type where
  /-- A term. -/
  | term : Nonterminal Term
  /-- A numeric expression. -/
  | expression : Nonterminal NumericExpression
  /-- A numeric expression of a durative action. -/
  | durativeExpression : Nonterminal DurativeExpression
  /-- The expression of a plan metric. -/
  | metricExpression : Nonterminal MetricExpression
  /-- A goal. -/
  | goal : Nonterminal Goal
  /-- Preconditions. -/
  | preconditions : Nonterminal Preconditions
  /-- The condition of a durative action. -/
  | condition : Nonterminal Condition
  /-- An effect that is no conjunction. -/
  | effect : Nonterminal Effect
  /-- The effects of an action. -/
  | effects : Nonterminal Effects
  /-- The effect of a durative action. -/
  | durativeEffect : Nonterminal DurativeEffect
  /-- A bound on the duration of an action. -/
  | durationBound : Nonterminal DurationBound
  /-- A constraint on the course of a plan. -/
  | constraint : Nonterminal Constraint
  /-- The operand of a modal operator. -/
  | operand : Nonterminal Operand
  /-- A constraint of a problem. -/
  | preferredConstraint : Nonterminal PreferredConstraint

/-- A grammar of constructs of the language. -/
abbrev Rule := Grammar Nonterminal

end Pddl
