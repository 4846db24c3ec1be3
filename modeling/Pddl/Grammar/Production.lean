import Pddl.Grammar.Problem

/-!
# Productions

Every nonterminal is read by its production, one level of nesting deeper than where it stands.
The ceiling of the cursor says how many levels there may be, and that is what the reading of a
nonterminal recurs on.

* `Nonterminal.production` : what a nonterminal stands for.
* `Nonterminal.parse` : the parser of a nonterminal, for a number of levels.
* `Rule.parse` : the parser of a rule.
-/

namespace Pddl

/-- What a nonterminal stands for. -/
def Nonterminal.production {α : Type} : Nonterminal α → Rule α
  | term => Rule.termForms
  | expression => Rule.expressionForms
  | durativeExpression => Rule.durativeExpressionForms
  | metricExpression => Rule.metricExpressionForms
  | goal => Rule.goalForms
  | preconditions => Rule.preconditionsForms
  | condition => Rule.conditionForms
  | effect => Rule.effectForms
  | effects => Rule.effectsForms
  | durativeEffect => Rule.durativeEffectForms
  | durationBound => Rule.durationBoundForms
  | constraint => Rule.constraintForms
  | operand => Rule.operandForms
  | preferredConstraint => Rule.preferredConstraintForms

/-- The parser of a nonterminal that may be nested in itself on the given number of levels. -/
def Nonterminal.parse : (levels : Nat) → {α : Type} → Nonterminal α → Parser α
  | 0, _, _ => fun c => .error (.tooDeep c.ceiling c.offset)
  | levels + 1, _, n => n.production.run (parse levels)

/-- The parser of a rule: nonterminals nest up to the ceiling. -/
def Rule.parse {α : Type} (g : Rule α) : Parser α := fun c =>
  g.run (Nonterminal.parse (c.ceiling - c.depth)) c

end Pddl
