import Pddl.Grammar.Goal

/-!
# Rules of durations and trajectories

* `Rule.durationBoundForms`, `Rule.durationConstraint` : the duration of an action.
* `Rule.constraintForms`, `Rule.operandForms` : constraints on the course of a plan; the operand of
  a modal operator is a goal if it can be read as one.
* `Rule.preferredConstraintForms` : the constraints of a problem.
-/

namespace Pddl

namespace Rule

open Grammar

/-- The value that bounds a duration: a number, or else any expression. -/
def durationValue : Rule NumericExpression := .number <$> number <|> expression

/-- A bound on a duration, one level deeper. -/
def durationBound : Rule DurationBound := call .durationBound

/-- What a bound on a duration is. -/
def durationBoundForms : Rule DurationBound :=
  (fun (c, _, e) => .compare c e) <$>
    parens (pair (keyword DurationComparator) (pair (word "?duration") durationValue)) <|>
  (fun (t, b) => .at t b) <$> form "at" (pair (keyword TimePoint) durationBound)

/-- The bounds on the duration of an action, if there are any. -/
def durationConstraint : Rule (Option DurationConstraint) :=
  emptyOr
    ((fun b => ⟨[b]⟩) <$> durationBound <|> (fun bs => ⟨bs⟩) <$> form "and" (many1 durationBound))

/-- A constraint on the course of a plan, one level deeper. -/
def constraint : Rule Constraint := call .constraint

/-- The operand of a modal operator, one level deeper. -/
def operand : Rule Operand := call .operand

/-- What a constraint on the course of a plan is. -/
def constraintForms : Rule Constraint :=
  .conj <$> form "and" (many constraint) <|>
  (fun (vs, c) => .universal vs c) <$> quantified "forall" constraint <|>
  .atEnd <$> form "at end" goal <|>
  .always <$> form "always" operand <|>
  .sometime <$> form "sometime" operand <|>
  (fun (x, o) => .within x o) <$> form "within" (pair number operand) <|>
  .atMostOnce <$> form "at-most-once" operand <|>
  (fun (o, p) => .sometimeAfter o p) <$> form "sometime-after" (pair operand operand) <|>
  (fun (o, p) => .sometimeBefore o p) <$> form "sometime-before" (pair operand operand) <|>
  (fun (x, o, p) => .alwaysWithin x o p) <$>
    form "always-within" (pair number (pair operand operand)) <|>
  (fun (x, y, o) => .holdDuring x y o) <$>
    form "hold-during" (pair number (pair number operand)) <|>
  (fun (x, o) => .holdAfter x o) <$> form "hold-after" (pair number operand)

/-- What the operand of a modal operator is. -/
def operandForms : Rule Operand := .goal <$> goal <|> .constraint <$> constraint

/-- A constraint of a problem, one level deeper. -/
def preferredConstraint : Rule PreferredConstraint := call .preferredConstraint

/-- What a constraint of a problem is. -/
def preferredConstraintForms : Rule PreferredConstraint :=
  .conj <$> form "and" (many preferredConstraint) <|>
  (fun (vs, c) => .universal vs c) <$> quantified "forall" preferredConstraint <|>
  (fun (n, c) => .preferred (some n) c) <$>
    form "preference" (pair (symbol .preference) constraint) <|>
  .preferred none <$> form "preference" constraint <|>
  .required <$> constraint

end Rule

end Pddl
