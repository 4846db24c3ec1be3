/-!
# Kinds of syntax nodes

Every construct of the language has a kind.  The kinds are what generic walks over a syntax tree
tell apart: how a construct is displayed (`Kind.title`), how it is written, and which requirement
flag it needs.
-/

namespace Pddl

/-- The kind of a construct. -/
inductive Kind where
  -- types and typed lists
  | exactType | eitherType | typed | typedList
  -- terms and formulas
  | functionTerm | groundTerm | equality | predicateFormula | literal | predicateSkeleton
  | functionSkeleton
  -- numeric expressions
  | fluent | binaryExpression | variadicExpression | negativeExpression | comparison
  | durationVariable | rate | durativeAssignment | metricFunction | totalTime | violation
  -- goals, preconditions and conditions
  | conjunction | disjunction | negation | implication | existential | universal | preference
  | preconditionForall | preconditions | goalAt | goalOver | timedPreference
  | durativeConjunction | durativeForall
  -- effects
  | addEffect | deleteEffect | assignNumeric | assignObject | consequent | forallEffect
  | whenEffect | effects | consequentAt | assignmentAt | continuousEffect
  | durativeEffects | durativeForallEffect | durativeWhenEffect
  -- durations and trajectories
  | durationBound | timedDurationBound | durationConstraint | constraintAnd | constraintForall
  | atEnd | always | sometime | within | atMostOnce | sometimeAfter | sometimeBefore
  | alwaysWithin | holdDuring | holdAfter | preferenceAnd | preferenceForall
  | constraintPreference
  -- definitions
  | action | durativeAction | derivedPredicate | requirements | domain
  | timedLiteral | numericValue | objectValue | metric | length | problem
  deriving DecidableEq, Repr

namespace Kind

/-- Every kind. -/
def all : List Kind := [
  exactType, eitherType, typed, typedList,
  functionTerm, groundTerm, equality, predicateFormula, literal, predicateSkeleton,
  functionSkeleton,
  fluent, binaryExpression, variadicExpression, negativeExpression, comparison,
  durationVariable, rate, durativeAssignment, metricFunction, totalTime, violation,
  conjunction, disjunction, negation, implication, existential, universal, preference,
  preconditionForall, preconditions, goalAt, goalOver, timedPreference,
  durativeConjunction, durativeForall,
  addEffect, deleteEffect, assignNumeric, assignObject, consequent, forallEffect,
  whenEffect, effects, consequentAt, assignmentAt, continuousEffect,
  durativeEffects, durativeForallEffect, durativeWhenEffect,
  durationBound, timedDurationBound, durationConstraint, constraintAnd, constraintForall,
  atEnd, always, sometime, within, atMostOnce, sometimeAfter, sometimeBefore,
  alwaysWithin, holdDuring, holdAfter, preferenceAnd, preferenceForall,
  constraintPreference,
  action, durativeAction, derivedPredicate, requirements, domain,
  timedLiteral, numericValue, objectValue, metric, length, problem]

/-- The kind as it is displayed. -/
def title : Kind → String
  | exactType => "ExactType"
  | eitherType => "EitherType"
  | typed => "Typed"
  | typedList => "TypedList"
  | functionTerm => "FunctionTerm"
  | groundTerm => "BasicFunctionTerm"
  | equality => "Equality"
  | predicateFormula => "PredicateFormula"
  | literal => "Literal"
  | predicateSkeleton => "AtomicFormulaSkeleton"
  | functionSkeleton => "AtomicFunctionSkeleton"
  | fluent => "FHead"
  | binaryExpression => "BinaryOpExp"
  | variadicExpression => "MultiOpExp"
  | negativeExpression => "NegativeExp"
  | comparison => "FComp"
  | durationVariable => "DurationVariable"
  | rate => "FExpT"
  | durativeAssignment => "FAssignDa"
  | metricFunction => "MetricFunction"
  | totalTime => "TotalTime"
  | violation => "IsViolated"
  | conjunction => "Conjunction"
  | disjunction => "Disjunction"
  | negation => "Negation"
  | implication => "Implication"
  | existential => "Existential"
  | universal => "Universal"
  | preference => "Preference"
  | preconditionForall => "PreconditionForall"
  | preconditions => "PreconditionGoalDefinitions"
  | goalAt => "AtTimedGD"
  | goalOver => "OverTimedGD"
  | timedPreference => "TimedPreference"
  | durativeConjunction => "DurativeConjunction"
  | durativeForall => "DurativeForall"
  | addEffect => "AtomicEffect"
  | deleteEffect => "NotAtomicEffect"
  | assignNumeric => "AssignNumericFluent"
  | assignObject => "AssignObjectFluent"
  | consequent => "ConditionalEffect"
  | forallEffect => "ForallEffect"
  | whenEffect => "WhenEffect"
  | effects => "Effects"
  | consequentAt => "TimedConditionalEffect"
  | assignmentAt => "TimedFluentEffect"
  | continuousEffect => "ContinuousEffect"
  | durativeEffects => "DurativeEffectConjunction"
  | durativeForallEffect => "DurativeForallEffect"
  | durativeWhenEffect => "DurativeWhenEffect"
  | durationBound => "DurationOp"
  | timedDurationBound => "TimedDurationConstraint"
  | durationConstraint => "DurationConstraint"
  | constraintAnd => "ConstraintAnd"
  | constraintForall => "ConstraintForall"
  | atEnd => "AtEnd"
  | always => "Always"
  | sometime => "Sometime"
  | within => "Within"
  | atMostOnce => "AtMostOnce"
  | sometimeAfter => "SometimeAfter"
  | sometimeBefore => "SometimeBefore"
  | alwaysWithin => "AlwaysWithin"
  | holdDuring => "HoldDuring"
  | holdAfter => "HoldAfter"
  | preferenceAnd => "PrefConstraintAnd"
  | preferenceForall => "PrefConstraintForall"
  | constraintPreference => "ConstraintPreference"
  | action => "ActionDefinition"
  | durativeAction => "DurativeActionDefinition"
  | derivedPredicate => "DerivedPredicate"
  | requirements => "Requirements"
  | domain => "Domain"
  | timedLiteral => "TimedLiteral"
  | numericValue => "NumericFluentValue"
  | objectValue => "ObjectFluentValue"
  | metric => "MetricSpec"
  | length => "LengthSpec"
  | problem => "Problem"

/-- The kind with the given title. -/
def ofTitle? (title : String) : Option Kind := all.find? fun k => k.title == title

end Kind

end Pddl
