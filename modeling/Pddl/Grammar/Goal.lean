import Pddl.Grammar.Expression

/-!
# Rules of goals, preconditions and conditions

* `Rule.goalForms` : goals; the keyword forms come before atomic formulas, literals and
  comparisons.
* `Rule.preconditionsForms` : preconditions, with nested conjunctions joined into one list.
* `Rule.timedGoal`, `Rule.preferredTimedGoal`, `Rule.conditionForms` : the conditions of durative
  actions.
-/

namespace Pddl

namespace Rule

open Grammar

/-- A goal, one level deeper. -/
def goal : Rule Goal := call .goal

/-- What a goal is. -/
def goalForms : Rule Goal :=
  .conj <$> form "and" (many goal) <|>
  .disj <$> form "or" (many goal) <|>
  .neg <$> form "not" goal <|>
  (fun (p, c) => .imply p c) <$> form "imply" (pair goal goal) <|>
  (fun (vs, g) => .existential vs g) <$> quantified "exists" goal <|>
  (fun (vs, g) => .universal vs g) <$> quantified "forall" goal <|>
  .atom <$> atomicFormula <|>
  .literal <$> literal <|>
  .compare <$> comparison

/-- A goal, or the preference for one, with or without a name. -/
def preferredGoal : Rule PreferredGoal :=
  (fun (n, g) => .preferred (some n) g) <$> form "preference" (pair (symbol .preference) goal) <|>
  .preferred none <$> form "preference" goal <|>
  .required <$> goal

/-- Preconditions, one level deeper. -/
def preconditions : Rule Preconditions := call .preconditions

/-- What preconditions are. -/
def preconditionsForms : Rule Preconditions :=
  .join <$> form "and" (many preconditions) <|>
  (fun (vs, ps) => ⟨[.universal vs ps.goals]⟩) <$> quantified "forall" preconditions <|>
  (fun g => ⟨[.goal g]⟩) <$> preferredGoal

/-- A goal at a time point or over an interval. -/
def timedGoal : Rule TimedGoal :=
  (fun (t, g) => .at t g) <$> form "at" (pair (keyword TimePoint) goal) <|>
  (fun (i, g) => .over i g) <$> form "over" (pair (keyword Interval) goal)

/-- A timed goal, or the preference for one, with or without a name. -/
def preferredTimedGoal : Rule PreferredTimedGoal :=
  (fun (n, g) => .preferred (some n) g) <$>
    form "preference" (pair (symbol .preference) timedGoal) <|>
  .preferred none <$> form "preference" timedGoal <|>
  .required <$> timedGoal

/-- The condition of a durative action, one level deeper. -/
def condition : Rule Condition := call .condition

/-- What the condition of a durative action is. -/
def conditionForms : Rule Condition :=
  (fun (vs, c) => .universal vs c) <$> quantified "forall" condition <|>
  .conj <$> form "and" (many condition) <|>
  .goal <$> preferredTimedGoal

end Rule

end Pddl
