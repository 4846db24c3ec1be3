import Pddl.Grammar.Term

/-!
# Rules of numeric expressions

* `Rule.arithmetic` : an operator with its operands; the operator decides how many there may be.
* `Rule.expressionForms`, `Rule.durativeExpressionForms`, `Rule.metricExpressionForms` : the
  expressions of goals and effects, of durative actions and of plan metrics.
* `Rule.fluent`, `Rule.comparison`, `Rule.rate`, `Rule.durativeAssignment` : the constructs around
  expressions.
-/

namespace Pddl

/-- The expression that an operator makes of its operands: a sign of one operand, an operation on
two, or a sum or product of more. -/
def Expression.ofOperands {ρ : Type} :
    ArithmeticOp × Expression ρ × List (Expression ρ) → Except Complaint (Expression ρ)
  | (.minus, e, []) => .ok (.negative e)
  | (op, _, []) => .error (.unmet (.secondOperand (Vocabulary.keyword op)))
  | (op, l, [r]) => .ok (.binary op l r)
  | (op, e, es) =>
    match op.variadic? with
    | some v => .ok (.variadic v e es)
    | none => .error (.unmet (.twoOperands (Vocabulary.keyword op)))

namespace Rule

open Grammar

variable {ρ : Type}

/-- An operator with its operands. -/
def arithmetic (operand : Rule (Expression ρ)) : Rule (Expression ρ) :=
  refine Expression.ofOperands (parens (pair (keyword ArithmeticOp) (pair operand (many operand))))

/-- A numeric expression, one level deeper. -/
def expression : Rule NumericExpression := call .expression

/-- A numeric fluent: a function by its name, or applied to terms. -/
def fluent : Rule Fluent :=
  (fun f => ⟨f, []⟩) <$> symbol .function <|>
  (fun (f, ts) => ⟨f, ts⟩) <$> parens (pair (symbol .function) (many term))

/-- What a numeric expression is. -/
def expressionForms : Rule NumericExpression :=
  .number <$> number <|> arithmetic expression <|> .reference <$> fluent

/-- A comparison of two expressions. -/
def comparison : Rule Comparison :=
  (fun (c, l, r) => ⟨c, l, r⟩) <$>
    parens (pair (keyword Comparator) (pair expression expression))

/-- A numeric expression of a durative action, one level deeper. -/
def durativeExpression : Rule DurativeExpression := call .durativeExpression

/-- What a numeric expression of a durative action is. -/
def durativeExpressionForms : Rule DurativeExpression :=
  (fun _ => .reference .duration) <$> word "?duration" <|>
  arithmetic durativeExpression <|>
  NumericExpression.toDurative <$> expression

/-- The time that elapses during a durative action. -/
def elapsed : Rule Unit := word "#t"

/-- The rate of a continuous effect. -/
def rate : Rule Rate :=
  (fun e => ⟨some e⟩) <$> form "*"
    (Prod.snd <$> pair elapsed expression <|> Prod.fst <$> pair expression elapsed) <|>
  (fun _ => ⟨none⟩) <$> elapsed

/-- A change of a numeric fluent in a durative action. -/
def durativeAssignment : Rule DurativeAssignment :=
  (fun (op, f, e) => ⟨op, f, e⟩) <$>
    parens (pair (keyword AssignOp) (pair fluent durativeExpression))

/-- The expression of a plan metric, one level deeper. -/
def metricExpression : Rule MetricExpression := call .metricExpression

/-- What the expression of a plan metric is. -/
def metricExpressionForms : Rule MetricExpression :=
  .number <$> number <|>
  arithmetic metricExpression <|>
  (fun _ => .reference .totalTime) <$> word "total-time" <|>
  (fun p => .reference (.violation p)) <$> form "is-violated" (symbol .preference) <|>
  (fun (f, ns) => .reference (.function f ns)) <$>
    parens (pair (symbol .function) (many (symbol .name))) <|>
  (fun f => .reference (.function f [])) <$> symbol .function

end Rule

end Pddl
