import Pddl.Grammar.Domain

/-!
# Rules of problems

* `Rule.initialFact`, `Rule.init` : the initial state.
* `Rule.metric`, `Rule.length` : how plans are measured.
* `Rule.problem` : a whole problem; its initial state and its goal must be there.
-/

namespace Pddl

namespace Rule

open Grammar

/-- The objects. -/
def objects : Rule (TypedList Name) := form ":objects" (items (symbol .name))

/-- An element of the initial state: a literal, or else a literal with its time, a numeric value,
an object value. -/
def initialFact : Rule InitialFact :=
  .literal <$> groundLiteral <|>
  (fun (x, l) => .timed x l) <$> form "at" (pair number groundLiteral) <|>
  (fun (t, x) => .numeric t x) <$> form "=" (pair groundTerm number) <|>
  (fun (t, n) => .object t n) <$> form "=" (pair groundTerm (symbol .name))

/-- The initial state. -/
def init : Rule (List InitialFact) := form ":init" (many initialFact)

/-- The goal. -/
def goalSection : Rule Preconditions := form ":goal" preconditions

/-- The constraints on plans. -/
def problemConstraints : Rule PreferredConstraint := form ":constraints" preferredConstraint

/-- The metric. -/
def metric : Rule Metric :=
  (fun (o, e) => ⟨o, e⟩) <$> form ":metric" (pair (keyword Optimization) metricExpression)

/-- The bounds on the length of plans. -/
def length : Rule LengthBounds :=
  (fun (s, p) => ⟨s, p⟩) <$> form ":length"
    (seq (optional (form ":serial" (terminal .integer)))
      (optional (form ":parallel" (terminal .integer))))

/-- A problem, with blanks around it. -/
def problem : Rule Problem :=
  (fun (name, domain, requirements, objects, init, goal, constraints, metric, length) => {
    name
    domain
    requirements := requirements.getD .none
    objects := objects.getD {}
    init
    goal
    constraints := constraints.getD (.conj [])
    metric
    length }) <$>
    padded (form "define" (pair (form "problem" (symbol .name))
      (pair (form ":domain" (symbol .name))
        (seq (optional requirements) (seq (optional objects) (seq (separated init)
          (seq (separated goalSection) (seq (optional problemConstraints) (seq (optional metric)
            (optional length))))))))))

end Rule

end Pddl
