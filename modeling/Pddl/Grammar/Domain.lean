import Pddl.Grammar.Constraint
import Pddl.Grammar.Effect

/-!
# Rules of domains

A domain is a sequence of sections in a fixed order, each of which may be missing.

* `Rule.requirement`, `Rule.requirements` : requirement flags; an unknown flag is a final failure.
* `Rule.types`, `Rule.constants`, … : the sections of a domain.
* `Rule.action`, `Rule.durativeAction`, `Rule.derivedPredicate` : the definitions.
* `Rule.domain` : a whole domain.
-/

namespace Pddl

namespace Rule

open Grammar

/-! ### Sections -/

/-- A known requirement flag. -/
def requirement : Rule Requirement :=
  refine (fun flag => ((Vocabulary.ofKeyword? flag).map .ok).getD (.error .unknownRequirement))
    (terminal .flag)

/-- The declared requirement flags. -/
def requirements : Rule Requirements := .ofList <$> form ":requirements" (many1 requirement)

/-- The domains that are extended. -/
def parents : Rule (List Name) := form ":extends" (many1 (symbol .name))

/-- The declared types. -/
def types : Rule (TypedList PrimitiveType) := form ":types" (items (symbol .type))

/-- The objects common to all problems. -/
def constants : Rule (TypedList Name) := form ":constants" (items (symbol .name))

/-- The declared predicates. -/
def predicates : Rule (List PredicateSkeleton) := form ":predicates" (many1 predicateSkeleton)

/-- The literals that hold in every state. -/
def timeless : Rule (List (Literal Name)) := form ":timeless" (many1 groundLiteral)

/-- The declared functions, which are numeric where no type is written. -/
def functions : Rule (TypedList FunctionSkeleton) :=
  form ":functions" (itemsOf .number functionSkeleton)

/-- The constraints on every plan. -/
def domainConstraints : Rule Constraint := form ":constraints" constraint

/-! ### Definitions -/

/-- A labelled section of a definition; if it is missing or a pair of empty parentheses, there is
nothing. -/
def labelledOrEmpty {α : Type} (label : String) (g : Rule (Option α)) : Rule (Option α) :=
  Option.join <$> optional (labelled label g)

/-- The parameters of an action, with their label. -/
def actionParameters : Rule (TypedList Variable) := labelled ":parameters" parameters

/-- An action. -/
def action : Rule Action :=
  (fun (n, ps, p, e) => ⟨n, ps, p, e⟩) <$>
    form ":action" (pair (symbol .name) (pair actionParameters
      (seq (labelledOrEmpty ":precondition" (emptyOr preconditions))
        (labelledOrEmpty ":effect" (emptyOr effects)))))

/-- An action that takes time. -/
def durativeAction : Rule DurativeAction :=
  (fun (n, ps, d, c, e) => ⟨n, ps, d, c, e⟩) <$>
    form ":durative-action" (pair (symbol .name) (pair actionParameters
      (seq (labelledOrEmpty ":duration" durationConstraint)
        (seq (labelledOrEmpty ":condition" (emptyOr condition))
          (labelledOrEmpty ":effect" (emptyOr durativeEffect))))))

/-- A predicate that is defined by a goal. -/
def derivedPredicate : Rule DerivedPredicate :=
  (fun (p, g) => ⟨p, g⟩) <$> form ":derived" (pair predicateSkeleton goal)

/-- A definition. -/
def definition : Rule Definition :=
  .action <$> action <|> .durativeAction <$> durativeAction <|>
  .derivedPredicate <$> derivedPredicate

/-! ### Domains -/

/-- A domain, with blanks around it. -/
def domain : Rule Domain :=
  (fun (name, parents, requirements, types, constants, predicates, timeless, functions,
      constraints, definitions) => {
    name
    parents := parents.getD []
    requirements := requirements.getD .none
    types := types.getD {}
    constants := constants.getD {}
    predicates := predicates.getD []
    timeless := timeless.getD []
    functions := functions.getD {}
    constraints := constraints.getD (.conj [])
    definitions := definitions.getD [] }) <$>
    padded (form "define" (pair (form "domain" (symbol .name))
      (seq (optional parents) (seq (optional requirements) (seq (optional types)
        (seq (optional constants) (seq (optional predicates) (seq (optional timeless)
          (seq (optional functions) (seq (optional domainConstraints)
            (optional (many definition))))))))))))

end Rule

end Pddl
