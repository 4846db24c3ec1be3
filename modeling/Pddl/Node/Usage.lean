import Pddl.Node.Walk

/-!
# Used requirements

Parsing accepts every construct, whatever a definition declares.  Which requirement flags a
definition depends on is read off its syntax tree afterwards.

* `Node.requirement?` : the flag that a single node needs, whatever is below it.
* `Node.uses` : the tree needs the flag somewhere.
* `Node.usedRequirements` : the flags that the tree needs, in the order of the flags.
* `Node.undeclaredRequirements` : those that its declarations do not put in force.
-/

namespace Pddl

/-- The only fluent that needs no more than `:action-costs`. -/
def totalCost : String := "total-cost"

/-- The flag that every construct of a kind needs. -/
def Kind.requirement? : Kind → Option Requirement
  | disjunction | implication => some .disjunctivePreconditions
  | equality => some .equality
  | existential => some .existentialPreconditions
  | universal | preconditionForall | durativeForall => some .universalPreconditions
  | forallEffect | whenEffect | durativeForallEffect | durativeWhenEffect =>
    some .conditionalEffects
  | comparison => some .numericFluents
  | functionTerm | assignObject | objectValue => some .objectFluents
  | durativeAction => some .durativeActions
  | continuousEffect => some .continuousEffects
  | derivedPredicate => some .derivedPredicates
  | timedLiteral => some .timedInitialLiterals
  | preference | timedPreference | constraintPreference | violation => some .preferences
  | constraintForall | preferenceForall | atEnd | always | sometime | within | atMostOnce
  | sometimeAfter | sometimeBefore | alwaysWithin | holdDuring | holdAfter => some .constraints
  | negation => some .negativePreconditions
  | _ => none

namespace Node

/-- The node is the fluent of action costs. -/
def isTotalCost (n : Node) : Bool := n.word? == some totalCost

/-- The node is the word of a vocabulary. -/
def isKeyword {α : Type} [Vocabulary α] (a : α) : Node → Bool
  | keyword title word => title == Vocabulary.title α && word == Vocabulary.keyword a
  | _ => false

/-- The flag that a node needs, whatever is below it. -/
def requirement? : Node → Option Requirement
  | form .literal [_, truth true] => some .negativePreconditions
  | form .fluent (name :: _) | form .functionSkeleton (name :: _) =>
    some (if name.isTotalCost then .actionCosts else .numericFluents)
  | form .assignNumeric (op :: head :: _) =>
    if op.isKeyword AssignOp.increase && (head.field? "symbol").any isTotalCost then none
    else some .numericFluents
  | form .durationBound (op :: _) =>
    if op.isKeyword DurationComparator.equal then none else some .durationInequalities
  | form .constraintAnd [tuple (_ :: _)] | form .preferenceAnd [tuple (_ :: _)] =>
    some .constraints
  | form .typed [_, type] =>
    if type.same (exactly objectType) || type.same (exactly numberType) then none
    else some .typing
  | form kind _ => kind.requirement?
  | _ => none

/-- The node is a domain that declares types. -/
def declaresTypes (n : Node) : Bool :=
  match n with
  | form .domain _ => (n.field? "types").any fun types => !types.memberNodes.isEmpty
  | _ => false

/-- The tree needs the flag. -/
def uses (n : Node) (r : Requirement) : Bool :=
  n.subnodes.any (·.requirement? == some r) || (r == .typing && n.declaresTypes)

/-- The flags that the tree needs. -/
def usedRequirements (n : Node) : List Requirement := Requirement.all.filter n.uses

/-- The flags that a definition declares. -/
def declaredRequirements (n : Node) : Requirements :=
  .ofList <| match n.field? "requirements" with
    | some rs => rs.memberNodes.filterMap fun r => r.word?.bind Vocabulary.ofKeyword?
    | none => []

/-- The flags that a definition needs and does not declare. -/
def undeclaredRequirements (n : Node) : List Requirement :=
  n.usedRequirements.filter fun r => !n.declaredRequirements.isEffective r

end Node

end Pddl
