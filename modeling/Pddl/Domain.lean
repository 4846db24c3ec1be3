import Pddl.Constraint
import Pddl.Effect

/-!
# Domains

A domain declares types, constants, predicates and functions, and defines actions, durative
actions and derived predicates.  Every section but the name may be empty.

* `Action`, `DurativeAction`, `DerivedPredicate` : the definitions.
* `Domain` : a domain, section by section.
* `Domain.action?` : the first action of a name.
-/

namespace Pddl

/-- An action; a section that is omitted or empty is absent. -/
structure Action where
  /-- The name. -/
  symbol : Name
  /-- The parameters. -/
  parameters : TypedList Variable := {}
  /-- When the action can be taken. -/
  precondition : Option Preconditions := none
  /-- What it changes. -/
  effect : Option Effects := none

instance : ToNode Action where
  toNode a := .form .action
    [toNode a.symbol, toNode a.parameters, toNode a.precondition, toNode a.effect]

/-- An action that takes time. -/
structure DurativeAction where
  /-- The name. -/
  symbol : Name
  /-- The parameters. -/
  parameters : TypedList Variable := {}
  /-- How long the action takes. -/
  duration : Option DurationConstraint := none
  /-- When the action can be taken. -/
  condition : Option Condition := none
  /-- What it changes. -/
  effect : Option DurativeEffect := none

instance : ToNode DurativeAction where
  toNode a := .form .durativeAction
    [toNode a.symbol, toNode a.parameters, toNode a.duration, toNode a.condition, toNode a.effect]

/-- A predicate that is defined by a goal. -/
structure DerivedPredicate where
  /-- The predicate with its parameters. -/
  predicate : PredicateSkeleton
  /-- When it holds. -/
  goal : Goal

instance : ToNode DerivedPredicate where
  toNode d := .form .derivedPredicate [toNode d.predicate, toNode d.goal]

/-- A definition in a domain. -/
inductive Definition where
  /-- An action. -/
  | action (a : Action)
  /-- An action that takes time. -/
  | durativeAction (a : DurativeAction)
  /-- A derived predicate. -/
  | derivedPredicate (d : DerivedPredicate)

instance : ToNode Definition where
  toNode
    | .action a => toNode a
    | .durativeAction a => toNode a
    | .derivedPredicate d => toNode d

/-- A planning domain. -/
structure Domain where
  /-- The name. -/
  name : Name
  /-- The domains that it extends. -/
  parents : List Name := []
  /-- The requirement flags that it declares. -/
  requirements : Requirements := .none
  /-- The types. -/
  types : TypedList PrimitiveType := {}
  /-- The objects common to all problems. -/
  constants : TypedList Name := {}
  /-- The predicates. -/
  predicates : List PredicateSkeleton := []
  /-- The literals that hold in every state. -/
  timeless : List (Literal Name) := []
  /-- The functions. -/
  functions : TypedList FunctionSkeleton := {}
  /-- The constraints on every plan. -/
  constraints : Constraint := .conj []
  /-- The definitions. -/
  definitions : List Definition := []

namespace Domain

instance : ToNode Domain where
  toNode d := .form .domain
    [toNode d.name, toNode d.parents, toNode d.requirements, toNode d.types, toNode d.constants,
      toNode d.predicates, toNode d.timeless, toNode d.functions, toNode d.constraints,
      toNode d.definitions]

variable (d : Domain)

/-- The actions in declared order. -/
def actions : List Action :=
  d.definitions.filterMap fun
    | .action a => some a
    | _ => none

/-- The durative actions in declared order. -/
def durativeActions : List DurativeAction :=
  d.definitions.filterMap fun
    | .durativeAction a => some a
    | _ => none

/-- The first action of the given name. -/
def action? (name : String) : Option Action := d.actions.find? fun a => a.symbol.text == name

/-- The complaint that the domain has no action of the given name. -/
def missingAction (name : String) : String :=
  "Domain '" ++ d.name.written ++ "' declares no action named '" ++ name ++ "'."

end Domain

end Pddl
