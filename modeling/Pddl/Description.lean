import Pddl.Node.Usage
import Pddl.Problem

/-!
# Planning descriptions

A planning text holds one description, a domain or a problem.

* `Description` : a domain or a problem; it is shown and measured like any syntax tree.
* `Description.Kind` : which of the two.
-/

namespace Pddl

/-- A domain or a problem. -/
inductive Description where
  /-- A domain. -/
  | domain (d : Domain)
  /-- A problem. -/
  | problem (p : Problem)

namespace Description

/-- Which of the two descriptions. -/
inductive Kind where
  | domain | problem
  deriving DecidableEq, Repr

instance : Vocabulary Kind where
  title := "Description"
  members := [.domain, .problem]
  keyword
    | .domain => "domain"
    | .problem => "problem"
  complete a := by cases a <;> simp

/-- The kind as a word. -/
def Kind.word (kind : Kind) : String := Vocabulary.keyword kind

instance : ToNode Description where
  toNode
    | domain d => toNode d
    | problem p => toNode p

/-- The requirement flags that the description needs and does not declare. -/
def undeclared (d : Description) : List Requirement := (toNode d).undeclaredRequirements

end Description

end Pddl
