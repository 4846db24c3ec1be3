import Pddl.Node.Basic

/-!
# Outlines

An outline shows a syntax tree as nested labels: a construct by its kind, a sequence by the
number of its members, a leaf by its text.  A field's label begins with the name of the field.

* `Outline` : a label with the outlines below it.
* `Node.outline` : the outline of a node, under a label of its own if one is given.
* `Outline.lines` : the outline drawn with connecting lines.
-/

namespace Pddl

/-- A label with the outlines below it. -/
inductive Outline where
  /-- A label and what is below it. -/
  | mk (label : String) (children : List Outline)

namespace Outline

/-- The label. -/
def label : Outline → String
  | mk label _ => label

/-- The outlines below the label. -/
def children : Outline → List Outline
  | mk _ children => children

mutual

/-- The labels from the top down, each before the labels below it. -/
def labels : Outline → List String
  | mk label children => label :: allLabels children

/-- The labels of several outlines. -/
def allLabels : List Outline → List String
  | [] => []
  | o :: os => labels o ++ allLabels os

end

mutual

/-- The lines of an outline: its label, and below it the lines of its children. -/
def lines : Outline → List String
  | mk label children => label :: childLines children

/-- The lines of the outlines below a label; every child but the last leaves a line open to the
next one. -/
def childLines : List Outline → List String
  | [] => []
  | [o] =>
    match lines o with
    | [] => []
    | first :: rest => ("└── " ++ first) :: rest.map ("    " ++ ·)
  | o :: os =>
    (match lines o with
    | [] => []
    | first :: rest => ("├── " ++ first) :: rest.map ("│   " ++ ·)) ++ childLines os

end

end Outline

namespace Node

/-- A label, preceded by the name of what it labels. -/
def labelled (name : Option String) (label : String) : String :=
  match name with
  | none => label
  | some "" => label
  | some name => name ++ ": " ++ label

mutual

/-- The outline of a node, under the name of the field that holds it. -/
def outline (name : Option String) : Node → Outline
  | form kind fields => .mk (labelled name kind.title) (fieldOutlines kind.fieldNames fields)
  | tuple members =>
    .mk (labelled name (toString members.length ++ " item(s)")) (memberOutlines members)
  | number x =>
    .mk (labelled name (number x).typeName) [.mk (labelled (some "value") x.display) []]
  | n => .mk (labelled name n.display) []

/-- The outlines of fields, each under its name. -/
def fieldOutlines : List String → List Node → List Outline
  | name :: names, n :: ns => outline (some name) n :: fieldOutlines names ns
  | _, _ => []

/-- The outlines of members, which have no names. -/
def memberOutlines : List Node → List Outline
  | [] => []
  | n :: ns => outline none n :: memberOutlines ns

end

end Node

end Pddl
