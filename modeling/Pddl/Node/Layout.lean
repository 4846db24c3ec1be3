import Pddl.Node.Basic

/-!
# How constructs are written

The written form of every kind of construct, as a table.  A construct is mostly a parenthesised
form: a head word and then its fields, separated by single blanks.  Actions, domains and problems
are blocks with one section per line.

* `Piece` : what a field contributes to a form: any number of words.
* `Line` : a section of a block; it is left out when its piece contributes nothing.
* `Layout` : the written form of a construct.
* `Kind.layout` : the table.
-/

namespace Pddl

/-- What a form shows of its fields.  A field is named by its position. -/
inductive Piece where
  /-- A fixed word. -/
  | word (w : String)
  /-- The written form of the field. -/
  | field (i : Nat)
  /-- The written forms of the members of the field. -/
  | members (i : Nat)
  /-- The written form of the field, unless the field is absent. -/
  | given (i : Nat)
  /-- The written form of the field, or a word in its absence. -/
  | givenOr (i : Nat) (w : String)
  /-- The written form of the field, unless it is the given node. -/
  | unlessSame (i : Nat) (n : Node)
  /-- The text of a leaf. -/
  | leaf (i : Nat)
  /-- A typed list, unless it has no items; the type that closes it is not written. -/
  | items (i : Nat) (closing : Node)
  /-- A typed list in parentheses. -/
  | parameters (i : Nat)
  /-- A keyword and the text of a leaf in parentheses, unless the field is absent. -/
  | option (keyword : String) (i : Nat)

/-- The head of a form. -/
inductive Head where
  /-- A fixed word. -/
  | word (w : String)
  /-- The name or keyword in a field. -/
  | name (i : Nat)

/-- A line of a block. -/
inductive Line where
  /-- A label and a piece, unless the piece contributes nothing. -/
  | labelled (label : String) (piece : Piece)
  /-- A form of one piece, unless the piece contributes nothing. -/
  | form (head : String) (piece : Piece)
  /-- A form of one piece, even if the piece contributes nothing. -/
  | always (head : String) (piece : Piece)
  /-- The piece itself, unless it contributes nothing. -/
  | bare (piece : Piece)
  /-- A line for every member of a field, one level deeper than the block. -/
  | blocks (i : Nat)

/-- The written form of a construct. -/
inductive Layout where
  /-- It cannot be written. -/
  | unwritable
  /-- Its display text. -/
  | display
  /-- A typed list that ends in the root type. -/
  | typedList
  /-- The written form of the only field. -/
  | self
  /-- A form. -/
  | form (head : Head) (pieces : List Piece)
  /-- A form around the first field if the second one holds, otherwise the first field itself. -/
  | negatable (head : String)
  /-- The only member of the first field, or a form of all of them. -/
  | loneOr (head : String)
  /-- A fixed word if the first field is absent, otherwise a form. -/
  | bareOr (bare : String) (head : String) (pieces : List Piece)
  /-- A block whose title may be followed by the text of a leaf. -/
  | block (title : String) (leaf : Option Nat) (lines : List Line)

namespace Layout

/-- A form with a fixed head, all of whose fields are written in order. -/
def plain (head : String) (arity : Nat) : Layout :=
  form (.word head) ((List.range arity).map .field)

/-- A form with a fixed head around the members of its only field. -/
def all (head : String) : Layout := form (.word head) [.members 0]

/-- A form that binds the variables of its first field in its second. -/
def quantified (head : String) : Layout := form (.word head) [.parameters 0, .field 1]

end Layout

/-- The root type, which a typed list leaves unwritten at its end. -/
def Node.rootType : Node := .exactly objectType

/-- The type that a list of function declarations leaves unwritten at its end. -/
def Node.fluentType : Node := .exactly numberType

/-- The written form of each kind. -/
def Kind.layout : Kind → Layout
  | exactType => .display
  | eitherType => .display
  | typed => .unwritable
  | typedList => .typedList
  | functionTerm => .form (.name 0) [.members 1]
  | groundTerm => .form (.name 0) [.members 1]
  | equality => .plain "=" 2
  | predicateFormula => .form (.name 0) [.members 1]
  | literal => .negatable "not"
  | predicateSkeleton => .form (.name 0) [.items 1 .rootType]
  | functionSkeleton => .form (.name 0) [.items 1 .rootType]
  | fluent => .form (.name 0) [.members 1]
  | binaryExpression => .form (.name 0) [.field 1, .field 2]
  | variadicExpression => .form (.name 0) [.field 1, .members 2]
  | negativeExpression => .plain "-" 1
  | comparison => .form (.name 0) [.field 1, .field 2]
  | durationVariable => .display
  | rate => .bareOr "#t" "*" [.word "#t", .field 0]
  | durativeAssignment => .form (.name 0) [.field 1, .field 2]
  | metricFunction => .form (.name 0) [.members 1]
  | totalTime => .display
  | violation => .plain "is-violated" 1
  | conjunction => .all "and"
  | disjunction => .all "or"
  | negation => .plain "not" 1
  | implication => .plain "imply" 2
  | existential => .quantified "exists"
  | universal => .quantified "forall"
  | preference => .form (.word "preference") [.given 0, .field 1]
  | preconditionForall => .quantified "forall"
  | preconditions => .loneOr "and"
  | goalAt => .plain "at" 2
  | goalOver => .plain "over" 2
  | timedPreference => .form (.word "preference") [.given 0, .field 1]
  | durativeConjunction => .all "and"
  | durativeForall => .quantified "forall"
  | addEffect => .self
  | deleteEffect => .plain "not" 1
  | assignNumeric => .form (.name 0) [.field 1, .field 2]
  | assignObject => .form (.word "assign") [.field 0, .givenOr 1 "undefined"]
  | consequent => .loneOr "and"
  | forallEffect => .quantified "forall"
  | whenEffect => .plain "when" 2
  | effects => .loneOr "and"
  | consequentAt => .plain "at" 2
  | assignmentAt => .plain "at" 2
  | continuousEffect => .form (.name 0) [.field 1, .field 2]
  | durativeEffects => .all "and"
  | durativeForallEffect => .quantified "forall"
  | durativeWhenEffect => .plain "when" 2
  | durationBound => .form (.name 0) [.word "?duration", .field 1]
  | timedDurationBound => .plain "at" 2
  | durationConstraint => .loneOr "and"
  | constraintAnd => .all "and"
  | constraintForall => .quantified "forall"
  | atEnd => .plain "at end" 1
  | always => .plain "always" 1
  | sometime => .plain "sometime" 1
  | within => .plain "within" 2
  | atMostOnce => .plain "at-most-once" 1
  | sometimeAfter => .plain "sometime-after" 2
  | sometimeBefore => .plain "sometime-before" 2
  | alwaysWithin => .plain "always-within" 3
  | holdDuring => .plain "hold-during" 3
  | holdAfter => .plain "hold-after" 2
  | preferenceAnd => .all "and"
  | preferenceForall => .quantified "forall"
  | constraintPreference => .form (.word "preference") [.given 0, .field 1]
  | action => .block ":action" (some 0)
      [.labelled ":parameters" (.parameters 1), .labelled ":precondition" (.given 2),
        .labelled ":effect" (.given 3)]
  | durativeAction => .block ":durative-action" (some 0)
      [.labelled ":parameters" (.parameters 1), .labelled ":duration" (.given 2),
        .labelled ":condition" (.given 3), .labelled ":effect" (.given 4)]
  | derivedPredicate => .plain ":derived" 2
  | requirements => .all ":requirements"
  | domain => .block "define" none
      [.form "domain" (.leaf 0), .form ":extends" (.members 1),
        .bare (.unlessSame 2 (.form .requirements [.nothing])),
        .form ":types" (.items 3 .rootType), .form ":constants" (.items 4 .rootType),
        .form ":predicates" (.members 5), .form ":timeless" (.members 6),
        .form ":functions" (.items 7 .fluentType),
        .form ":constraints" (.unlessSame 8 (.form .constraintAnd [.nothing])), .blocks 9]
  | timedLiteral => .plain "at" 2
  | numericValue => .plain "=" 2
  | objectValue => .plain "=" 2
  | metric => .plain ":metric" 2
  | length => .form (.word ":length") [.option ":serial" 0, .option ":parallel" 1]
  | problem => .block "define" none
      [.form "problem" (.leaf 0), .form ":domain" (.leaf 1),
        .bare (.unlessSame 2 (.form .requirements [.nothing])),
        .form ":objects" (.items 3 .rootType), .always ":init" (.members 4),
        .always ":goal" (.field 5),
        .form ":constraints" (.unlessSame 6 (.form .preferenceAnd [.nothing])),
        .bare (.given 7), .bare (.given 8)]

end Pddl
