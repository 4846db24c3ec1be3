import Pddl.Node.Kind
import Pddl.Number.Spelling
import Pddl.Requirement
import Pddl.Symbol

/-!
# Syntax nodes

A syntax node is the uniform view of every construct of the language: a form of some kind with
its fields in order, a sequence, or a leaf.  The types of goals, effects and so on say what can
be written where; a node forgets that and keeps only the shape, so that one walk, one printer and
one comparison serve them all, also for trees that were put together by hand.

* `Node` : the nodes.
* `ToNode` : the types that have such a view.
* `Kind.schema` : the fields of a form, each with the value it has where it is left out.
* `Node.same` : equality of nodes, in which a symbol or a keyword equals its plain text and
  numbers are equal by value.
-/

namespace Pddl

/-- A node of a syntax tree. -/
inductive Node where
  /-- A construct with its fields in declared order. -/
  | form (kind : Kind) (fields : List Node)
  /-- A sequence. -/
  | tuple (members : List Node)
  /-- A symbol. -/
  | symbol {kind : SymbolKind} (s : Symbol kind)
  /-- A number. -/
  | number (x : Number)
  /-- A word of a closed vocabulary, with the title of the vocabulary. -/
  | keyword (title word : String)
  /-- A plain text. -/
  | text (s : String)
  /-- A plain integer. -/
  | integer (n : Int)
  /-- A plain binary64 value. -/
  | float (x : Binary64)
  /-- A truth value. -/
  | truth (b : Bool)
  /-- Nothing. -/
  | absent

/-- The types of constructs, each with its view as a node. -/
class ToNode (α : Type) where
  /-- The construct as a node. -/
  toNode : α → Node

export ToNode (toNode)

instance : ToNode Node := ⟨id⟩
instance {kind : SymbolKind} : ToNode (Symbol kind) := ⟨.symbol⟩
instance : ToNode Number := ⟨.number⟩
instance : ToNode Bool := ⟨.truth⟩
instance : ToNode Int := ⟨.integer⟩
instance : ToNode Nat := ⟨fun n => .integer n⟩
instance (priority := low) {α : Type} [Vocabulary α] : ToNode α :=
  ⟨fun a => .keyword (Vocabulary.title α) (Vocabulary.keyword a)⟩
instance {α : Type} [ToNode α] : ToNode (List α) := ⟨fun as => .tuple (as.map toNode)⟩
instance {α : Type} [ToNode α] : ToNode (Option α) := ⟨fun a => a.elim .absent toNode⟩

instance : ToNode Requirements := ⟨fun rs => .form .requirements [toNode rs.declared]⟩

namespace Node

/-- An empty sequence. -/
def nothing : Node := .tuple []

/-- A typed list without items. -/
def noItems : Node := .form .typedList [nothing]

/-- A type of exactly one primitive type. -/
def exactly (t : PrimitiveType) : Node := .form .exactType [.symbol t]

/-- What a node is, for display. -/
def typeName : Node → String
  | form kind _ => kind.title
  | tuple _ => "tuple"
  | @symbol kind _ => kind.title
  | number _ => "Number"
  | keyword title _ => title
  | text _ => "str"
  | integer _ => "int"
  | float _ => "float"
  | truth _ => "bool"
  | absent => "NoneType"

end Node

/-! ### Fields -/

/-- A field of a form. -/
structure Field where
  /-- The name of the field. -/
  name : String
  /-- What the field holds where it is left out; a field without it must be given. -/
  default : Option Node := none

/-- The fields of a form, in declared order. -/
def Kind.schema : Kind → List Field
  | exactType => [⟨"primitive", none⟩]
  | eitherType => [⟨"primitives", none⟩]
  | typed => [⟨"value", none⟩, ⟨"type_", some (.exactly objectType)⟩]
  | typedList => [⟨"items", some .nothing⟩]
  | functionTerm => [⟨"symbol", none⟩, ⟨"terms", some .nothing⟩]
  | groundTerm => [⟨"symbol", none⟩, ⟨"names", some .nothing⟩]
  | equality => [⟨"left", none⟩, ⟨"right", none⟩]
  | predicateFormula => [⟨"predicate", none⟩, ⟨"terms", some .nothing⟩]
  | literal => [⟨"formula", none⟩, ⟨"negated", some (.truth false)⟩]
  | predicateSkeleton => [⟨"predicate", none⟩, ⟨"variables", some .noItems⟩]
  | functionSkeleton => [⟨"symbol", none⟩, ⟨"variables", some .noItems⟩]
  | fluent => [⟨"symbol", none⟩, ⟨"terms", some .nothing⟩]
  | binaryExpression => [⟨"op", none⟩, ⟨"left", none⟩, ⟨"right", none⟩]
  | variadicExpression => [⟨"op", none⟩, ⟨"first", none⟩, ⟨"rest", none⟩]
  | negativeExpression => [⟨"value", none⟩]
  | comparison => [⟨"comp", none⟩, ⟨"left", none⟩, ⟨"right", none⟩]
  | durationVariable => []
  | rate => [⟨"scale", some .absent⟩]
  | durativeAssignment => [⟨"op", none⟩, ⟨"head", none⟩, ⟨"value", none⟩]
  | metricFunction => [⟨"symbol", none⟩, ⟨"names", some .nothing⟩]
  | totalTime => []
  | violation => [⟨"preference", none⟩]
  | conjunction => [⟨"goals", some .nothing⟩]
  | disjunction => [⟨"goals", some .nothing⟩]
  | negation => [⟨"goal", none⟩]
  | implication => [⟨"premise", none⟩, ⟨"conclusion", none⟩]
  | existential => [⟨"variables", none⟩, ⟨"goal", none⟩]
  | universal => [⟨"variables", none⟩, ⟨"goal", none⟩]
  | preference => [⟨"name", none⟩, ⟨"goal", none⟩]
  | preconditionForall => [⟨"variables", none⟩, ⟨"goals", none⟩]
  | preconditions => [⟨"goals", some .nothing⟩]
  | goalAt => [⟨"time", none⟩, ⟨"goal", none⟩]
  | goalOver => [⟨"interval", none⟩, ⟨"goal", none⟩]
  | timedPreference => [⟨"name", none⟩, ⟨"goal", none⟩]
  | durativeConjunction => [⟨"goals", some .nothing⟩]
  | durativeForall => [⟨"variables", none⟩, ⟨"goal", none⟩]
  | addEffect => [⟨"formula", none⟩]
  | deleteEffect => [⟨"formula", none⟩]
  | assignNumeric => [⟨"op", none⟩, ⟨"head", none⟩, ⟨"value", none⟩]
  | assignObject => [⟨"function", none⟩, ⟨"value", none⟩]
  | consequent => [⟨"effects", some .nothing⟩]
  | forallEffect => [⟨"variables", none⟩, ⟨"effects", none⟩]
  | whenEffect => [⟨"condition", none⟩, ⟨"effect", none⟩]
  | effects => [⟨"effects", some .nothing⟩]
  | consequentAt => [⟨"time", none⟩, ⟨"effect", none⟩]
  | assignmentAt => [⟨"time", none⟩, ⟨"assignment", none⟩]
  | continuousEffect => [⟨"op", none⟩, ⟨"head", none⟩, ⟨"rate", none⟩]
  | durativeEffects => [⟨"effects", some .nothing⟩]
  | durativeForallEffect => [⟨"variables", none⟩, ⟨"effect", none⟩]
  | durativeWhenEffect => [⟨"condition", none⟩, ⟨"effect", none⟩]
  | durationBound => [⟨"op", none⟩, ⟨"value", none⟩]
  | timedDurationBound => [⟨"time", none⟩, ⟨"constraint", none⟩]
  | durationConstraint => [⟨"constraints", none⟩]
  | constraintAnd => [⟨"constraints", some .nothing⟩]
  | constraintForall => [⟨"variables", none⟩, ⟨"constraint", none⟩]
  | atEnd => [⟨"goal", none⟩]
  | always => [⟨"condition", none⟩]
  | sometime => [⟨"condition", none⟩]
  | within => [⟨"deadline", none⟩, ⟨"condition", none⟩]
  | atMostOnce => [⟨"condition", none⟩]
  | sometimeAfter => [⟨"first", none⟩, ⟨"then", none⟩]
  | sometimeBefore => [⟨"later", none⟩, ⟨"earlier", none⟩]
  | alwaysWithin => [⟨"deadline", none⟩, ⟨"first", none⟩, ⟨"second", none⟩]
  | holdDuring => [⟨"begin", none⟩, ⟨"end", none⟩, ⟨"condition", none⟩]
  | holdAfter => [⟨"time", none⟩, ⟨"condition", none⟩]
  | preferenceAnd => [⟨"constraints", some .nothing⟩]
  | preferenceForall => [⟨"variables", none⟩, ⟨"constraint", none⟩]
  | constraintPreference => [⟨"name", none⟩, ⟨"constraint", none⟩]
  | action => [⟨"symbol", none⟩, ⟨"parameters", some .noItems⟩, ⟨"precondition", some .absent⟩,
      ⟨"effect", some .absent⟩]
  | durativeAction => [⟨"symbol", none⟩, ⟨"parameters", some .noItems⟩,
      ⟨"duration", some .absent⟩, ⟨"condition", some .absent⟩, ⟨"effect", some .absent⟩]
  | derivedPredicate => [⟨"predicate", none⟩, ⟨"goal", none⟩]
  | requirements => [⟨"declared", some .nothing⟩]
  | domain => [⟨"name", none⟩, ⟨"extends", some .nothing⟩,
      ⟨"requirements", some (toNode (Requirements.ofList []))⟩, ⟨"types", some .noItems⟩,
      ⟨"constants", some .noItems⟩, ⟨"predicates", some .nothing⟩,
      ⟨"timeless", some .nothing⟩, ⟨"functions", some .noItems⟩,
      ⟨"constraints", some (.form .constraintAnd [.nothing])⟩, ⟨"structure", some .nothing⟩]
  | timedLiteral => [⟨"time", none⟩, ⟨"literal", none⟩]
  | numericValue => [⟨"term", none⟩, ⟨"value", none⟩]
  | objectValue => [⟨"term", none⟩, ⟨"value", none⟩]
  | metric => [⟨"optimization", none⟩, ⟨"expression", none⟩]
  | length => [⟨"serial", some .absent⟩, ⟨"parallel", some .absent⟩]
  | problem => [⟨"name", none⟩, ⟨"domain", none⟩,
      ⟨"requirements", some (toNode (Requirements.ofList []))⟩, ⟨"objects", some .noItems⟩,
      ⟨"init", some .nothing⟩, ⟨"goal", some (.form .preconditions [.nothing])⟩,
      ⟨"constraints", some (.form .preferenceAnd [.nothing])⟩, ⟨"metric", some .absent⟩,
      ⟨"length", some .absent⟩]

/-- The names of the fields of a form, in declared order. -/
def Kind.fieldNames (k : Kind) : List String := k.schema.map Field.name

/-- The field of a form with the given name. -/
def Node.field? (name : String) : Node → Option Node
  | form kind fields => (kind.fieldNames.zip fields).lookup name
  | _ => none

/-! ### Leaves and equality -/

namespace Node

/-- The text that a leaf stands for in a comparison. -/
def word? : Node → Option String
  | symbol s => some s.text
  | keyword _ word => some word
  | text s => some s
  | _ => none

/-- The number that a leaf stands for in a comparison, in units; a truth value counts one or
zero, and "not a number" or an infinity is no number. -/
def quantity? : Node → Option Int
  | number x => some x.signedUnits
  | integer n => some (n * unitsPerOne)
  | float (.finite x) => some x.signedUnits
  | truth b => some (if b then unitsPerOne else 0)
  | _ => none

/-- Equality of nodes of which at most one is a form or a sequence.  Symbols of different kinds
are unequal, but a symbol or a keyword equals a plain text. -/
def sameLeaf : Node → Node → Bool
  | @symbol k a, @symbol l b => k == l && a.text == b.text
  | absent, absent => true
  | float (.infinite m), float (.infinite n) => m == n
  | a, b =>
    match a.word?, b.word? with
    | some s, some t => s == t
    | none, none =>
      match a.quantity?, b.quantity? with
      | some m, some n => m == n
      | _, _ => false
    | _, _ => false

mutual

/-- Equality of nodes. -/
def same : Node → Node → Bool
  | form k as, form l bs => k == l && allSame as bs
  | tuple as, tuple bs => allSame as bs
  | a, b => sameLeaf a b

/-- Equality of sequences of nodes. -/
def allSame : List Node → List Node → Bool
  | [], [] => true
  | a :: as, b :: bs => same a b && allSame as bs
  | _, _ => false

end

/-- The text of a leaf or of a type, for display. -/
def display : Node → String
  | symbol s => s.written
  | number x => x.plain
  | keyword _ word => word
  | text s => s
  | integer n => toString n
  | float x => x.display
  | truth b => if b then "True" else "False"
  | absent => "None"
  | form .exactType [t] => display t
  | form .eitherType [tuple ts] => "(either " ++ " ".intercalate (displayAll ts) ++ ")"
  | form .durationVariable _ => "?duration"
  | form .totalTime _ => "total-time"
  | n => n.typeName
where
  /-- The texts of several leaves. -/
  displayAll : List Node → List String
    | [] => []
    | n :: ns => display n :: displayAll ns

end Node

end Pddl
