import Pddl.Typed

/-!
# Terms and formulas

* `Term` : a name, a variable or a function applied to terms.
* `AtomicFormula`, `Literal` : formulas over any kind of argument; goals and effects use terms,
  initial states plain names.
* `PredicateSkeleton`, `FunctionSkeleton` : the declaration of a predicate or a function.
-/

namespace Pddl

/-- A term. -/
inductive Term where
  /-- The name of an object. -/
  | name (n : Name)
  /-- A variable. -/
  | var (v : Variable)
  /-- A function applied to terms. -/
  | apply (symbol : FunctionSymbol) (arguments : List Term)

namespace Term

mutual

/-- The term as a node. -/
protected def toNode : Term → Node
  | name n => .symbol n
  | var v => .symbol v
  | apply f ts => .form .functionTerm [.symbol f, .tuple (toNodes ts)]

/-- The terms as nodes. -/
def toNodes : List Term → List Node
  | [] => []
  | t :: ts => t.toNode :: toNodes ts

end

instance : ToNode Term := ⟨Term.toNode⟩

end Term

/-- A function applied to terms. -/
structure FunctionTerm where
  /-- The function. -/
  symbol : FunctionSymbol
  /-- Its arguments. -/
  arguments : List Term := []

/-- The application as a term. -/
def FunctionTerm.toTerm (t : FunctionTerm) : Term := .apply t.symbol t.arguments

instance : ToNode FunctionTerm := ⟨fun t => t.toTerm.toNode⟩

/-- A function applied to names only. -/
structure GroundTerm where
  /-- The function. -/
  symbol : FunctionSymbol
  /-- Its arguments. -/
  arguments : List Name := []

instance : ToNode GroundTerm :=
  ⟨fun t => .form .groundTerm [toNode t.symbol, toNode t.arguments]⟩

/-- An equality or a predicate applied to arguments. -/
inductive AtomicFormula (τ : Type) where
  /-- The two arguments are equal. -/
  | equality (left right : τ)
  /-- The predicate holds of the arguments. -/
  | predicate (symbol : Predicate) (arguments : List τ)

instance {τ : Type} [ToNode τ] : ToNode (AtomicFormula τ) where
  toNode
    | .equality l r => .form .equality [toNode l, toNode r]
    | .predicate p ts => .form .predicateFormula [toNode p, toNode ts]

/-- An atomic formula or its negation. -/
structure Literal (τ : Type) where
  /-- The formula. -/
  formula : AtomicFormula τ
  /-- It is negated. -/
  negated : Bool := false

instance {τ : Type} [ToNode τ] : ToNode (Literal τ) :=
  ⟨fun l => .form .literal [toNode l.formula, toNode l.negated]⟩

/-- The declaration of a predicate. -/
structure PredicateSkeleton where
  /-- The predicate. -/
  symbol : Predicate
  /-- Its parameters. -/
  parameters : TypedList Variable := {}

instance : ToNode PredicateSkeleton :=
  ⟨fun s => .form .predicateSkeleton [toNode s.symbol, toNode s.parameters]⟩

/-- The declaration of a function. -/
structure FunctionSkeleton where
  /-- The function. -/
  symbol : FunctionSymbol
  /-- Its parameters. -/
  parameters : TypedList Variable := {}

instance : ToNode FunctionSkeleton :=
  ⟨fun s => .form .functionSkeleton [toNode s.symbol, toNode s.parameters]⟩

end Pddl
