import Pddl.Grammar.Nonterminal

/-!
# Rules of terms and formulas

* `Rule.term`, `Rule.functionTerm`, `Rule.groundTerm` : terms, over objects or over names only.
* `Rule.atomicFormulaOf`, `Rule.literalOf` : formulas over any kind of argument.
* `Rule.predicateSkeleton`, `Rule.functionSkeleton` : declarations.
-/

namespace Pddl

namespace Rule

open Grammar

variable {τ : Type}

/-- A term, one level deeper. -/
def term : Rule Term := call .term

/-- A function applied to terms. -/
def functionTerm : Rule FunctionTerm :=
  (fun (f, ts) => ⟨f, ts⟩) <$> parens (headed (symbol .function) (many term))

/-- What a term is: a variable, a function applied to terms, or a name. -/
def termForms : Rule Term :=
  .var <$> symbol .var <|> FunctionTerm.toTerm <$> functionTerm <|> .name <$> symbol .name

/-- A function by its name, or applied to names. -/
def groundTerm : Rule GroundTerm :=
  (fun f => ⟨f, []⟩) <$> symbol .function <|>
  (fun (f, ns) => ⟨f, ns⟩) <$> parens (headed (symbol .function) (many (symbol .name)))

/-- An atomic formula: an equality, or else a predicate applied to arguments. -/
def atomicFormulaOf (g : Rule τ) : Rule (AtomicFormula τ) :=
  (fun (l, r) => .equality l r) <$> form "=" (pair g g) <|>
  (fun (p, ts) => .predicate p ts) <$> parens (headed (symbol .predicate) (many g))

/-- A literal: the negation of an atomic formula, or an atomic formula. -/
def literalOf (g : Rule τ) : Rule (Literal τ) :=
  (fun f => ⟨f, true⟩) <$> form "not" (atomicFormulaOf g) <|>
  (fun f => ⟨f, false⟩) <$> atomicFormulaOf g

/-- An atomic formula over terms. -/
def atomicFormula : Rule (AtomicFormula Term) := atomicFormulaOf term

/-- A literal over terms. -/
def literal : Rule (Literal Term) := literalOf term

/-- A literal over names. -/
def groundLiteral : Rule (Literal Name) := literalOf (symbol .name)

/-- The declaration of a predicate. -/
def predicateSkeleton : Rule PredicateSkeleton :=
  (fun (p, vs) => ⟨p, vs⟩) <$> parens (headed (symbol .predicate) (items (symbol .var)))

/-- The declaration of a function. -/
def functionSkeleton : Rule FunctionSkeleton :=
  (fun (f, vs) => ⟨f, vs⟩) <$> parens (headed (symbol .function) (items (symbol .var)))

end Rule

end Pddl
