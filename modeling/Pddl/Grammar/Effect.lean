import Pddl.Grammar.Goal

/-!
# Rules of effects

* `Rule.primitiveEffect`, `Rule.consequent` : effects without conditions, and what follows a
  condition.
* `Rule.effectForms`, `Rule.effectsForms` : the effects of an action.
* `Rule.timedEffect`, `Rule.durativeEffectForms` : the effects of a durative action.
-/

namespace Pddl

namespace Rule

open Grammar

/-- An effect without conditions: an object fluent that becomes undefined, a numeric fluent that
changes, an object fluent that changes, a formula that becomes false or true. -/
def primitiveEffect : Rule PrimitiveEffect :=
  (fun (f, _) => .assignObject f none) <$> form "assign" (pair functionTerm (word "undefined")) <|>
  (fun (op, f, e) => .assignNumeric op f e) <$>
    parens (pair (keyword AssignOp) (pair fluent expression)) <|>
  (fun (f, t) => .assignObject f (some t)) <$> form "assign" (pair functionTerm term) <|>
  .delete <$> form "not" atomicFormula <|>
  .add <$> atomicFormula

/-- What follows a condition: primitive effects, or one of them. -/
def consequent : Rule Consequent :=
  (fun es => ⟨es⟩) <$> form "and" (many primitiveEffect) <|>
  (fun e => ⟨[e]⟩) <$> primitiveEffect

/-- An effect that is no conjunction, one level deeper. -/
def effect : Rule Effect := call .effect

/-- The effects of an action, one level deeper. -/
def effects : Rule Effects := call .effects

/-- What an effect that is no conjunction is. -/
def effectForms : Rule Effect :=
  (fun (vs, es) => .universal vs es.effects) <$> quantified "forall" effects <|>
  (fun (g, c) => .conditional g c) <$> form "when" (pair goal consequent) <|>
  .primitive <$> primitiveEffect

/-- What the effects of an action are: a conjunction, or one effect. -/
def effectsForms : Rule Effects :=
  (fun es => ⟨es⟩) <$> form "and" (many effect) <|>
  (fun e => ⟨[e]⟩) <$> effect

/-- An effect at a time point or throughout a durative action. -/
def timedEffect : Rule TimedEffect :=
  (fun (t, a) => .assignAt t a) <$> form "at" (pair (keyword TimePoint) durativeAssignment) <|>
  (fun (t, c) => .at t c) <$> form "at" (pair (keyword TimePoint) consequent) <|>
  (fun (op, f, r) => .continuous op f r) <$> parens (pair (keyword RateOp) (pair fluent rate))

/-- The effect of a durative action, one level deeper. -/
def durativeEffect : Rule DurativeEffect := call .durativeEffect

/-- What the effect of a durative action is. -/
def durativeEffectForms : Rule DurativeEffect :=
  .conj <$> form "and" (many durativeEffect) <|>
  (fun (vs, e) => .universal vs e) <$> quantified "forall" durativeEffect <|>
  (fun (c, e) => .conditional c e) <$> form "when" (pair condition timedEffect) <|>
  .timed <$> timedEffect

end Rule

end Pddl
