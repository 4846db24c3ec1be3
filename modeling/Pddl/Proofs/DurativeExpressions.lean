import Mathlib.Data.Set.List
import Pddl.Proofs.Ceiling
import Pddl.Proofs.Extensions
import Pddl.Proofs.ProblemTexts

/-!
# Expressions of durative actions extend expressions

An expression of a durative action may refer to the duration.  Its arithmetic has operands of its
own, and what is neither the duration nor arithmetic is read as an expression of a goal.

* `Expression.references` : what an expression refers to; `mem_range_toDurative` : the expressions
  without the duration are those of goals.
* `Rule.exists_operator` : behind the parenthesis of arithmetic stands an operator, so it is no
  number and no fluent.
* `Rule.extends_durativeExpression` : **on every number of levels, expressions of durative actions
  extend expressions.**
* `Rule.parse_durativeExpression` : the same of parsing at a place.
-/

namespace Pddl

/-! ### References -/

namespace Expression

variable {ρ σ : Type} {f : ρ → σ}

mutual

/-- The references of the expression. -/
def references : Expression ρ → List ρ
  | number _ => []
  | reference r => [r]
  | binary _ l r => l.references ++ r.references
  | variadic _ e es => e.references ++ referencesOfAll es
  | negative e => e.references

/-- The references of several expressions. -/
def referencesOfAll : List (Expression ρ) → List ρ
  | [] => []
  | e :: es => e.references ++ referencesOfAll es

end

mutual

theorem references_map : ∀ e : Expression ρ, (e.map f).references = e.references.map f
  | number _ => rfl
  | reference _ => rfl
  | binary _ l r => by
    rw [map, references, references, references_map l, references_map r, List.map_append]
  | variadic _ e es => by
    rw [map, references, references, references_map e, referencesOfAll_mapAll es, List.map_append]
  | negative e => by rw [map, references, references, references_map e]

theorem referencesOfAll_mapAll : ∀ es : List (Expression ρ),
    referencesOfAll (mapAll f es) = (referencesOfAll es).map f
  | [] => rfl
  | e :: es => by
    rw [mapAll, referencesOfAll, referencesOfAll, references_map e, referencesOfAll_mapAll es,
      List.map_append]

end

mutual

/-- An expression is one with changed references if each of its references is a changed one. -/
theorem mem_range_map : ∀ {d : Expression σ}, (∀ r ∈ d.references, r ∈ Set.range f) →
    d ∈ Set.range (map f)
  | number x, _ => ⟨number x, rfl⟩
  | reference r, h => by
    obtain ⟨s, rfl⟩ := h r (by simp [references])
    exact ⟨reference s, rfl⟩
  | binary op l r, h => by
    simp only [references, List.forall_mem_append] at h
    obtain ⟨l, rfl⟩ := mem_range_map h.1
    obtain ⟨r, rfl⟩ := mem_range_map h.2
    exact ⟨binary op l r, rfl⟩
  | variadic op e es, h => by
    simp only [references, List.forall_mem_append] at h
    obtain ⟨e, rfl⟩ := mem_range_map h.1
    obtain ⟨es, rfl⟩ := mem_range_mapAll h.2
    exact ⟨variadic op e es, rfl⟩
  | negative d, h => by
    rw [references] at h
    obtain ⟨e, rfl⟩ := mem_range_map h
    exact ⟨negative e, rfl⟩

theorem mem_range_mapAll : ∀ {ds : List (Expression σ)},
    (∀ r ∈ referencesOfAll ds, r ∈ Set.range f) → ds ∈ Set.range (mapAll f)
  | [], _ => ⟨[], rfl⟩
  | d :: ds, h => by
    simp only [referencesOfAll, List.forall_mem_append] at h
    obtain ⟨e, rfl⟩ := mem_range_map h.1
    obtain ⟨es, rfl⟩ := mem_range_mapAll h.2
    exact ⟨e :: es, rfl⟩

end

mutual

/-- References that are the same nodes make the same nodes of expressions. -/
theorem toNode_map [ToNode ρ] [ToNode σ] (hf : ∀ r, toNode (f r) = toNode r) :
    ∀ e : Expression ρ, toNode (e.map f) = toNode e
  | number _ => rfl
  | reference r => hf r
  | binary op l r => by
    show Node.form .binaryExpression [toNode op, toNode (l.map f), toNode (r.map f)] = _
    rw [toNode_map hf l, toNode_map hf r]
    rfl
  | variadic op e es => by
    show Node.form .variadicExpression
      [toNode op, toNode (e.map f), .tuple (toNodes (mapAll f es))] = _
    rw [toNode_map hf e, toNodes_mapAll hf es]
    rfl
  | negative e => by
    show Node.form .negativeExpression [toNode (e.map f)] = _
    rw [toNode_map hf e]
    rfl

theorem toNodes_mapAll [ToNode ρ] [ToNode σ] (hf : ∀ r, toNode (f r) = toNode r) :
    ∀ es : List (Expression ρ), toNodes (mapAll f es) = toNodes es
  | [] => rfl
  | e :: es => by
    show toNode (e.map f) :: toNodes (mapAll f es) = _
    rw [toNode_map hf e, toNodes_mapAll hf es]
    rfl

end

end Expression

/-- An expression is the same node in a durative action. -/
theorem NumericExpression.toNode_toDurative (e : NumericExpression) :
    toNode e.toDurative = toNode e :=
  Expression.toNode_map (f := DurativeReference.fluent) (fun _ => rfl) e

/-- The expressions in durative actions are those without the duration. -/
theorem mem_range_toDurative {d : DurativeExpression} :
    d ∈ Set.range NumericExpression.toDurative ↔ .duration ∉ d.references := by
  constructor
  · rintro ⟨e, rfl⟩ h
    rw [NumericExpression.toDurative, Expression.references_map] at h
    simp at h
  · refine fun h => Expression.mem_range_map fun r hr => ?_
    cases r with
    | duration => exact absurd hr h
    | fluent f => exact ⟨f, rfl⟩

namespace Expression

variable {ρ σ : Type} {f : ρ → σ}

/-- Operands with changed references. -/
def mapOperands (f : ρ → σ) :
    ArithmeticOp × Expression ρ × List (Expression ρ) →
      ArithmeticOp × Expression σ × List (Expression σ) :=
  Prod.map id (Prod.map (map f) (List.map (map f)))

/-- What an operator makes of changed operands is what it makes of the operands, changed. -/
theorem ofOperands_mapOperands (x : ArithmeticOp × Expression ρ × List (Expression ρ)) :
    ofOperands (mapOperands f x) = (ofOperands x).map (map f) := by
  obtain ⟨op, l, rs⟩ := x
  rcases rs with _ | ⟨r, _ | ⟨r', rs⟩⟩
  · cases op <;> rfl
  · cases op <;> rfl
  · cases op <;> simp [mapOperands, ofOperands, ArithmeticOp.variadic?, Except.map, map, mapAll,
      mapAll_eq_map]

/-- Where the result has changed references only, so have the operands. -/
theorem mem_range_mapOperands {x : ArithmeticOp × Expression σ × List (Expression σ)}
    {d : Expression σ} (h : ofOperands x = .ok d) (hd : d ∈ Set.range (map f)) :
    x ∈ Set.range (mapOperands f) := by
  obtain ⟨op, l, rs⟩ := x
  obtain ⟨e, rfl⟩ := hd
  rcases rs with _ | ⟨r, _ | ⟨r', rs⟩⟩
  · cases op <;> simp [ofOperands] at h
    cases e <;> simp [map] at h
    subst h
    exact ⟨(.minus, _, []), rfl⟩
  · obtain rfl' : .binary op l r = map f e := by cases op <;> simpa [ofOperands] using h
    cases e <;> simp [map] at rfl'
    obtain ⟨rfl, rfl, rfl⟩ := rfl'
    exact ⟨(_, _, [_]), rfl⟩
  · simp only [ofOperands] at h
    split at h
    · cases e <;> simp [map, mapAll_eq_map] at h
      obtain ⟨rfl, rfl, h⟩ := h
      exact ⟨(op, _, _), by rw [h]; rfl⟩
    · simp at h

end Expression


namespace Rule

open Grammar

variable {α : Type} {levels : Nat} {v : View}

/-! ### Arithmetic -/

variable {ρ σ : Type} {f : ρ → σ} {operand : Rule (Expression ρ)} {operand' : Rule (Expression σ)}

/-- Arithmetic extends arithmetic if its operands do. -/
theorem Extends.arithmetic (ho : Extends levels (Expression.map f) operand operand')
    (hclose : ∀ r, operand'.Misses (')' :: r)) :
    Extends levels (Expression.map f) (arithmetic operand) (arithmetic operand') := by
  have hop : Extends levels id (keyword ArithmeticOp) (keyword ArithmeticOp) :=
    fun v => .inl (Finding.tracks_refl _)
  have hoperands :=
    hop.closed_pair (ho.closed_pair (ho.closed_separated_many hclose)).closed_separated
  exact hoperands.parens.refine Expression.ofOperands_mapOperands
    fun x d hx hd => Expression.mem_range_mapOperands hx hd

/-- What a word of a vocabulary heads is a form with one of these words. -/
theorem headedBy_operation {ω : Type} [Vocabulary ω] (g : Rule α) :
    HeadedBy ((Vocabulary.entries ω).map Prod.fst) (Grammar.parens (pair (keyword ω) g)) := by
  intro levels v hv
  by_cases hopen : v.rest.head? = some '('
  · have hnone : Terminal.firstMatch? v.inside.rest
        (Terminal.longestFirst (Vocabulary.entries ω)) = .none := by
      refine firstMatch?_eq_none fun e he => ?_
      simpa [View.OpensWith, hopen] using hv e.1 (List.mem_map_of_mem (mem_longestFirst.1 he))
    have hkeyword : look levels (keyword ω) v.inside = .missing := by
      simp [keyword, look, Grammar.denote, Terminal.lexeme?, Finding.lexeme, hnone]
    rw [look_parens_closed hopen, look_closed_pair, hkeyword]
    rfl
  · exact look_parens_missing hopen

/-- Where arithmetic is there, an operator stands behind the parenthesis. -/
theorem exists_operator (h : (Rule.arithmetic operand).look levels v ≠ .missing) :
    ∃ op : ArithmeticOp, v.OpensWith (Vocabulary.keyword op) := by
  by_contra hv
  push Not at hv
  have hmissing := headedBy_operation (pair operand (many operand)) levels v (ω := ArithmeticOp)
  refine h ?_
  show Finding.andThen (look levels (Grammar.parens _) v) _ = _
  rw [hmissing fun x hx => ?_]
  · rfl
  · obtain ⟨e, he, rfl⟩ := List.mem_map.1 hx
    obtain ⟨op, -, rfl⟩ := List.mem_map.1 he
    exact hv op

/-- A word that is in front is a prefix. -/
theorem prefix_of_keywordLength? {x : String} (hx : IsWord x) {s : List Char}
    (h : (keywordLength? x s).isSome) : x.toList <+: s := by
  obtain ⟨n, hn⟩ := Option.isSome_iff_exists.1 h
  have hwords := (keywordLength?_eq_some.1 hn).1
  rw [hx.2] at hwords
  obtain ⟨r, rfl, -⟩ := wordsLength?_cons.1 hwords
  exact List.prefix_append _ r

theorem look_number_missing (hv : v.rest.head?.any Char.isDigit = false) :
    look levels number v = .missing := by
  have hparts : decimalParts? v.rest = .none := by
    rcases hs : v.rest with _ | ⟨c, s⟩
    · rfl
    · have hc : c.isDigit = false := by simpa [hs] using hv
      simp [decimalParts?, hc]
  have hdecimal : look levels (terminal .decimal) v = .missing := by
    simp [look, Grammar.denote, Terminal.lexeme?, Terminal.decimalLexeme?, hparts, Finding.lexeme]
  show Finding.andThen (look levels (terminal .decimal) v) _ = _
  rw [hdecimal]
  rfl

theorem any_isNameStart_of_operator {op : ArithmeticOp}
    (hop : v.OpensWith (Vocabulary.keyword op)) : v.inside.rest.head?.any isNameStart = false := by
  obtain ⟨r, hr⟩ := prefix_of_keywordLength? (PlainVocabulary.isWord op) hop.2
  rw [← hr]
  cases op <;> rfl

/-- Behind a parenthesis and an operator, there is no name. -/
theorem look_symbol_missing {op : ArithmeticOp} (hop : v.OpensWith (Vocabulary.keyword op))
    {kind : SymbolKind} (hk : kind.sigil = "") :
    look levels (symbol kind) v.inside = .missing := by
  rw [look_symbol, Terminal.symbolLexeme?_eq_none hk (any_isNameStart_of_operator hop)]
  rfl

/-- A form of an operator is no fluent. -/
theorem look_fluent_missing {op : ArithmeticOp} (hop : v.OpensWith (Vocabulary.keyword op)) :
    fluent.look levels v = .missing := by
  have hstart : v.rest.head?.any isNameStart = false := by rw [hop.1]; rfl
  rw [fluent, look_orElse_eq_missing, look_map_eq_missing, look_map_eq_missing]
  constructor
  · rw [look_symbol, Terminal.symbolLexeme?_eq_none rfl hstart]
    rfl
  · rw [look_parens_closed hop.1, look_closed_pair, look_symbol_missing hop rfl]
    rfl

/-! ### Expressions of durative actions -/

theorem misses_close_durativeExpression (r : List Char) : Misses durativeExpression (')' :: r) :=
  misses_call (.orElse (.map (misses_word_of_head (by decide) (by simp)))
    (.orElse (misses_arithmetic_of_head _ (by simp)) misses_close_expression.map))

/-- An expression that is a form of an operator is arithmetic. -/
theorem look_expressionForms_of_operator {op : ArithmeticOp}
    (hop : v.OpensWith (Vocabulary.keyword op)) :
    expressionForms.look levels v = (arithmetic expression).look levels v := by
  have hdigit : v.rest.head?.any Char.isDigit = false := by rw [hop.1]; rfl
  rw [expressionForms, look_orElse, look_map, look_number_missing hdigit, look_orElse, look_map,
    look_fluent_missing hop]
  cases (arithmetic expression).look levels v <;> rfl

/-- An expression does not begin with a question mark. -/
theorem misses_expressionForms {s : List Char} (hs : s.head? = some '?') :
    Misses expressionForms s := by
  have hopen : s.head? ≠ some '(' := by simp [hs]
  exact .orElse (.map (misses_number (by rw [hs]; rfl)))
    (.orElse (misses_arithmetic_of_head _ hopen)
      (.map (.orElse (.map (misses_symbol rfl (by rw [hs]; rfl))) (.map (misses_parens hopen)))))

/-- **Durative expressions extend expressions**, on every number of levels. -/
theorem extends_durativeExpression (levels : Nat) :
    Extends levels NumericExpression.toDurative expression durativeExpression := by
  induction levels with
  | zero => exact fun v => .inl (.inl rfl)
  | succ levels ih =>
    intro v
    show Finding.Extends _ (expressionForms.look levels v) (durativeExpressionForms.look levels v)
    have hword : look levels (word "?duration") v = .lexeme v _ := look_word_eq
    rw [durativeExpressionForms, look_orElse, look_map, hword]
    rcases hduration : keywordLength? "?duration" v.rest with _ | n
    · rw [look_orElse]
      show Finding.Extends _ _ (((arithmetic durativeExpression).look levels v).orElse _)
      by_cases hmissing : (arithmetic durativeExpression).look levels v = .missing
      · rw [hmissing, look_map]
        by_cases htoo : expression.look levels v = .tooDeep
        · exact .inl (.inr (.inl (by rw [htoo]; rfl)))
        · exact .inl (.inr (.inr (by rw [← look_succ expression htoo]; rfl)))
      · obtain ⟨op, hop⟩ := exists_operator hmissing
        rw [look_expressionForms_of_operator hop, Finding.orElse_of_ne_missing hmissing]
        exact ih.arithmetic misses_close_durativeExpression v
    · have hhead : v.rest.head? = some '?' := by
        obtain ⟨r, hr⟩ := prefix_of_keywordLength? (by decide) (Option.isSome_of_eq_some hduration)
        rw [← hr]
        rfl
      obtain h | h := misses_expressionForms hhead levels v.before
      · exact .inl (.inl h)
      · refine .inr ⟨h, fun w a => ?_⟩
        cases a <;> simp [Finding.lexeme, Finding.andThen, Finding.orElse,
          NumericExpression.toDurative, Expression.map]

/-- On numbers of levels that suffice, durative expressions extend expressions. -/
theorem extends_of_ne_tooDeep {j k : Nat} (hj : expression.look j v ≠ .tooDeep)
    (hk : durativeExpression.look k v ≠ .tooDeep) :
    (expression.look j v).Extends NumericExpression.toDurative (durativeExpression.look k v) :=
  Extends.of_ne_tooDeep extends_durativeExpression hj hk

/-! ### Parsing expressions of durative actions -/

/-- **Durative expressions extend expressions conservatively.**  From a place that remembers no
final mismatch ahead, under ceilings that neither parsing exceeds: where an expression is accepted,
the same node is accepted as an expression of a durative action, up to the same offset; and where an
expression of a durative action without the duration is accepted, so is an expression. -/
theorem parse_durativeExpression {c : Cursor} (hc : c.Calm) {ceiling ceiling' : Nat}
    (hplain : ∀ limit offset,
      expression.parse (c.under ceiling) ≠ .error (.tooDeep limit offset))
    (hdurative : ∀ limit offset,
      durativeExpression.parse (c.under ceiling') ≠ .error (.tooDeep limit offset)) (n : Nat) :
    (∀ e, (∃ d, expression.parse (c.under ceiling) = .ok (d, e) ∧ d.offset = n) →
      (∃ d, durativeExpression.parse (c.under ceiling') = .ok (d, e.toDurative) ∧ d.offset = n) ∧
        toNode e.toDurative = toNode e) ∧
    ∀ e', .duration ∉ e'.references →
      (∃ d, durativeExpression.parse (c.under ceiling') = .ok (d, e') ∧ d.offset = n) →
      ∃ e, (∃ d, expression.parse (c.under ceiling) = .ok (d, e) ∧ d.offset = n) ∧
        e.toDurative = e' ∧ toNode e = toNode e' := by
  have hcalm : ∀ k, (c.under k).Calm := fun _ => hc
  have hsettled : expression.Settled := settled_of_named .expression
  have hsettled' : durativeExpression.Settled := settled_of_named .durativeExpression
  have hne := look_ne_tooDeep_of_parse hsettled (hcalm ceiling) hplain
  have hne' := look_ne_tooDeep_of_parse hsettled' (hcalm ceiling') hdurative
  have hextends := extends_of_ne_tooDeep hne hne'
  simp only [parse_eq_ok_iff hsettled (hcalm _), parse_eq_ok_iff hsettled' (hcalm _)]
  constructor
  · rintro e ⟨w, hw, hn⟩
    exact ⟨⟨w, hextends.eq_found hw hne', hn⟩, e.toNode_toDurative⟩
  · rintro e' hduration ⟨w, hw, hn⟩
    obtain ⟨e, he, rfl⟩ := hextends.exists_found hw hne (mem_range_toDurative.2 hduration)
    exact ⟨e, ⟨w, he, hn⟩, rfl, e.toNode_toDurative.symm⟩

/-- A variable of the name of the duration is no duration. -/
theorem parse_durativeExpression_variable :
    let e : NumericExpression := .binary .plus
      (.reference ⟨⟨"f", by decide⟩, [.var ⟨"duration", by decide⟩]⟩)
      (.reference ⟨⟨"a", by decide⟩, []⟩)
    let c := Cursor.ofText (spelling e) 40
    .duration ∉ e.toDurative.references ∧ ∃ n,
      (∃ d, durativeExpression.parse (c.under 40) = .ok (d, e.toDurative) ∧ d.offset = n) ∧
      ∃ e', toNode e' = toNode e.toDurative ∧
        ∃ d, expression.parse (c.under 40) = .ok (d, e') ∧ d.offset = n := by
  intro e c
  have hnesting : 2 * nesting false (spelling e) + 1 < 40 := by decide +kernel
  have hregular : e.IsRegular := .binary .plus (.reference trivial) (.reference trivial)
  have hlook := (recovers_expression hregular).reads .nil 40 none
  rw [List.append_nil] at hlook
  have hdeep : ∀ limit offset, expression.parse c ≠ .error (.tooDeep limit offset) :=
    parse_ne_tooDeep .expression hnesting
  obtain ⟨d, _, hd, rfl, -⟩ := parse_of_leaves (settled_of_named .expression) hlook hdeep
  obtain ⟨hplain, hdurative⟩ := parse_durativeExpression (calm_ofText _ _) hdeep
    (parse_ne_tooDeep .durativeExpression hnesting) d.offset
  obtain ⟨haccepted, -⟩ := hplain e ⟨d, hd, rfl⟩
  have hduration := mem_range_toDurative.1 ⟨e, rfl⟩
  obtain ⟨e', he', -, hnode⟩ := hdurative e.toDurative hduration haccepted
  exact ⟨hduration, d.offset, haccepted, e', hnode, he'⟩

/-- A place that remembers a final mismatch ahead ends a reading at the first alternative. -/
theorem parse_durativeExpression_final :
    ∃ c p, Rule.parse (blanks *> items (pair number requirement))
        (Cursor.ofText " 5 :nope".toList 40) = .ok (c, p) ∧
      (∃ d e, expression.parse c = .ok (d, e) ∧ d.offset = 2) ∧
      ∃ m, durativeExpression.parse c = .error (.mismatch m) ∧ m.committed = true := by
  have h : (Rule.parse (blanks *> items (pair number requirement))
      (Cursor.ofText " 5 :nope".toList 40)).toOption.map
        (fun r => (expression.endOf? r.1, failure? (durativeExpression.parse r.1))) =
      some (some 2, some (.mismatch ⟨.unknownRequirement, .requirementFlag, 3⟩)) := by
    decide +kernel
  rcases hp : Rule.parse (blanks *> items (pair number requirement))
    (Cursor.ofText " 5 :nope".toList 40) with e | ⟨c, p⟩
  · rw [hp] at h
    cases h
  · rw [hp] at h
    obtain ⟨hend, hfail⟩ := Prod.mk.inj (Option.some.inj h)
    exact ⟨c, p, rfl, endOf?_eq_some.1 hend, _, failure?_eq_some.1 hfail, rfl⟩

end Rule

end Pddl
