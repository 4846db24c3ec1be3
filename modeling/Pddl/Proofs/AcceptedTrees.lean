import Pddl.Proofs.Acceptance
import Pddl.Proofs.CompleteInput
import Pddl.Proofs.ListedItems
import Pddl.Proofs.ParsedTrees
import Pddl.Proofs.PrintedExpressions
import Pddl.Proofs.ProblemTexts

/-!
# Parsed trees are taken again

What a rule finds is written as a text that the rule takes.  As in a parsed tree, everything is put
together from its parts: the form that a construct is written as is one of the alternatives of its rule.

* `isWhole_term`, `isWhole_expression`, … : the texts of what stands in forms are whole.
* `Rule.Finds.rereads_goal`, `Rule.Finds.rereads_effects`, … : **what is found is taken again.**
-/

namespace Pddl

/-! ### Texts without forms of their own -/

theorem isClean_keyword {ω : Type} [Vocabulary ω]
    (h : ∀ a ∈ (Vocabulary.members : List ω),
      ((Vocabulary.keyword a).toList.all fun c => isPlain c && c != '\r' && !c.isDigit) = true)
    (a : ω) : IsClean (Vocabulary.keyword a).toList :=
  isClean_of_all (h a (Vocabulary.complete a))

theorem isClean_map {α : Type} {f : α → List Char} {as : List α} (h : ∀ a ∈ as, IsWhole (f a)) :
    ∀ p ∈ as.map f, IsClean p := by
  intro p hp
  obtain ⟨a, ha, rfl⟩ := List.mem_map.1 hp
  exact (h a ha).toIsClean

/-- A symbol in front of texts in parentheses. -/
theorem isWhole_applied {kind : SymbolKind} (x : Symbol kind) {ps : List (List Char)}
    (hps : ∀ p ∈ ps, IsClean p) : IsWhole (oneLine x.written ps) :=
  isWhole_oneLine (isWhole_symbol x).toIsClean hps

theorem isWhole_term (t : Term) : IsWhole (spelling t) := by
  induction t using Term.induction with
  | name n => exact isWhole_symbol n
  | var v => exact isWhole_symbol v
  | apply f ts ih =>
    rw [Term.spelling_apply]
    exact isWhole_applied f (isClean_map ih)

theorem isWhole_groundTerm (t : GroundTerm) : IsWhole (spelling t) :=
  isWhole_applied t.symbol (isClean_map fun n _ => isWhole_symbol n)

theorem isWhole_fluent (f : Fluent) : IsWhole (spelling f) :=
  isWhole_applied f.symbol (isClean_map fun t _ => isWhole_term t)

section

variable {τ : Type} [ToNode τ] [Spelled τ] (hτ : ∀ t : τ, IsWhole (spelling t))

include hτ

theorem isWhole_atomicFormula (f : AtomicFormula τ) : IsWhole (spelling f) := by
  cases f with
  | equality l r =>
    refine isWhole_oneLine (isClean_of_all (by decide)) ?_
    simpa using ⟨(hτ l).toIsClean, (hτ r).toIsClean⟩
  | predicate p ts => exact isWhole_applied p (isClean_map fun t _ => hτ t)

theorem isWhole_literal (l : Literal τ) : IsWhole (spelling l) := by
  obtain ⟨f, negated⟩ := l
  cases negated with
  | true =>
    refine isWhole_oneLine (isClean_of_all (by decide)) ?_
    simpa using (isWhole_atomicFormula hτ f).toIsClean
  | false => exact isWhole_atomicFormula hτ f

end

theorem isWhole_expression {ρ : Type} [ToNode ρ] [Spelled ρ] {R : ρ → Prop}
    (hρ : ∀ r : ρ, IsWhole (spelling r)) {e : Expression ρ} (he : e.IsRegular R) :
    IsWhole (spelling e) := by
  induction he with
  | number h => exact isWhole_number h
  | reference => exact hρ _
  | binary op _ _ hl hr =>
    refine isWhole_oneLine (isClean_keyword (by decide) op) ?_
    simpa using ⟨hl.toIsClean, hr.toIsClean⟩
  | @variadic op e es _ _ _ ih ihs =>
    rw [Expression.spelling_variadic]
    exact isWhole_oneLine (isClean_keyword (by decide) op)
      (isClean_map (List.forall_mem_cons.2 ⟨ih, ihs⟩))
  | negative _ ih =>
    exact isWhole_oneLine (isClean_of_all (by decide)) (List.forall_mem_singleton.2 ih.toIsClean)

theorem isWhole_durativeReference (r : DurativeReference) : IsWhole (spelling r) := by
  cases r with
  | duration => exact isWhole_of_all (by decide)
  | fluent f => exact isWhole_fluent f

theorem isWhole_metricReference (r : MetricReference) : IsWhole (spelling r) := by
  cases r with
  | totalTime => exact isWhole_of_all (by decide)
  | violation p =>
    refine isWhole_oneLine (isClean_of_all (by decide)) ?_
    simpa using (isWhole_symbol p).toIsClean
  | function f ns => exact isWhole_applied f (isClean_map fun n _ => isWhole_symbol n)

namespace Rule

open Grammar

variable {α : Type} {text : List Char} {levels : Nat} {g : Rule α}

theorem rereads_symbol {kind : SymbolKind} (x : Symbol kind) : Rereads (symbol kind) (toNode x) :=
  rereads_of_recovers (recovers_symbol x) (isWhole_symbol x)

theorem rereads_keyword {ω : Type} [Vocabulary ω] [PlainVocabulary ω]
    (h : ∀ a ∈ (Vocabulary.members : List ω),
      ((Vocabulary.keyword a).toList.all fun c => isPlain c && c != '\r' && !c.isDigit) = true)
    (a : ω) : Rereads (keyword ω) (.keyword (Vocabulary.title ω) (Vocabulary.keyword a)) :=
  ⟨_, Spelled.render_toNode a, isWhole_of_all (h a (Vocabulary.complete a)),
    (recovers_keyword a).mono fun _ _ => trivial⟩

theorem rereads_fluent (f : Fluent) : Rereads fluent (toNode f) :=
  rereads_of_recovers (recovers_fluent f) (isWhole_fluent f)

theorem rereads_atomicFormula (f : AtomicFormula Term) : Rereads atomicFormula (toNode f) :=
  rereads_of_recovers
    (recovers_atomicFormulaOf recovers_term (fun _ => misses_close_term) f)
    (isWhole_atomicFormula isWhole_term f)

theorem rereads_groundLiteral (l : Literal Name) : Rereads groundLiteral (toNode l) :=
  rereads_of_recovers (recovers_groundLiteral l) (isWhole_literal isWhole_symbol l)

theorem Finds.rereads_number {x : Number} (h : Finds Grammar.number text levels x) :
    Rereads Grammar.number (toNode x) :=
  rereads_of_recovers (recovers_number h.number) (isWhole_number h.number)

theorem Finds.rereads_expression {e : NumericExpression} (h : Finds Rule.expression text levels e) :
    Rereads Rule.expression (toNode e) :=
  rereads_of_recovers (recovers_expression h.expression)
    (isWhole_expression isWhole_fluent h.expression)

theorem Finds.rereads_durativeExpression {e : DurativeExpression}
    (h : Finds Rule.durativeExpression text levels e) : Rereads Rule.durativeExpression (toNode e) :=
  rereads_of_recovers (recovers_durativeExpression h.durativeExpression)
    (isWhole_expression isWhole_durativeReference h.durativeExpression)

theorem Finds.rereads_metricExpression {e : MetricExpression}
    (h : Finds Rule.metricExpression text levels e) : Rereads Rule.metricExpression (toNode e) :=
  rereads_of_recovers (recovers_metricExpression h.metricExpression)
    (isWhole_expression isWhole_metricReference h.metricExpression)

/-- What holds of constructs holds of the nodes that they become one by one. -/
theorem forall_mem_nodes {γ : Type} [ToNode γ] (toNodes : List γ → List Node) {as : List γ}
    (hnil : toNodes [] = []) (hcons : ∀ a as, toNodes (a :: as) = toNode a :: toNodes as)
    (h : ∀ a ∈ as, g.Rereads (toNode a)) : ∀ n ∈ toNodes as, g.Rereads n := by
  rw [eq_map_of_cons hnil hcons]
  exact List.forall_mem_map.2 h

/-! ### Goals and preconditions -/

theorem Finds.rereads_comparison {c : Comparison} (h : Finds Rule.comparison text levels c) :
    Rereads Rule.comparison (toNode c) := by
  obtain ⟨⟨c, l, r⟩, hx, rfl⟩ := h.map
  obtain ⟨-, hl, hr⟩ := hx.parens.pair.imp_right Finds.pair
  exact (rereads_operation rfl (isClean_keyword (by decide) c)
    (hl.rereads_expression.pair hr.rereads_expression.one)).map

theorem takesForms_literal : TakesForms literal :=
  takesForms_map.1 ((takesForms_production (n := .goal) rfl).alternative (i := 7) rfl)

theorem rereads_literal (l : Literal Term) : Rereads literal (toNode l) := by
  obtain ⟨f, negated⟩ := l
  obtain ⟨hs, hread⟩ := (rereads_atomicFormula f).spelling
  cases negated with
  | true =>
    have hnot : Rereads (form "not" atomicFormula) (toNode (⟨f, true⟩ : Literal Term)) :=
      ⟨_, Spelled.render_toNode _, isWhole_literal isWhole_term _,
        recovers_form isHead_not (.one isGap_blank hread)⟩
    exact hnot.map.alternative (i := 0) takesForms_literal rfl
  | false =>
    have hf : Rereads atomicFormula (toNode (⟨f, false⟩ : Literal Term)) :=
      ⟨_, Spelled.render_toNode _, hs, hread⟩
    exact hf.map.alternative (i := 1) takesForms_literal rfl

theorem Finds.rereads_goal {g : Goal} (h : Finds Rule.goal text levels g) :
    Rereads Rule.goal (toNode g) := by
  refine Finds.call_induction (P := fun g => Rereads Rule.goal (toNode g)) (fun k ih _ h => ?_) h
  rcases h.orElse with h | h
  · -- conjunctions
    obtain ⟨gs, hx, rfl⟩ := h.map
    have hgs := forall_mem_nodes Goal.toNodes rfl (fun _ _ => rfl) fun g hg => ih (hx.form.many g hg)
    exact .callAlternative 0 rfl rfl
      (rereads_all rfl (isTitle (by decide)) (rereadsParts_many hgs misses_close_goal)).map
  rcases h.orElse with h | h
  · -- disjunctions
    obtain ⟨gs, hx, rfl⟩ := h.map
    have hgs := forall_mem_nodes Goal.toNodes rfl (fun _ _ => rfl) fun g hg => ih (hx.form.many g hg)
    exact .callAlternative 1 rfl rfl
      (rereads_all rfl (isTitle (by decide)) (rereadsParts_many hgs misses_close_goal)).map
  rcases h.orElse with h | h
  · -- negations
    obtain ⟨g, hx, rfl⟩ := h.map
    exact .callAlternative 2 rfl rfl (rereads_plain rfl (isTitle (by decide)) (ih hx.form).one).map
  rcases h.orElse with h | h
  · -- implications
    obtain ⟨⟨p, c⟩, hx, rfl⟩ := h.map
    obtain ⟨hp, hc⟩ := hx.form.pair
    exact .callAlternative 3 rfl rfl
      (rereads_plain rfl (isTitle (by decide)) ((ih hp).pair (ih hc).one)).map
  rcases h.orElse with h | h
  · -- existential goals
    obtain ⟨⟨vs, g⟩, hx, rfl⟩ := h.map
    obtain ⟨hvs, hg⟩ := hx.quantified
    exact .callAlternative 4 rfl rfl
      (rereads_quantified rfl (isTitle (by decide)) hvs.parameters (ih hg)).map
  rcases h.orElse with h | h
  · -- universal goals
    obtain ⟨⟨vs, g⟩, hx, rfl⟩ := h.map
    obtain ⟨hvs, hg⟩ := hx.quantified
    exact .callAlternative 5 rfl rfl
      (rereads_quantified rfl (isTitle (by decide)) hvs.parameters (ih hg)).map
  rcases h.orElse with h | h
  · -- atomic formulas
    obtain ⟨f, -, rfl⟩ := h.map
    exact .callAlternative 6 rfl rfl (rereads_atomicFormula f).map
  rcases h.orElse with h | h
  · -- literals
    obtain ⟨l, -, rfl⟩ := h.map
    exact .callAlternative 7 rfl rfl (rereads_literal l).map
  · -- comparisons
    obtain ⟨c, hc, rfl⟩ := h.map
    exact .callAlternative 8 rfl rfl hc.rereads_comparison.map

theorem takesForms_preferredGoal : TakesForms preferredGoal :=
  takesForms_map.1 ((takesForms_production (n := .preconditions) rfl).alternative (i := 2) rfl)

theorem Finds.rereads_preferredGoal {g : PreferredGoal}
    (h : Finds Rule.preferredGoal text levels g) : Rereads Rule.preferredGoal (toNode g) := by
  rcases h.orElse with h | h
  · -- preferences with a name
    obtain ⟨⟨n, g⟩, hx, rfl⟩ := h.map
    exact (rereads_namedPreference rfl n hx.form.pair.2.rereads_goal).map.alternative (i := 0)
      takesForms_preferredGoal rfl
  rcases h.orElse with h | h
  · -- preferences without one
    obtain ⟨g, hx, rfl⟩ := h.map
    exact (rereads_preference rfl hx.form.rereads_goal).map.alternative (i := 1)
      takesForms_preferredGoal rfl
  · -- goals that must hold
    obtain ⟨g, hx, rfl⟩ := h.map
    exact hx.rereads_goal.map.alternative (i := 2) takesForms_preferredGoal rfl

theorem rereads_preconditions {ps : Preconditions}
    (h : ∀ q ∈ ps.goals, Rereads preconditions (toNode q)) : Rereads preconditions (toNode ps) := by
  have hqs := forall_mem_nodes Precondition.toNodes rfl (fun _ _ => rfl) h
  exact rereads_loneOr (k := .preconditions) rfl (isTitle (by decide)) hqs
    (rereadsParts_many hqs misses_close_preconditions) fun h => .callAlternative 0 rfl rfl h.map

theorem Finds.rereads_precondition {ps : Preconditions}
    (h : Finds Rule.preconditions text levels ps) :
    ∀ q ∈ ps.goals, Rereads Rule.preconditions (toNode q) := by
  refine Finds.call_induction
    (P := fun ps => ∀ q ∈ ps.goals, Rereads Rule.preconditions (toNode q)) (fun k ih _ h => ?_) h
  rcases h.orElse with h | h
  · -- a conjunction adds nothing of its own: its members are preconditions already
    obtain ⟨pss, hx, rfl⟩ := h.map
    intro q hq
    obtain ⟨ps, hps, hq⟩ := List.mem_flatMap.1 hq
    exact ih (hx.form.many ps hps) q hq
  rcases h.orElse with h | h
  · -- universal preconditions
    obtain ⟨⟨vs, ps⟩, hx, rfl⟩ := h.map
    obtain ⟨hvs, hps⟩ := hx.quantified
    exact List.forall_mem_singleton.2 (.callAlternative 1 rfl rfl
      (rereads_quantified rfl (isTitle (by decide)) hvs.parameters
        (rereads_preconditions (ih hps))).map)
  · -- goals and preferences
    obtain ⟨g, hx, rfl⟩ := h.map
    exact List.forall_mem_singleton.2 (.callAlternative 2 rfl rfl hx.rereads_preferredGoal.map)

theorem Finds.rereads_preconditions {ps : Preconditions}
    (h : Finds Rule.preconditions text levels ps) : Rereads Rule.preconditions (toNode ps) :=
  Rule.rereads_preconditions h.rereads_precondition

/-! ### Conditions -/

theorem takesForms_preferredTimedGoal : TakesForms preferredTimedGoal :=
  takesForms_map.1 ((takesForms_production (n := .condition) rfl).alternative (i := 2) rfl)

theorem takesForms_timedGoal : TakesForms timedGoal :=
  takesForms_map.1 (takesForms_preferredTimedGoal.alternative (i := 2) rfl)

theorem Finds.rereads_timedGoal {g : TimedGoal} (h : Finds Rule.timedGoal text levels g) :
    Rereads Rule.timedGoal (toNode g) := by
  rcases h.orElse with h | h
  · -- at a time point
    obtain ⟨⟨t, g⟩, hx, rfl⟩ := h.map
    have hg := hx.form.pair.2.rereads_goal
    exact (rereads_plain rfl (isTitle (by decide))
      ((rereads_keyword (by decide) t).pair hg.one)).map.alternative (i := 0) takesForms_timedGoal rfl
  · -- over an interval
    obtain ⟨⟨i, g⟩, hx, rfl⟩ := h.map
    have hg := hx.form.pair.2.rereads_goal
    exact (rereads_plain rfl (isTitle (by decide))
      ((rereads_keyword (by decide) i).pair hg.one)).map.alternative (i := 1) takesForms_timedGoal rfl

theorem Finds.rereads_preferredTimedGoal {g : PreferredTimedGoal}
    (h : Finds Rule.preferredTimedGoal text levels g) :
    Rereads Rule.preferredTimedGoal (toNode g) := by
  rcases h.orElse with h | h
  · -- preferences with a name
    obtain ⟨⟨n, g⟩, hx, rfl⟩ := h.map
    exact (rereads_namedPreference rfl n hx.form.pair.2.rereads_timedGoal).map.alternative (i := 0)
      takesForms_preferredTimedGoal rfl
  rcases h.orElse with h | h
  · -- preferences without one
    obtain ⟨g, hx, rfl⟩ := h.map
    exact (rereads_preference rfl hx.form.rereads_timedGoal).map.alternative (i := 1)
      takesForms_preferredTimedGoal rfl
  · -- goals that must hold
    obtain ⟨g, hx, rfl⟩ := h.map
    exact hx.rereads_timedGoal.map.alternative (i := 2) takesForms_preferredTimedGoal rfl

theorem Finds.rereads_condition {c : Condition} (h : Finds Rule.condition text levels c) :
    Rereads Rule.condition (toNode c) := by
  refine Finds.call_induction (P := fun c => Rereads Rule.condition (toNode c))
    (fun k ih _ h => ?_) h
  rcases h.orElse with h | h
  · -- universal conditions
    obtain ⟨⟨vs, c⟩, hx, rfl⟩ := h.map
    obtain ⟨hvs, hc⟩ := hx.quantified
    exact .callAlternative 0 rfl rfl
      (rereads_quantified rfl (isTitle (by decide)) hvs.parameters (ih hc)).map
  rcases h.orElse with h | h
  · -- conjunctions
    obtain ⟨cs, hx, rfl⟩ := h.map
    have hcs := forall_mem_nodes Condition.toNodes rfl (fun _ _ => rfl)
      fun c hc => ih (hx.form.many c hc)
    exact .callAlternative 1 rfl rfl
      (rereads_all rfl (isTitle (by decide)) (rereadsParts_many hcs fun _ => misses_close rfl)).map
  · -- goals and preferences
    obtain ⟨g, hx, rfl⟩ := h.map
    exact .callAlternative 2 rfl rfl hx.rereads_preferredTimedGoal.map

/-! ### Effects -/

theorem takesForms_primitiveEffect : TakesForms primitiveEffect :=
  takesForms_map.1 ((takesForms_production (n := .effect) rfl).alternative (i := 2) rfl)

theorem takesForms_consequent : TakesForms consequent :=
  ⟨rfl, by decide, flagFree_consequent, safe_consequent⟩

/-- An object fluent that changes, or becomes undefined. -/
theorem rereads_assignObject (f : FunctionTerm) (t? : Option Term) :
    Rereads primitiveEffect (toNode (PrimitiveEffect.assignObject f t?)) := by
  have hterm : ∀ t : Term, toNode t ≠ .absent := by
    rintro (n | v | ⟨f, ts⟩) ⟨⟩
  have hf := words_field_toNode (f := [toNode f, toNode t?]) (i := 0) (a := f) rfl
  have hvalue := words_givenOr (f := [toNode f, toNode t?]) (i := 1) (w := "undefined") rfl hterm
  cases t? with
  | none =>
    refine (rereads_form rfl (isTitle (by decide)) (.cons hf (.cons hvalue .nil)) ?_ ?_).map.alternative
      (i := 0) takesForms_primitiveEffect rfl
    · exact List.forall_mem_cons.2 ⟨(isWhole_term f.toTerm).toIsClean,
        List.forall_mem_singleton.2 (isClean_of_all (by decide))⟩
    · exact (ReadsParts.pair (recovers_functionTerm f)
        (.one isGap_blank (recovers_word (by decide)))).mono fun _ _ => trivial
  | some t =>
    refine (rereads_form rfl (isTitle (by decide)) (.cons hf (.cons hvalue .nil)) ?_ ?_).map.alternative
      (i := 2) takesForms_primitiveEffect rfl
    · exact List.forall_mem_cons.2 ⟨(isWhole_term f.toTerm).toIsClean,
        List.forall_mem_singleton.2 (isWhole_term t).toIsClean⟩
    · exact (ReadsParts.pair (recovers_functionTerm f)
        (.one isGap_blank (recovers_term t))).mono fun _ _ => trivial

theorem Finds.rereads_primitiveEffect {e : PrimitiveEffect}
    (h : Finds Rule.primitiveEffect text levels e) : Rereads Rule.primitiveEffect (toNode e) := by
  rcases h.orElse with h | h
  · -- object fluents that become undefined
    obtain ⟨⟨f, _⟩, -, rfl⟩ := h.map
    exact rereads_assignObject f none
  rcases h.orElse with h | h
  · -- numeric fluents
    obtain ⟨⟨op, f, e⟩, hx, rfl⟩ := h.map
    have he := hx.parens.pair.2.pair.2.rereads_expression
    exact (rereads_operation rfl (isClean_keyword (by decide) op)
      ((rereads_fluent f).pair he.one)).map.alternative (i := 1) takesForms_primitiveEffect rfl
  rcases h.orElse with h | h
  · -- object fluents that change
    obtain ⟨⟨f, t⟩, -, rfl⟩ := h.map
    exact rereads_assignObject f (some t)
  rcases h.orElse with h | h
  · -- deletions
    obtain ⟨f, -, rfl⟩ := h.map
    exact (rereads_plain rfl (isTitle (by decide)) (rereads_atomicFormula f).one).map.alternative
      (i := 3) takesForms_primitiveEffect rfl
  · -- additions
    obtain ⟨f, -, rfl⟩ := h.map
    exact (rereads_self rfl (rereads_atomicFormula f)).map.alternative (i := 4)
      takesForms_primitiveEffect rfl

theorem rereads_consequent {c : Consequent}
    (h : ∀ e ∈ c.effects, Rereads primitiveEffect (toNode e)) :
    Rereads consequent (toNode c) := by
  have hes := List.forall_mem_map.2 h
  refine rereads_loneOr (k := .consequent) rfl (isTitle (by decide)) ?_
    (rereadsParts_many hes fun _ => misses_close rfl)
    fun h => h.map.alternative (i := 0) takesForms_consequent rfl
  exact fun n hn => (hes n hn).map.alternative (i := 1) takesForms_consequent rfl

theorem Finds.rereads_consequent {c : Consequent} (h : Finds Rule.consequent text levels c) :
    Rereads Rule.consequent (toNode c) := by
  rcases h.orElse with h | h
  · -- several effects
    obtain ⟨es, hx, rfl⟩ := h.map
    exact Rule.rereads_consequent fun e he => (hx.form.many e he).rereads_primitiveEffect
  · -- one effect
    obtain ⟨e, hx, rfl⟩ := h.map
    exact Rule.rereads_consequent (List.forall_mem_singleton.2 hx.rereads_primitiveEffect)

theorem rereads_effects {es : Effects} (h : ∀ e ∈ es.effects, Rereads effect (toNode e)) :
    Rereads effects (toNode es) := by
  have hes := forall_mem_nodes Effect.toNodes rfl (fun _ _ => rfl) h
  exact rereads_loneOr (k := .effects) rfl (isTitle (by decide))
    (fun n hn => .callAlternative 1 rfl rfl (hes n hn).map)
    (rereadsParts_many hes fun _ => misses_close rfl) fun h => .callAlternative 0 rfl rfl h.map

/-- The effects of a quantified effect are found two levels deeper. -/
theorem Finds.rereads_effect {e : Effect} (h : Finds Rule.effect text levels e) :
    Rereads Rule.effect (toNode e) := by
  induction levels using Nat.strong_induction_on generalizing e with
  | _ levels ih =>
    obtain ⟨k, rfl, h⟩ := h.call
    rcases h.orElse with h | h
    · obtain ⟨⟨vs, es⟩, hx, rfl⟩ := h.map
      obtain ⟨hvs, hes⟩ := hx.quantified
      obtain ⟨j, rfl, hes⟩ := hes.call
      have hes : ∀ e ∈ es.effects, Rereads Rule.effect (toNode e) := by
        rcases hes.orElse with h | h
        · obtain ⟨es, hy, rfl⟩ := h.map
          exact fun e he => ih j (by omega) (hy.form.many e he)
        · obtain ⟨e, hy, rfl⟩ := h.map
          exact List.forall_mem_singleton.2 (ih j (by omega) hy)
      exact .callAlternative 0 rfl rfl
        (rereads_quantified rfl (isTitle (by decide)) hvs.parameters (rereads_effects hes)).map
    rcases h.orElse with h | h
    · obtain ⟨⟨g, c⟩, hx, rfl⟩ := h.map
      obtain ⟨hg, hc⟩ := hx.form.pair
      exact .callAlternative 1 rfl rfl (rereads_plain rfl (isTitle (by decide))
        (hg.rereads_goal.pair hc.rereads_consequent.one)).map
    · obtain ⟨e, hx, rfl⟩ := h.map
      exact .callAlternative 2 rfl rfl hx.rereads_primitiveEffect.map

theorem Finds.rereads_effects {es : Effects} (h : Finds Rule.effects text levels es) :
    Rereads Rule.effects (toNode es) := by
  obtain ⟨k, rfl, h⟩ := h.call
  rcases h.orElse with h | h
  · -- several effects
    obtain ⟨es, hx, rfl⟩ := h.map
    exact Rule.rereads_effects fun e he => (hx.form.many e he).rereads_effect
  · -- one effect
    obtain ⟨e, hx, rfl⟩ := h.map
    exact Rule.rereads_effects (List.forall_mem_singleton.2 hx.rereads_effect)

/-! ### Effects of durative actions -/

/-- The elapsed time, scaled by what can be written. -/
theorem render_scaledRate {n : Node} {s : List Char} (hn : n.render = .ok (String.ofList s)) :
    (Node.form .rate [n]).render = .ok (String.ofList (oneLine "*" ["#t".toList, s])) := by
  have habsent : n.rendering.isAbsent = false := by
    rw [Bool.eq_false_iff, Ne, isAbsent_rendering]
    rintro rfl
    cases hn
  have hform := formText_eq "*" (.cons (words_word (f := [n]) "#t")
    (.cons (words_field (i := 0) rfl hn) .nil))
  rw [Node.render, Node.rendering, Node.renderings_eq_map, Kind.layout, Layout.rendering, text_inline]
  show (if n.rendering.isAbsent then _ else _) = _
  rw [habsent]
  exact hform

theorem Finds.rereads_rate {r : Rate} (h : Finds Rule.rate text levels r) :
    Rereads Rule.rate (toNode r) := by
  rcases h.orElse with h | h
  · obtain ⟨e, hx, rfl⟩ := h.map
    have he : Finds Rule.expression text levels e := by
      rcases hx.form.orElse with h | h
      · obtain ⟨p, hp, rfl⟩ := h.map
        exact hp.pair.2
      · obtain ⟨p, hp, rfl⟩ := h.map
        exact hp.pair.1
    obtain ⟨s, hs, hwhole, hread⟩ := he.rereads_expression
    refine Rereads.left (Rereads.map ⟨oneLine "*" ["#t".toList, s], render_scaledRate hs, ?_, ?_⟩)
    · exact isWhole_oneLine (isClean_of_all (by decide)) (List.forall_mem_cons.2
        ⟨isClean_of_all (by decide), List.forall_mem_singleton.2 hwhole.toIsClean⟩)
    · have hparts : ReadsParts (Grammar.pair elapsed Rule.expression) [' '] ["#t".toList, s]
          fun _ => True :=
        (ReadsParts.pair (recovers_word (by decide)) (.one isGap_blank hread)).mono
          fun _ _ => trivial
      exact recovers_form (isHead_of_isWord (by decide)) (.left (hparts.map fun _ _ => trivial))
  · obtain ⟨_, -, rfl⟩ := h.map
    have hword : elapsed.Recovers "#t".toList fun _ => True := recovers_word (by decide)
    refine ⟨"#t".toList, rfl, isWhole_of_all (by decide), .behind ?_ (hword.map fun _ _ => trivial)⟩
    exact missesText_of_opens rfl hword.solid (by decide)

theorem Finds.rereads_durativeAssignment {a : DurativeAssignment}
    (h : Finds Rule.durativeAssignment text levels a) :
    Rereads Rule.durativeAssignment (toNode a) := by
  obtain ⟨⟨op, f, e⟩, hx, rfl⟩ := h.map
  have he := hx.parens.pair.2.pair.2.rereads_durativeExpression
  exact (rereads_operation rfl (isClean_keyword (by decide) op)
    ((rereads_fluent f).pair he.one)).map

theorem takesForms_timedEffect : TakesForms timedEffect :=
  takesForms_map.1 ((takesForms_production (n := .durativeEffect) rfl).alternative (i := 3) rfl)

theorem Finds.rereads_timedEffect {e : TimedEffect} (h : Finds Rule.timedEffect text levels e) :
    Rereads Rule.timedEffect (toNode e) := by
  rcases h.orElse with h | h
  · -- assignments that may depend on the duration
    obtain ⟨⟨t, a⟩, hx, rfl⟩ := h.map
    have ha := hx.form.pair.2.rereads_durativeAssignment
    exact (rereads_plain rfl (isTitle (by decide))
      ((rereads_keyword (by decide) t).pair ha.one)).map.alternative (i := 0)
      takesForms_timedEffect rfl
  rcases h.orElse with h | h
  · -- effects at a time point
    obtain ⟨⟨t, c⟩, hx, rfl⟩ := h.map
    have hc := hx.form.pair.2.rereads_consequent
    exact (rereads_plain rfl (isTitle (by decide))
      ((rereads_keyword (by decide) t).pair hc.one)).map.alternative (i := 1)
      takesForms_timedEffect rfl
  · -- continuous changes
    obtain ⟨⟨op, f, r⟩, hx, rfl⟩ := h.map
    have hr := hx.parens.pair.2.pair.2.rereads_rate
    exact (rereads_operation rfl (isClean_keyword (by decide) op)
      ((rereads_fluent f).pair hr.one)).map.alternative (i := 2) takesForms_timedEffect rfl

theorem Finds.rereads_durativeEffect {e : DurativeEffect}
    (h : Finds Rule.durativeEffect text levels e) : Rereads Rule.durativeEffect (toNode e) := by
  refine Finds.call_induction (P := fun e => Rereads Rule.durativeEffect (toNode e))
    (fun k ih _ h => ?_) h
  rcases h.orElse with h | h
  · -- conjunctions
    obtain ⟨es, hx, rfl⟩ := h.map
    have hes := forall_mem_nodes DurativeEffect.toNodes rfl (fun _ _ => rfl)
      fun e he => ih (hx.form.many e he)
    exact .callAlternative 0 rfl rfl
      (rereads_all rfl (isTitle (by decide)) (rereadsParts_many hes fun _ => misses_close rfl)).map
  rcases h.orElse with h | h
  · -- universal effects
    obtain ⟨⟨vs, e⟩, hx, rfl⟩ := h.map
    obtain ⟨hvs, he⟩ := hx.quantified
    exact .callAlternative 1 rfl rfl
      (rereads_quantified rfl (isTitle (by decide)) hvs.parameters (ih he)).map
  rcases h.orElse with h | h
  · -- conditional effects
    obtain ⟨⟨c, e⟩, hx, rfl⟩ := h.map
    obtain ⟨hc, he⟩ := hx.form.pair
    exact .callAlternative 2 rfl rfl (rereads_plain rfl (isTitle (by decide))
      (hc.rereads_condition.pair he.rereads_timedEffect.one)).map
  · -- effects at their time
    obtain ⟨e, hx, rfl⟩ := h.map
    exact .callAlternative 3 rfl rfl hx.rereads_timedEffect.map

/-! ### Durations -/

theorem Finds.rereads_durationValue {e : NumericExpression}
    (h : Finds Rule.durationValue text levels e) : Rereads Rule.durationValue (toNode e) := by
  have he : Rereads Rule.expression (toNode e) ∧ e.IsRegular := by
    rcases h.orElse with h | h
    · obtain ⟨x, hx, rfl⟩ := h.map
      have hregular : NumericExpression.IsRegular (.number x) := .number hx.number
      exact ⟨rereads_of_recovers (recovers_expression hregular)
        (isWhole_expression isWhole_fluent hregular), hregular⟩
    · exact ⟨h.rereads_expression, h.expression⟩
  obtain ⟨⟨s, hs, hwhole, hread⟩, hregular⟩ := he
  -- every expression but a number is written in parentheses
  have hform : ∀ {head parts}, spelling e = oneLine head parts →
      Rereads Rule.durationValue (toNode e) := by
    intro head parts hspelling
    refine ⟨s, hs, hwhole, .behind (MissesText.map ?_) hread⟩
    rw [Spelled.render_toNode, Except.ok.injEq, String.ofList_inj, hspelling] at hs
    exact hs ▸ misses_number_oneLine parts
  cases hregular with
  | @number x hx =>
    have hnumber : Rereads Grammar.number (toNode x) :=
      rereads_of_recovers (recovers_number hx) (isWhole_number hx)
    exact hnumber.map.left
  | reference => exact hform rfl
  | binary => exact hform rfl
  | variadic => exact hform rfl
  | negative => exact hform rfl

theorem Finds.rereads_durationBound {b : DurationBound}
    (h : Finds Rule.durationBound text levels b) : Rereads Rule.durationBound (toNode b) := by
  refine Finds.call_induction (P := fun b => Rereads Rule.durationBound (toNode b))
    (fun k ih _ h => ?_) h
  rcases h.orElse with h | h
  · obtain ⟨⟨c, _, e⟩, hx, rfl⟩ := h.map
    obtain ⟨s, hs, hwhole, hread⟩ := hx.parens.pair.2.pair.2.rereads_durationValue
    have hrender := Node.render_form (k := .durationBound) (f := [toNode c, toNode e]) rfl
      (.cons (words_word "?duration") (.cons (words_field (i := 1) rfl hs) .nil))
    rw [head_keyword (x := c) rfl] at hrender
    refine .callAlternative 0 rfl rfl (Rereads.map ⟨_, hrender, ?_, ?_⟩)
    · exact isWhole_oneLine (isClean_keyword (by decide) c) (List.forall_mem_cons.2
        ⟨isClean_of_all (by decide), List.forall_mem_singleton.2 hwhole.toIsClean⟩)
    · exact (recovers_pair (recovers_keyword c)
        (.pair (recovers_word (by decide)) (.one isGap_blank hread))).mono fun _ _ => trivial
  · obtain ⟨⟨t, b⟩, hx, rfl⟩ := h.map
    exact .callAlternative 1 rfl rfl (rereads_plain rfl (isTitle (by decide))
      ((rereads_keyword (by decide) t).pair (ih hx.form.pair.2).one)).map

/-- What is no pair of empty parentheses is taken for what it is. -/
theorem Recovers.emptyOr {s : List Char} {P : α → Prop} (hs : IsWhole s) (hg : g.Recovers s P) :
    Recovers (.emptyOr g) s fun _ => True := by
  refine ⟨hg.solid, fun {r} hr levels b => ?_⟩
  show (Reader.emptyOr (g.look levels) ⟨b, s ++ r⟩).Leaves r _
  have hpart : ((g.look levels ⟨b, s ++ r⟩).andThen fun w a => Finding.found w (some a)).Leaves r
      fun _ => True :=
    (hg.reads hr levels b).andThen fun _ _ _ => Finding.leaves_found trivial
  unfold Reader.emptyOr
  by_cases hopen : s.head? = some '('
  · obtain ⟨happend, hempty⟩ := Reader.emptyParensLength?_append (φ := .before) rfl (hs.form hopen) r
    rw [happend]
    rcases hn : emptyParensLength? s with _ | n
    · exact hpart
    · -- the empty parentheses are all of the form
      obtain ⟨hle, hdrop, -⟩ := hempty n hn
      obtain hdrop : s.drop n = [] := hdrop
      have hrest : (View.advance ⟨b, s ++ r⟩ n).rest = r := by
        rw [View.rest_advance, List.drop_append_of_le_length hle, hdrop, List.nil_append]
      show (Finding.found (View.advance ⟨b, s ++ r⟩ n) none).Leaves r _
      rcases hv : View.advance ⟨b, s ++ r⟩ n with ⟨b', rest⟩
      rw [hv] at hrest
      obtain rfl : rest = r := hrest
      exact Finding.leaves_found trivial
  · have hhead : (s ++ r).head? ≠ some '(' := by
      obtain ⟨c, cs, rfl, -⟩ := hg.solid
      exact hopen
    rw [emptyParensLength?_of_head? hhead]
    exact hpart

theorem Rereads.emptyOr {n : Node} : g.Rereads n → Rereads (.emptyOr g) n :=
  fun ⟨s, hn, hs, hg⟩ => ⟨s, hn, hs, hg.emptyOr hs⟩

theorem rereads_durationConstraint {bs : List DurationBound} (hne : bs ≠ [])
    (h : ∀ b ∈ bs, Rereads durationBound (toNode b)) :
    Rereads durationConstraint (toNode (⟨bs⟩ : DurationConstraint)) := by
  have hbound : TakesForms durationBound := takesForms_call rfl
  have hbs : ∀ n ∈ bs.map toNode, Rereads durationBound n := List.forall_mem_map.2 h
  refine Rereads.emptyOr (rereads_loneOr (k := .durationConstraint) rfl (isTitle (by decide))
    (fun n hn => (hbs n hn).map.left) (rereadsParts_many1 hbs ?_ fun _ => misses_close rfl)
    fun h => h.map.behind (takesForms_map.2 hbound))
  simpa using hne

theorem Finds.rereads_durationConstraint {c? : Option DurationConstraint}
    (h : Finds Rule.durationConstraint text levels c?) :
    ∀ c ∈ c?, Rereads Rule.durationConstraint (toNode c) := by
  intro c hc
  rcases (h.emptyOr c hc).orElse with h | h
  · obtain ⟨b, hx, rfl⟩ := h.map
    exact Rule.rereads_durationConstraint (by simp)
      (List.forall_mem_singleton.2 hx.rereads_durationBound)
  · obtain ⟨bs, hx, rfl⟩ := h.map
    exact Rule.rereads_durationConstraint hx.form.many1.1
      fun b hb => (hx.form.many1.2 b hb).rereads_durationBound

/-! ### Trajectories -/

theorem isTitle_atEnd : IsTitle "at end" := ⟨isHead_atEnd, isClean_of_all (by decide)⟩

theorem Finds.rereads_constraint {c : Constraint} (h : Finds Rule.constraint text levels c) :
    Rereads Rule.constraint (toNode c) := by
  refine Finds.call_induction (P := fun c => Rereads Rule.constraint (toNode c))
    (fun k ih c h => ?_) h
  have ho : ∀ {o : Operand}, Finds Rule.operand text k o → Rereads Rule.operand (toNode o) := by
    intro o h
    obtain ⟨g, hg, rfl⟩ | ⟨c, hc, rfl⟩ := h.operand
    · exact .callAlternative 0 rfl rfl hg.rereads_goal.map
    · exact .callAlternative 1 rfl rfl (ih hc).map
  obtain ⟨v, w, hv, h⟩ := h
  have h : ReadsConstraint k v w c := readsConstraint_of_look h
  cases c with
  | conj cs =>
    have hcs := (Finds.form ⟨v, w, hv, h⟩).many
    have hcs := forall_mem_nodes Constraint.toNodes rfl (fun _ _ => rfl) fun c hc => ih (hcs c hc)
    exact .callAlternative 0 rfl rfl
      (rereads_all rfl (isTitle (by decide)) (rereadsParts_many hcs fun _ => misses_close rfl)).map
  | universal vs c =>
    obtain ⟨hvs, hc⟩ := Finds.quantified ⟨v, w, hv, h⟩
    exact .callAlternative 1 rfl rfl
      (rereads_quantified rfl (isTitle (by decide)) hvs.parameters (ih hc)).map
  | atEnd g =>
    have hg := (Finds.form ⟨v, w, hv, h⟩).rereads_goal
    exact .callAlternative 2 rfl rfl (rereads_plain rfl isTitle_atEnd hg.one).map
  | always o =>
    have ho := ho (Finds.form ⟨v, w, hv, h⟩)
    exact .callAlternative 3 rfl rfl (rereads_plain rfl (isTitle (by decide)) ho.one).map
  | sometime o =>
    have ho := ho (Finds.form ⟨v, w, hv, h⟩)
    exact .callAlternative 4 rfl rfl (rereads_plain rfl (isTitle (by decide)) ho.one).map
  | within x o =>
    obtain ⟨hx, hfound⟩ := (Finds.form ⟨v, w, hv, h⟩).pair
    exact .callAlternative 5 rfl rfl (rereads_plain rfl (isTitle (by decide))
      (hx.rereads_number.pair (ho hfound).one)).map
  | atMostOnce o =>
    have ho := ho (Finds.form ⟨v, w, hv, h⟩)
    exact .callAlternative 6 rfl rfl (rereads_plain rfl (isTitle (by decide)) ho.one).map
  | sometimeAfter o p =>
    obtain ⟨hfirst, hsecond⟩ := (Finds.form ⟨v, w, hv, h⟩).pair
    exact .callAlternative 7 rfl rfl (rereads_plain rfl (isTitle (by decide))
      ((ho hfirst).pair (ho hsecond).one)).map
  | sometimeBefore o p =>
    obtain ⟨hfirst, hsecond⟩ := (Finds.form ⟨v, w, hv, h⟩).pair
    exact .callAlternative 8 rfl rfl (rereads_plain rfl (isTitle (by decide))
      ((ho hfirst).pair (ho hsecond).one)).map
  | alwaysWithin x o p =>
    obtain ⟨hx, hfound⟩ := (Finds.form ⟨v, w, hv, h⟩).pair
    obtain ⟨hfirst, hsecond⟩ := hfound.pair
    exact .callAlternative 9 rfl rfl (rereads_plain rfl (isTitle (by decide))
      (hx.rereads_number.pair ((ho hfirst).pair (ho hsecond).one))).map
  | holdDuring x y o =>
    obtain ⟨hx, hfound⟩ := (Finds.form ⟨v, w, hv, h⟩).pair
    obtain ⟨hy, hfound⟩ := hfound.pair
    exact .callAlternative 10 rfl rfl (rereads_plain rfl (isTitle (by decide))
      (hx.rereads_number.pair (hy.rereads_number.pair (ho hfound).one))).map
  | holdAfter x o =>
    obtain ⟨hx, hfound⟩ := (Finds.form ⟨v, w, hv, h⟩).pair
    exact .callAlternative 11 rfl rfl (rereads_plain rfl (isTitle (by decide))
      (hx.rereads_number.pair (ho hfound).one)).map

theorem Finds.rereads_preferredConstraint {c : PreferredConstraint}
    (h : Finds Rule.preferredConstraint text levels c) :
    Rereads Rule.preferredConstraint (toNode c) := by
  refine Finds.call_induction (P := fun c => Rereads Rule.preferredConstraint (toNode c))
    (fun k ih _ h => ?_) h
  rcases h.orElse with h | h
  · -- conjunctions
    obtain ⟨cs, hx, rfl⟩ := h.map
    have hcs := forall_mem_nodes PreferredConstraint.toNodes rfl (fun _ _ => rfl)
      fun c hc => ih (hx.form.many c hc)
    exact .callAlternative 0 rfl rfl
      (rereads_all rfl (isTitle (by decide)) (rereadsParts_many hcs fun _ => misses_close rfl)).map
  rcases h.orElse with h | h
  · -- universal constraints
    obtain ⟨⟨vs, c⟩, hx, rfl⟩ := h.map
    obtain ⟨hvs, hc⟩ := hx.quantified
    exact .callAlternative 1 rfl rfl
      (rereads_quantified rfl (isTitle (by decide)) hvs.parameters (ih hc)).map
  rcases h.orElse with h | h
  · -- preferences with a name
    obtain ⟨⟨n, c⟩, hx, rfl⟩ := h.map
    exact .callAlternative 2 rfl rfl
      (rereads_namedPreference rfl n hx.form.pair.2.rereads_constraint).map
  rcases h.orElse with h | h
  · -- preferences without one
    obtain ⟨c, hx, rfl⟩ := h.map
    exact .callAlternative 3 rfl rfl (rereads_preference rfl hx.form.rereads_constraint).map
  · -- constraints that must hold
    obtain ⟨c, hx, rfl⟩ := h.map
    exact .callAlternative 4 rfl rfl hx.rereads_constraint.map

/-! ### Declarations and initial facts -/

/-- A declared symbol with its variables. -/
theorem rereads_declared {kind : SymbolKind} (hkind : kind.sigil = "") {k : Kind}
    (hk : k.layout = .form (.name 0) [.items 1 .rootType]) (x : Symbol kind)
    {l : TypedList Variable} (hl : l.IsWritable) :
    Rereads (parens (headed (symbol kind) (items (symbol .var)))) (.form k [toNode x, toNode l]) := by
  have hclean := isClean_itemParts (fun v : Variable => (isWhole_symbol v).toIsClean) .object l
  have hitems := readsParts_itemsOf (d := .object) (g := symbol .var) (l := l)
    (fun v _ => takes_symbol v.value) hl misses_var_of_not_begins
  exact ⟨_, Node.render_declared hkind hk x l, isWhole_applied x hclean,
    (recovers_headed (recovers_symbol x) hitems).mono fun _ _ => trivial⟩

theorem Finds.rereads_predicateSkeleton {s : PredicateSkeleton}
    (h : Finds Rule.predicateSkeleton text levels s) :
    Rereads Rule.predicateSkeleton (toNode s) := by
  obtain ⟨⟨p, vs⟩, hx, rfl⟩ := h.map
  obtain ⟨hvs, -⟩ := Finds.itemsOf (d := .object) trivial hx.parens.headed.2
  exact (rereads_declared rfl rfl p hvs).map

theorem takesForms_initialFact : TakesForms initialFact :=
  ⟨rfl, by decide, by simp [initialFact, groundLiteral, groundTerm],
    by simp (disch := decide) [initialFact, groundLiteral, groundTerm]⟩

theorem Finds.rereads_initialFact {f : InitialFact} (h : Finds Rule.initialFact text levels f) :
    Rereads Rule.initialFact (toNode f) := by
  rcases h.orElse with h | h
  · -- literals
    obtain ⟨l, -, rfl⟩ := h.map
    exact (rereads_groundLiteral l).map.alternative (i := 0) takesForms_initialFact rfl
  rcases h.orElse with h | h
  · -- timed literals
    obtain ⟨⟨x, l⟩, hx, rfl⟩ := h.map
    exact (rereads_plain rfl (isTitle (by decide))
      (hx.form.pair.1.rereads_number.pair (rereads_groundLiteral l).one)).map.alternative (i := 1)
      takesForms_initialFact rfl
  have hterm : ∀ t : GroundTerm, Rereads groundTerm (toNode t) := fun t =>
    rereads_of_recovers (recovers_groundTerm t) (isWhole_groundTerm t)
  rcases h.orElse with h | h
  · -- values of numeric fluents
    obtain ⟨⟨t, x⟩, hx, rfl⟩ := h.map
    exact (rereads_plain rfl (isTitle (by decide))
      ((hterm t).pair hx.form.pair.2.rereads_number.one)).map.alternative (i := 2)
      takesForms_initialFact rfl
  · -- values of object fluents
    obtain ⟨⟨t, n⟩, -, rfl⟩ := h.map
    exact (rereads_plain rfl (isTitle (by decide))
      ((hterm t).pair (rereads_symbol n).one)).map.alternative (i := 3) takesForms_initialFact rfl

theorem Finds.rereads_metric {m : Metric} (h : Finds Rule.metric text levels m) :
    Rereads Rule.metric (toNode m) := by
  obtain ⟨⟨o, e⟩, hx, rfl⟩ := h.map
  have he := hx.form.pair.2.rereads_metricExpression
  exact (rereads_plain rfl (isTitle (by decide))
    ((rereads_keyword (by decide) o).pair he.one)).map

end Rule

end Pddl
