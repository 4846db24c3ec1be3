import Pddl.Proofs.EffectTexts
import Pddl.Proofs.Operands

/-!
# Durative actions are read back

The condition of a durative action and the bounds on its duration always come back from their text.
Its effect comes back if all effects in it are distinct.  At a time point more effects look alike than
in an action: a single effect that is written there alone must not look like a change of a numeric
fluent, which is tried first.

* `TimedEffect.IsDistinct`, `DurativeEffect.IsDistinct` : effects that are written like no other
  effect.
* `Rule.Finds.recovers_condition`, `Rule.Finds.recovers_durationConstraint` : conditions and bounds
  that are found are read back.
* `Rule.Finds.recovers_durativeEffect` : **every effect that is found and is distinct is read back.**
* `IsForm` : texts that are no empty parentheses, so that what may be left out is not.
-/

namespace Pddl

/-! ### Texts -/

instance : Spelled TimedGoal where
  spelling
    | .at t g => oneLine "at" [spelling t, spelling g]
    | .over i g => oneLine "over" [spelling i, spelling g]
  render_toNode g := by
    cases g with
    | «at» t g =>
      exact Node.render_plain (k := .goalAt) rfl
        (.cons (Spelled.render_toNode t) (.cons (Spelled.render_toNode g) .nil))
    | «over» i g =>
      exact Node.render_plain (k := .goalOver) rfl
        (.cons (Spelled.render_toNode i) (.cons (Spelled.render_toNode g) .nil))

instance : Spelled PreferredTimedGoal where
  spelling
    | .required g => spelling g
    | .preferred n g => oneLine "preference" (n.toList.map spelling ++ [spelling g])
  render_toNode g := by
    cases g with
    | required g => exact Spelled.render_toNode g
    | preferred n g => exact Node.render_preference (k := .timedPreference) rfl n g

namespace Condition

mutual

/-- The text of a condition. -/
def spelling : Condition → List Char
  | goal g => Pddl.spelling g
  | conj cs => oneLine "and" (spellings cs)
  | universal vs c => oneLine "forall" [enclosedItems vs, c.spelling]

/-- The texts of several conditions. -/
def spellings : List Condition → List (List Char)
  | [] => []
  | c :: cs => c.spelling :: spellings cs

end

theorem spellings_eq_map (cs : List Condition) : spellings cs = cs.map spelling := by
  induction cs with
  | nil => rfl
  | cons c cs ih => rw [spellings, ih, List.map_cons]

mutual

theorem render_toNode : ∀ c : Condition, (toNode c).render = .ok (String.ofList c.spelling)
  | goal g => Spelled.render_toNode g
  | conj cs => Node.render_members (k := .durativeConjunction) rfl (render_toNodes cs)
  | universal vs c => Node.render_quantified (k := .durativeForall) rfl vs (render_toNode c)

theorem render_toNodes : ∀ cs : List Condition,
    List.Forall₂ (fun n w => n.render = .ok (String.ofList w)) (Condition.toNodes cs) (spellings cs)
  | [] => .nil
  | c :: cs => .cons (render_toNode c) (render_toNodes cs)

end

instance : Spelled Condition := ⟨spelling, render_toNode⟩

theorem spelling_conj (cs : List Condition) :
    Pddl.spelling (conj cs) = oneLine "and" (cs.map Pddl.spelling) := by
  rw [← show spellings cs = cs.map Pddl.spelling from spellings_eq_map cs]
  rfl

end Condition

instance : Spelled Rate where
  spelling r := (r.scale.map fun e => oneLine "*" ["#t".toList, spelling e]).getD "#t".toList
  render_toNode r := by
    obtain ⟨e?⟩ := r
    cases e? with
    | none => rfl
    | some e => exact Rule.render_scaledRate (Spelled.render_toNode e)

/-- A form whose head is a word of a vocabulary, with two fields behind it. -/
theorem Node.render_operation {k : Kind} (hk : k.layout = .form (.name 0) [.field 1, .field 2])
    {ω α β : Type} [Vocabulary ω] [ToNode α] [Spelled α] [ToNode β] [Spelled β] (op : ω) (a : α)
    (b : β) : (form k [.keyword (Vocabulary.title ω) (Vocabulary.keyword op), toNode a, toNode b]).render =
      .ok (String.ofList (oneLine (Vocabulary.keyword op) [spelling a, spelling b])) := by
  have h := render_form hk (f := [.keyword (Vocabulary.title ω) (Vocabulary.keyword op), toNode a,
    toNode b]) (.cons (words_field_toNode (i := 1) rfl) (.cons (words_field_toNode (i := 2) rfl) .nil))
  rwa [head_keyword (x := op) rfl] at h

instance : Spelled DurativeAssignment where
  spelling a := oneLine (Vocabulary.keyword a.op) [spelling a.fluent, spelling a.value]
  render_toNode a := Node.render_operation (k := .durativeAssignment) rfl a.op a.fluent a.value

instance : Spelled TimedEffect where
  spelling
    | .at t c => oneLine "at" [spelling t, spelling c]
    | .assignAt t a => oneLine "at" [spelling t, spelling a]
    | .continuous op f r => oneLine (Vocabulary.keyword op) [spelling f, spelling r]
  render_toNode e := by
    cases e with
    | «at» t c =>
      exact Node.render_plain (k := .consequentAt) rfl
        (.cons (Spelled.render_toNode t) (.cons (Spelled.render_toNode c) .nil))
    | assignAt t a =>
      exact Node.render_plain (k := .assignmentAt) rfl
        (.cons (Spelled.render_toNode t) (.cons (Spelled.render_toNode a) .nil))
    | continuous op f r => exact Node.render_operation (k := .continuousEffect) rfl op f r

namespace DurativeEffect

mutual

/-- The text of an effect of a durative action. -/
def spelling : DurativeEffect → List Char
  | timed e => Pddl.spelling e
  | conj es => oneLine "and" (spellings es)
  | universal vs e => oneLine "forall" [enclosedItems vs, e.spelling]
  | conditional c e => oneLine "when" [Pddl.spelling c, Pddl.spelling e]

/-- The texts of several effects of a durative action. -/
def spellings : List DurativeEffect → List (List Char)
  | [] => []
  | e :: es => e.spelling :: spellings es

end

theorem spellings_eq_map (es : List DurativeEffect) : spellings es = es.map spelling := by
  induction es with
  | nil => rfl
  | cons e es ih => rw [spellings, ih, List.map_cons]

mutual

theorem render_toNode : ∀ e : DurativeEffect, (toNode e).render = .ok (String.ofList e.spelling)
  | timed e => Spelled.render_toNode e
  | conj es => Node.render_members (k := .durativeEffects) rfl (render_toNodes es)
  | universal vs e => Node.render_quantified (k := .durativeForallEffect) rfl vs (render_toNode e)
  | conditional c e =>
    Node.render_plain (k := .durativeWhenEffect) rfl
      (.cons (Spelled.render_toNode c) (.cons (Spelled.render_toNode e) .nil))

theorem render_toNodes : ∀ es : List DurativeEffect,
    List.Forall₂ (fun n w => n.render = .ok (String.ofList w)) (DurativeEffect.toNodes es)
      (spellings es)
  | [] => .nil
  | e :: es => .cons (render_toNode e) (render_toNodes es)

end

instance : Spelled DurativeEffect := ⟨spelling, render_toNode⟩

theorem spelling_conj (es : List DurativeEffect) :
    Pddl.spelling (conj es) = oneLine "and" (es.map Pddl.spelling) := by
  rw [← show spellings es = es.map Pddl.spelling from spellings_eq_map es]
  rfl

end DurativeEffect

namespace DurationBound

/-- The text of a bound on a duration. -/
def spelling : DurationBound → List Char
  | compare c e => oneLine (Vocabulary.keyword c) ["?duration".toList, Pddl.spelling e]
  | «at» t b => oneLine "at" [Pddl.spelling t, b.spelling]

theorem render_toNode : ∀ b : DurationBound, (toNode b).render = .ok (String.ofList b.spelling)
  | compare c e => by
    have h := Node.render_form (k := .durationBound) (f := [toNode c, toNode e]) rfl
      (.cons (words_word "?duration") (.cons (words_field_toNode (i := 1) rfl) .nil))
    rwa [head_keyword (x := c) rfl] at h
  | «at» t b =>
    Node.render_plain (k := .timedDurationBound) rfl
      (.cons (Spelled.render_toNode t) (.cons (render_toNode b) .nil))

instance : Spelled DurationBound := ⟨spelling, render_toNode⟩

end DurationBound

instance : Spelled DurationConstraint where
  spelling c := loneOr "and" (c.bounds.map spelling)
  render_toNode c := render_loneOr (k := .durationConstraint) rfl (forall₂_render c.bounds)

/-! ### Forms -/

/-- The text is a form: behind the parenthesis begins a head word. -/
def IsForm (s : List Char) : Prop :=
  ∃ c cs, s = '(' :: c :: cs ∧ isWideBlank c = false ∧ c ≠ ')'

theorem IsForm.emptyParensLength? {s : List Char} (hs : IsForm s) (r : List Char) :
    emptyParensLength? (s ++ r) = none := by
  obtain ⟨c, cs, rfl, hblank, hclose⟩ := hs
  by_contra hsome
  obtain ⟨n, hn⟩ := Option.ne_none_iff_exists'.1 hsome
  obtain ⟨blanks, rest, heq, hblanks, -⟩ := emptyParensLength?_eq_some.1 hn
  -- the first character inside is neither a blank nor the closing parenthesis
  cases blanks with
  | nil => exact hclose (List.cons.inj (List.cons.inj heq).2).1
  | cons b bs =>
    obtain rfl : c = b := (List.cons.inj (List.cons.inj heq).2).1
    exact absurd (hblanks c List.mem_cons_self) (by simp [hblank])

theorem isForm_oneLine {head : String} {parts : List (List Char)}
    (h : (head.toList.head?.any fun c => !isWideBlank c && c != ')') = true) :
    IsForm (oneLine head parts) := by
  rw [oneLine, enclose]
  rcases hc : head.toList with _ | ⟨c, cs⟩ <;> rw [hc] at h
  · cases h
  · exact ⟨c, _, rfl, by simpa using h⟩

theorem isForm_loneOr {ps : List (List Char)} (h : ∀ p ∈ ps, IsForm p) : IsForm (loneOr "and" ps) := by
  rcases ps with _ | ⟨p, _ | ⟨q, ps⟩⟩
  · exact isForm_oneLine (by decide)
  · exact h p (by simp)
  · exact isForm_oneLine (by decide)

theorem isForm_atomicFormula (f : AtomicFormula Term) : IsForm (spelling f) := by
  cases f with
  | equality l r => exact isForm_oneLine (by decide)
  | predicate p ts =>
    rw [AtomicFormula.spelling_predicate]
    refine isForm_oneLine ?_
    rcases hc : p.text.toList with _ | ⟨c, cs⟩
    · exact absurd p.valid (by simp [hc, isName])
    · have hname := isNameChar_of_mem_name p.valid c (by simp [hc])
      have hne : c ≠ ')' := by
        rintro rfl
        exact absurd hname (by decide)
      have hblank : isWideBlank c = false :=
        isWideBlank_eq_false_of_goesOn (by rw [goesOn, hname, Bool.true_or])
      simp [hblank, hne]

theorem isForm_goal (g : Goal) : IsForm (spelling g) := by
  cases g with
  | atom f => exact isForm_atomicFormula f
  | literal l =>
    obtain ⟨f, negated⟩ := l
    cases negated with
    | true => exact isForm_oneLine (by decide)
    | false => exact isForm_atomicFormula f
  | compare c => exact isForm_oneLine (by cases c.comparator <;> decide)
  | _ => exact isForm_oneLine (by decide)

theorem isForm_preconditions (ps : Preconditions) : IsForm (spelling ps) := by
  refine isForm_loneOr (List.forall_mem_map.2 fun q _ => ?_)
  cases q with
  | goal g =>
    cases g with
    | required g => exact isForm_goal g
    | preferred n g => exact isForm_oneLine (by decide)
  | universal vs qs => exact isForm_oneLine (by decide)

theorem isForm_primitiveEffect (e : PrimitiveEffect) : IsForm (spelling e) := by
  cases e with
  | add f => exact isForm_atomicFormula f
  | delete f => exact isForm_oneLine (by decide)
  | assignNumeric op f e => exact isForm_oneLine (by cases op <;> decide)
  | assignObject f t? => exact isForm_oneLine (by decide)

theorem isForm_effects (es : Effects) : IsForm (spelling es) := by
  refine isForm_loneOr (List.forall_mem_map.2 fun e _ => ?_)
  cases e with
  | primitive e => exact isForm_primitiveEffect e
  | universal vs es => exact isForm_oneLine (by decide)
  | conditional g c => exact isForm_oneLine (by decide)

theorem isForm_condition (c : Condition) : IsForm (spelling c) := by
  cases c with
  | goal g =>
    cases g with
    | required g => cases g <;> exact isForm_oneLine (by decide)
    | preferred n g => exact isForm_oneLine (by decide)
  | conj cs => exact isForm_oneLine (by decide)
  | universal vs c => exact isForm_oneLine (by decide)

theorem isForm_durativeEffect (e : DurativeEffect) : IsForm (spelling e) := by
  cases e with
  | timed e =>
    cases e with
    | continuous op f r => exact isForm_oneLine (by cases op <;> decide)
    | _ => exact isForm_oneLine (by decide)
  | _ => exact isForm_oneLine (by decide)

theorem isForm_durationConstraint (c : DurationConstraint) : IsForm (spelling c) := by
  refine isForm_loneOr (List.forall_mem_map.2 fun b _ => ?_)
  cases b with
  | compare c e => exact isForm_oneLine (by cases c <;> decide)
  | «at» t b => exact isForm_oneLine (by decide)

/-! ### Distinct effects -/

/-- At a time point all effects are distinct, and one that stands alone there is written neither like a
conjunction nor like a change of a numeric fluent. -/
def TimedEffect.IsDistinct : TimedEffect → Prop
  | .at _ c => c.IsDistinct ∧
    ∀ e, c.effects = [e] → (∀ a, ¬e.IsChange a) ∧ ∀ f, e ≠ .assignObject f none
  | _ => True

/-- The timed effects in an effect are distinct. -/
inductive DurativeEffect.IsDistinct : DurativeEffect → Prop where
  | timed {e : TimedEffect} (he : e.IsDistinct) : IsDistinct (.timed e)
  | conj {es : List DurativeEffect} (hes : ∀ e ∈ es, IsDistinct e) : IsDistinct (.conj es)
  | universal (vs : TypedList Variable) {e : DurativeEffect} (he : IsDistinct e) :
    IsDistinct (.universal vs e)
  | conditional (c : Condition) {e : TimedEffect} (he : e.IsDistinct) : IsDistinct (.conditional c e)

namespace Rule

open Grammar

variable {α β : Type} {g : Rule α} {text s : List Char} {levels : Nat} {w : String}

/-! ### Conditions -/

theorem isHead_at : IsHead "at" := isHead_of_isWord (by decide)

theorem isHead_over : IsHead "over" := isHead_of_isWord (by decide)

theorem Finds.recovers_timedGoal {g : TimedGoal} (h : Finds Rule.timedGoal text levels g) :
    Recovers Rule.timedGoal (spelling g) (· = g) := by
  rcases h.orElse with h | h
  · -- at a time point
    obtain ⟨⟨t, g⟩, hx, rfl⟩ := h.map
    exact .left ((recovers_form isHead_at (.pair_eq (recovers_keyword t)
      (.one isGap_blank (recovers_goal hx.form.pair.2.goal)))).congr _)
  · -- over an interval
    obtain ⟨⟨i, g⟩, hx, rfl⟩ := h.map
    exact .behindForm isHead_over (by decide) ((recovers_form isHead_over
      (.pair_eq (recovers_keyword i) (.one isGap_blank (recovers_goal hx.form.pair.2.goal)))).congr _)

theorem exists_head_timedGoal (g : TimedGoal) :
    ∃ head ∈ ["at", "over"], ∃ parts, spelling g = oneLine head parts := by
  cases g with
  | «at» t g => exact ⟨"at", by decide, _, rfl⟩
  | «over» i g => exact ⟨"over", by decide, _, rfl⟩

theorem Finds.recovers_preferredTimedGoal {g : PreferredTimedGoal}
    (h : Finds Rule.preferredTimedGoal text levels g) :
    Recovers Rule.preferredTimedGoal (spelling g) (· = g) := by
  have hform : ∀ g : TimedGoal, ∃ head parts, spelling g = oneLine head parts := fun g =>
    let ⟨head, _, parts, htext⟩ := exists_head_timedGoal g
    ⟨head, parts, htext⟩
  rcases h.orElse with h | h
  · -- preferences with a name
    obtain ⟨⟨n, g⟩, hx, rfl⟩ := h.map
    exact recovers_preference hx.form.pair.2.recovers_timedGoal (hform g) (some n)
  rcases h.orElse with h | h
  · -- preferences without one
    obtain ⟨g, hx, rfl⟩ := h.map
    exact recovers_preference hx.form.recovers_timedGoal (hform g) none
  · -- goals that must hold
    obtain ⟨g, hx, rfl⟩ := h.map
    obtain ⟨head, hmem, parts, htext⟩ := exists_head_timedGoal g
    obtain ⟨hword, hapart⟩ := (by decide : ∀ head ∈ ["at", "over"],
      IsWord head ∧ Apart "preference" head.toList = true) head hmem
    have hhead := isHead_of_isWord hword
    have hg := hx.recovers_timedGoal.congr PreferredTimedGoal.required
    rw [htext] at hg
    rw [show spelling (PreferredTimedGoal.required g) = oneLine head parts from htext]
    exact .behindForm hhead ⟨by decide, hapart⟩ (.behindForm hhead ⟨by decide, hapart⟩ hg)

/-- The head words of conditions that are neither conjunctions nor quantified. -/
theorem exists_head_preferredTimedGoal (g : PreferredTimedGoal) :
    ∃ head ∈ ["at", "over", "preference"], ∃ parts, spelling g = oneLine head parts := by
  cases g with
  | required g =>
    obtain ⟨head, hmem, htext⟩ := exists_head_timedGoal g
    exact ⟨head, List.mem_append_left ["preference"] hmem, htext⟩
  | preferred n g => exact ⟨"preference", by decide, _, rfl⟩

/-- **Every condition that is found is read back from its text.** -/
theorem Finds.recovers_condition {c : Condition} (h : Finds Rule.condition text levels c) :
    Recovers Rule.condition (spelling c) (· = c) := by
  refine Finds.call_induction (P := fun c => Recovers Rule.condition (spelling c) (· = c))
    (fun k ih _ h => recovers_call ?_) h
  rcases h.orElse with h | h
  · -- universal conditions
    obtain ⟨⟨vs, c⟩, hx, rfl⟩ := h.map
    obtain ⟨hvs, hc⟩ := hx.quantified
    exact .left ((recovers_form isHead_forall
      (.pair_eq (recovers_parameters hvs.parameters) (.one isGap_blank (ih hc)))).congr _)
  rcases h.orElse with h | h
  · -- conjunctions
    obtain ⟨cs, hx, rfl⟩ := h.map
    have hcs := readsParts_many_eq isGap_blank (fun c hc => ih (hx.form.many c hc))
      fun _ => misses_close rfl
    rw [Condition.spelling_conj]
    exact .behindForm isHead_and (by decide) (.left ((recovers_form isHead_and hcs).congr _))
  · -- goals and preferences
    obtain ⟨g, hx, rfl⟩ := h.map
    obtain ⟨head, hmem, parts, htext⟩ := exists_head_preferredTimedGoal g
    obtain ⟨hword, hforall, hand⟩ := (by decide : ∀ head ∈ ["at", "over", "preference"],
      IsWord head ∧ Apart "forall" head.toList = true ∧ Apart "and" head.toList = true) head hmem
    have hhead := isHead_of_isWord hword
    have hg := hx.recovers_preferredTimedGoal.congr Condition.goal
    rw [htext] at hg
    rw [show spelling (Condition.goal g) = oneLine head parts from htext]
    exact .behindForm hhead ⟨by decide, hforall⟩ (.behindForm hhead ⟨by decide, hand⟩ hg)

/-! ### Effects at a time -/

theorem Finds.recovers_rate {r : Rate} (h : Finds Rule.rate text levels r) :
    Recovers Rule.rate (spelling r) (· = r) := by
  have helapsed : elapsed.Recovers "#t".toList fun _ => True := recovers_word (by decide)
  rcases h.orElse with h | h
  · -- the elapsed time comes first, wherever it was found
    obtain ⟨e, hx, rfl⟩ := h.map
    have he : e.IsRegular := by
      rcases hx.form.orElse with h | h
      · obtain ⟨p, hp, rfl⟩ := h.map
        exact hp.pair.2.expression
      · obtain ⟨p, hp, rfl⟩ := h.map
        exact hp.pair.1.expression
    have hparts := (ReadsParts.pair helapsed (.one isGap_blank (recovers_expression he))).map
      (f := Prod.snd) (Q := (· = e)) fun _ h => h.2
    exact .left ((recovers_form (isHead_of_isWord (by decide)) hparts.left).congr _)
  · obtain ⟨_, -, rfl⟩ := h.map
    exact .behind (missesText_of_opens rfl helapsed.solid (by decide)) (helapsed.map fun _ _ => rfl)

/-- A change of a numeric fluent is read back if its operand is. -/
theorem recovers_change [ToNode α] [Spelled α] (op : AssignOp) (f : Fluent) {a : α}
    (hg : g.Recovers (spelling a) (· = a)) :
    Recovers (change g) (oneLine (Vocabulary.keyword op) [spelling f, spelling a])
      (· = (op, f, a)) :=
  recovers_pair_eq (recovers_keyword op) (.pair_eq (recovers_fluent f) (.one isGap_blank hg))

theorem Finds.recovers_durativeAssignment {a : DurativeAssignment}
    (h : Finds Rule.durativeAssignment text levels a) :
    Recovers Rule.durativeAssignment (spelling a) (· = a) := by
  obtain ⟨⟨op, f, e⟩, hx, rfl⟩ := h.map
  have he := recovers_durativeExpression hx.parens.pair.2.pair.2.durativeExpression
  exact (recovers_change op f he).congr _

/-- The word of the duration is read only from the variable with its name. -/
theorem decides_durationWord (t : Term) :
    Decides (word "?duration") (spelling t) (t = .var durationVariable) := by
  have hmisses (hhead : ∀ r, (spelling t ++ r).head? ≠ some '?') :
      Decides (word "?duration") (spelling t) (t = .var durationVariable) :=
    .inr ⟨isSolid_spelling t, fun r _ => misses_word_of_head (by decide) (hhead r)⟩
  cases t with
  | var v =>
    by_cases hv : v = durationVariable
    · subst hv
      exact (recovers_word (w := "?duration") (by decide)).decides rfl
    · refine .inr ⟨isSolid_spelling _, fun r hr => misses_terminal fun b => ?_⟩
      rcases hn : keywordLength? "?duration" (spelling (Term.var v) ++ r) with _ | n
      · simp [Terminal.lexeme?, hn]
      · -- the word is a variable, so it is the one that is written
        have hword := Terminal.symbolLexeme?_of_written durationVariable (by decide) hn
        have hwritten := Terminal.symbolLexeme?_written v hr.any_isNameChar
        exact absurd (Prod.mk.inj (Option.some.inj (hwritten.symm.trans hword))).2 hv
  | name n =>
    refine hmisses fun r => ?_
    obtain ⟨c, hc, hstart⟩ := head?_name n r
    rw [show spelling (Term.name n) = spelling n from rfl, hc]
    rintro ⟨⟩
    exact absurd hstart (by decide)
  | apply f ts =>
    rw [Term.spelling_apply] at hmisses ⊢
    exact hmisses fun r => by simp [oneLine, enclose]

/-- A term is an expression of a durative action if it is the duration or a numeric fluent. -/
theorem decides_durativeExpression (t : Term) : Rule.durativeExpression.Decides (spelling t)
    (t = .var durationVariable ∨ t.toFluent?.isSome) :=
  decides_call (.orElse ((decides_durationWord t).map.mono .inl)
    (.behind (missesText_arithmetic_term _ t) ((decides_expression t).map.mono .inr)))

/-- An effect that is written neither like a change of a numeric fluent nor as an undefined fluent is
no change of a numeric fluent at a time point. -/
theorem missesText_durativeAssignment {e : PrimitiveEffect} (hd : e.IsDistinct)
    (hchange : ∀ a, ¬e.IsChange a) (hundefined : ∀ f, e ≠ .assignObject f none) :
    MissesText Rule.durativeAssignment (spelling e) := by
  refine MissesText.map ?_
  have hclose := misses_close_durativeExpression
  have happart : ∀ {head : String} {parts}, IsHead head →
      (∀ op : AssignOp, Apart (Vocabulary.keyword op) head.toList = true) →
      MissesText (change Rule.durativeExpression) (oneLine head parts) := fun hh ha =>
    missesText_operation_of_apart hh.solid ha _
  cases e with
  | delete f => exact happart isHead_not fun op => by cases op <;> decide
  | assignNumeric op f x => exact absurd (.numeric op f x) (hchange _)
  | assignObject f t? =>
    cases t? with
    | none => exact absurd rfl (hundefined f)
    | some t =>
      cases t with
      | name n => cases hd
      | apply g ts => cases hd
      | var x =>
        -- the text is that of a formula, too
        let p : Predicate := ⟨"assign", by decide⟩
        suffices h : MissesText (change Rule.durativeExpression)
            (oneLine p.text ([f.toTerm, Term.var x].map spelling)) from h
        refine missesText_change decides_durativeExpression hclose fun op s t _ hts _ ht => ?_
        obtain ⟨-, rfl⟩ : f.toTerm = s ∧ Term.var x = t := by simpa using hts
        obtain ht | ht := ht
        · obtain rfl := Term.var.inj ht
          exact hchange _ (.assign f)
        · cases ht
  | add f =>
    cases f with
    | equality l r => exact happart isHead_equality fun op => by cases op <;> decide
    | predicate p ts =>
      rw [show spelling (PrimitiveEffect.add (.predicate p ts)) = oneLine p.text (ts.map spelling)
        from AtomicFormula.spelling_predicate p ts]
      refine missesText_change decides_durativeExpression hclose fun op s t hp hts hs ht => ?_
      obtain ⟨f, hf⟩ := Option.isSome_iff_exists.1 hs
      subst hts
      obtain rfl | ht := ht
      · exact hchange _ (.formula hp hf)
      · refine hd ?_
        rw [hp]
        exact .numeric op hs ht

/-- Effects at a time point are no change of a numeric fluent there. -/
theorem missesText_durativeAssignment_consequent {c : Consequent} (hd : c.IsDistinct)
    (hlone : ∀ e, c.effects = [e] → (∀ a, ¬e.IsChange a) ∧ ∀ f, e ≠ .assignObject f none) :
    MissesText Rule.durativeAssignment (spelling c) := by
  obtain ⟨es⟩ := c
  have hlist (parts : List (List Char)) : MissesText Rule.durativeAssignment (oneLine "and" parts) :=
    MissesText.map (missesText_operation_of_apart isHead_and.solid
      (fun op => by cases op <;> decide) parts)
  rcases es with _ | ⟨e, _ | ⟨e', es⟩⟩
  · exact hlist _
  · obtain ⟨hchange, hundefined⟩ := hlone e rfl
    exact missesText_durativeAssignment (hd.effects e (by simp)) hchange hundefined
  · exact hlist _

theorem Finds.recovers_timedEffect {e : TimedEffect} (h : Finds Rule.timedEffect text levels e)
    (hd : e.IsDistinct) : Recovers Rule.timedEffect (spelling e) (· = e) := by
  rcases h.orElse with h | h
  · -- changes that may depend on the duration
    obtain ⟨⟨t, a⟩, hx, rfl⟩ := h.map
    have ha := hx.form.pair.2.recovers_durativeAssignment
    exact .left ((recovers_form isHead_at
      (.pair_eq (recovers_keyword t) (.one isGap_blank ha))).congr _)
  rcases h.orElse with h | h
  · -- effects at a time point
    obtain ⟨⟨t, c⟩, hx, rfl⟩ := h.map
    obtain ⟨hdistinct, hlone⟩ := hd
    have hc := recovers_consequent hx.form.pair.2.consequent hdistinct
    have hstalls := stallsAt_pair ((recovers_keyword t).decides trivial) (stallsAt_of_missesText
      isGap_blank hc.solid (missesText_durativeAssignment_consequent hdistinct hlone) [])
    exact .behind (missesText_form_of_stallsAt isHead_at hstalls).map (.left ((recovers_form isHead_at
      (.pair_eq (recovers_keyword t) (.one isGap_blank hc))).congr _))
  · -- continuous changes
    obtain ⟨⟨op, f, r⟩, hx, rfl⟩ := h.map
    have hr := hx.parens.pair.2.pair.2.recovers_rate
    have hhead : IsHead (Vocabulary.keyword op) := isHead_of_isWord (PlainVocabulary.isWord op)
    have hat : IsPlainWord "at" ∧ Apart "at" (Vocabulary.keyword op).toList = true := by
      cases op <;> decide
    exact .behindForm hhead hat (.behindForm hhead hat ((recovers_pair_eq (recovers_keyword op)
      (.pair_eq (recovers_fluent f) (.one isGap_blank hr))).congr _))

/-! ### Effects of durative actions -/

/-- The head words of timed effects. -/
theorem exists_head_timedEffect (e : TimedEffect) :
    ∃ head ∈ "at" :: (Vocabulary.members : List RateOp).map Vocabulary.keyword,
      ∃ parts, spelling e = oneLine head parts := by
  cases e with
  | «at» t c => exact ⟨"at", by decide, _, rfl⟩
  | assignAt t a => exact ⟨"at", by decide, _, rfl⟩
  | continuous op f r => exact ⟨_, by cases op <;> decide, _, rfl⟩

/-- **Every effect of a durative action that is found and is distinct is read back.** -/
theorem Finds.recovers_durativeEffect {e : DurativeEffect}
    (h : Finds Rule.durativeEffect text levels e) (hd : e.IsDistinct) :
    Recovers Rule.durativeEffect (spelling e) (· = e) := by
  refine Finds.call_induction
    (P := fun e => e.IsDistinct → Recovers Rule.durativeEffect (spelling e) (· = e))
    (fun k ih _ h hd => recovers_call ?_) h hd
  rcases h.orElse with h | h
  · -- conjunctions
    obtain ⟨es, hx, rfl⟩ := h.map
    cases hd with
    | conj hes =>
      have hes := readsParts_many_eq isGap_blank (fun e he => ih (hx.form.many e he) (hes e he))
        fun _ => misses_close rfl
      rw [DurativeEffect.spelling_conj]
      exact .left ((recovers_form isHead_and hes).congr _)
  rcases h.orElse with h | h
  · -- universal effects
    obtain ⟨⟨vs, e⟩, hx, rfl⟩ := h.map
    obtain ⟨hvs, he⟩ := hx.quantified
    cases hd with
    | universal _ hd =>
      exact .behindForm isHead_forall (by decide) (.left ((recovers_form isHead_forall
        (.pair_eq (recovers_parameters hvs.parameters) (.one isGap_blank (ih he hd)))).congr _))
  rcases h.orElse with h | h
  · -- conditional effects
    obtain ⟨⟨c, e⟩, hx, rfl⟩ := h.map
    obtain ⟨hc, he⟩ := hx.form.pair
    cases hd with
    | conditional _ hd =>
      exact .behindForm isHead_when (by decide) (.behindForm isHead_when (by decide)
        (.left ((recovers_form isHead_when (.pair_eq hc.recovers_condition
          (.one isGap_blank (he.recovers_timedEffect hd)))).congr _)))
  · -- effects at their time
    obtain ⟨e, hx, rfl⟩ := h.map
    cases hd with
    | timed hd =>
      obtain ⟨head, hmem, parts, htext⟩ := exists_head_timedEffect e
      obtain ⟨hword, hand, hforall, hwhen⟩ := (by decide :
        ∀ head ∈ "at" :: (Vocabulary.members : List RateOp).map Vocabulary.keyword,
          IsWord head ∧ Apart "and" head.toList = true ∧ Apart "forall" head.toList = true ∧
            Apart "when" head.toList = true) head hmem
      have hhead := isHead_of_isWord hword
      have he := (hx.recovers_timedEffect hd).congr DurativeEffect.timed
      rw [htext] at he
      rw [show spelling (DurativeEffect.timed e) = oneLine head parts from htext]
      exact .behindForm hhead ⟨by decide, hand⟩ (.behindForm hhead ⟨by decide, hforall⟩
        (.behindForm hhead ⟨by decide, hwhen⟩ he))

/-! ### Durations -/

theorem Finds.durationValue {e : NumericExpression} (h : Finds Rule.durationValue text levels e) :
    e.IsRegular := by
  rcases h.orElse with h | h
  · obtain ⟨x, hx, rfl⟩ := h.map
    exact .number hx.number
  · exact h.expression

theorem recovers_durationValue {e : NumericExpression} (he : e.IsRegular) :
    Recovers durationValue (spelling e) (· = e) := by
  have hread := recovers_expression he
  -- every expression but a number is written in parentheses
  have hform : ∀ {head parts}, spelling e = oneLine head parts →
      Recovers durationValue (spelling e) (· = e) := by
    intro head parts htext
    refine .behind (MissesText.map ?_) hread
    rw [htext]
    exact misses_number_oneLine parts
  cases he with
  | number hx => exact .left ((recovers_number hx).congr _)
  | reference => exact hform rfl
  | binary => exact hform rfl
  | variadic => exact hform rfl
  | negative => exact hform rfl

/-- Every bound that is found is read back. -/
theorem Finds.recovers_durationBound {b : DurationBound}
    (h : Finds Rule.durationBound text levels b) :
    Recovers Rule.durationBound (spelling b) (· = b) := by
  refine Finds.call_induction (P := fun b => Recovers Rule.durationBound (spelling b) (· = b))
    (fun k ih _ h => recovers_call ?_) h
  rcases h.orElse with h | h
  · -- comparisons
    obtain ⟨⟨c, _, e⟩, hx, rfl⟩ := h.map
    have he := recovers_durationValue hx.parens.pair.2.pair.2.durationValue
    have hparts := recovers_pair (recovers_keyword c)
      (.pair (recovers_word (w := "?duration") (by decide)) (.one isGap_blank he))
    refine .left (hparts.map ?_)
    rintro ⟨c, _, e⟩ ⟨rfl, -, rfl⟩
    rfl
  · -- bounds at a time point
    obtain ⟨⟨t, b⟩, hx, rfl⟩ := h.map
    refine .behind (MissesText.map ?_) ((recovers_form isHead_at
      (.pair_eq (recovers_keyword t) (.one isGap_blank (ih hx.form.pair.2)))).congr _)
    exact missesText_operation_of_apart isHead_at.solid (fun c => by cases c <;> decide) _

/-! ### What may be left out -/

/-- What is no pair of empty parentheses is read for what it is. -/
theorem Recovers.emptyOr_eq {a : α} (hs : IsForm s) (hg : g.Recovers s (· = a)) :
    Recovers (.emptyOr g) s (· = some a) where
  solid := hg.solid
  reads {r} hr levels b := by
    show (Reader.emptyOr (g.look levels) ⟨b, s ++ r⟩).Leaves r _
    rw [Reader.emptyOr, hs.emptyParensLength? r]
    exact (hg.reads hr levels b).andThen fun _ _ ha => Finding.leaves_found (congrArg some ha)

/-- A conjunction is no bound on a duration. -/
theorem missesText_durationBound (parts : List (List Char)) :
    MissesText Rule.durationBound (oneLine "and" parts) :=
  missesText_call (n := .durationBound) (.orElse
    (.map (missesText_operation_of_apart isHead_and.solid (fun c => by cases c <;> decide) parts))
    (.map (missesText_form (by decide) isHead_and.solid (by decide) parts)))

theorem recovers_durationConstraint {bs : List DurationBound} (hne : bs ≠ [])
    (hbs : ∀ b ∈ bs, Recovers durationBound (spelling b) (· = b)) :
    Recovers durationConstraint (spelling (⟨bs⟩ : DurationConstraint)) (· = some ⟨bs⟩) := by
  refine .emptyOr_eq (isForm_durationConstraint _) ?_
  have hlist := (recovers_form isHead_and (readsParts_many1_eq isGap_blank hbs hne
    fun _ => misses_close rfl)).congr DurationConstraint.mk
  rcases bs with _ | ⟨b, _ | ⟨b', bs⟩⟩
  · exact absurd rfl hne
  · exact .left ((hbs b (by simp)).congr fun b => DurationConstraint.mk [b])
  · exact .behind (missesText_durationBound _).map hlist

/-- **The bounds on a duration that are found are read back from their text.** -/
theorem Finds.recovers_durationConstraint {c : DurationConstraint}
    (h : Finds Rule.durationConstraint text levels (some c)) :
    Recovers Rule.durationConstraint (spelling c) (· = some c) := by
  rcases (h.emptyOr c rfl).orElse with h | h
  · obtain ⟨b, hx, rfl⟩ := h.map
    exact Rule.recovers_durationConstraint (by simp)
      (List.forall_mem_singleton.2 hx.recovers_durationBound)
  · obtain ⟨bs, hx, rfl⟩ := h.map
    exact Rule.recovers_durationConstraint hx.form.many1.1
      fun b hb => (hx.form.many1.2 b hb).recovers_durationBound

end Rule

end Pddl
