import Pddl.Proofs.AcceptedTrees

/-!
# Effects are read back

An effect is written on one line, and a list of a single effect is written as that effect alone.  What
is read there may be something else: a formula may look like an assignment, and the only effect of a
list may look like a conjunction of effects.  All other effects come back from their text.

* `FitsAssignment`, `PrimitiveEffect.IsDistinct` : effects that are written like no other effect.
* `Effect.IsDistinct`, `Effects.IsDistinct` : in addition, no effect that is written alone looks like a
  conjunction.
* `Rule.decides_terms` : a rule of forms takes the text of a term as a whole or not at all.
* `Rule.recovers_primitiveEffect`, `Rule.recovers_consequent`, `Rule.recovers_effects` : **all regular
  effects that are distinct are read back from their texts.**
-/

namespace Pddl

/-! ### Texts -/

/-- What is written as its only field. -/
theorem Node.render_self {k : Kind} (hk : k.layout = .self) (n : Node) :
    (form k [n]).render = n.render := by
  rw [render, rendering, renderings_eq_map, hk, Layout.rendering, text_inline]
  rfl

/-- The value of an object fluent; without one, the fluent is undefined. -/
def valueText (t? : Option Term) : List Char := (t?.map spelling).getD "undefined".toList

instance : Spelled PrimitiveEffect where
  spelling
    | .add f => spelling f
    | .delete f => oneLine "not" [spelling f]
    | .assignNumeric op f e => oneLine (Vocabulary.keyword op) [spelling f, spelling e]
    | .assignObject f t? => oneLine "assign" [spelling f, valueText t?]
  render_toNode e := by
    cases e with
    | add f => exact (Node.render_self rfl _).trans (Spelled.render_toNode f)
    | delete f => exact Node.render_plain (k := .deleteEffect) rfl (.cons (Spelled.render_toNode f) .nil)
    | assignNumeric op f e =>
      have h := Node.render_form (k := .assignNumeric) (f := [toNode op, toNode f, toNode e]) rfl
        (.cons (words_field_toNode (i := 1) rfl) (.cons (words_field_toNode (i := 2) rfl) .nil))
      rwa [head_keyword (x := op) rfl] at h
    | assignObject f t? =>
      have hterm : ∀ t : Term, toNode t ≠ .absent := by
        rintro (n | v | ⟨f, ts⟩) ⟨⟩
      have h := Node.render_form (k := .assignObject) (f := [toNode f, toNode t?]) rfl
        (.cons (words_field_toNode (i := 0) rfl)
          (.cons (words_givenOr (i := 1) (w := "undefined") rfl hterm) .nil))
      cases t? <;> exact h

instance : Spelled Consequent where
  spelling c := loneOr "and" (c.effects.map spelling)
  render_toNode c := render_loneOr (k := .consequent) rfl (forall₂_render c.effects)

namespace Effect

mutual

/-- The text of an effect. -/
def spelling : Effect → List Char
  | primitive e => Pddl.spelling e
  | universal vs es => oneLine "forall" [enclosedItems vs, loneOr "and" (spellings es)]
  | conditional g c => oneLine "when" [Pddl.spelling g, Pddl.spelling c]

/-- The texts of several effects. -/
def spellings : List Effect → List (List Char)
  | [] => []
  | e :: es => e.spelling :: spellings es

end

theorem spellings_eq_map (es : List Effect) : spellings es = es.map spelling := by
  induction es with
  | nil => rfl
  | cons e es ih => rw [spellings, ih, List.map_cons]

mutual

theorem render_toNode : ∀ e : Effect, (toNode e).render = .ok (String.ofList e.spelling)
  | primitive e => Spelled.render_toNode e
  | universal vs es =>
    Node.render_quantified (k := .forallEffect) rfl vs
      (render_loneOr (k := .effects) rfl (render_toNodes es))
  | conditional g c =>
    Node.render_plain (k := .whenEffect) rfl
      (.cons (Spelled.render_toNode g) (.cons (Spelled.render_toNode c) .nil))

theorem render_toNodes : ∀ es : List Effect,
    List.Forall₂ (fun n w => n.render = .ok (String.ofList w)) (Effect.toNodes es) (spellings es)
  | [] => .nil
  | e :: es => .cons (render_toNode e) (render_toNodes es)

end

instance : Spelled Effect := ⟨spelling, render_toNode⟩

theorem spelling_universal (vs : TypedList Variable) (es : List Effect) :
    Pddl.spelling (universal vs es) =
      oneLine "forall" [enclosedItems vs, loneOr "and" (es.map Pddl.spelling)] := by
  rw [← show spellings es = es.map Pddl.spelling from spellings_eq_map es]
  rfl

end Effect

instance : Spelled Effects where
  spelling es := loneOr "and" (es.effects.map spelling)
  render_toNode es := by
    have h := render_loneOr (k := .effects) rfl (Effect.render_toNodes es.effects)
    rwa [Effect.spellings_eq_map] at h

/-! ### Distinct effects -/

/-- The terms look like the operands of an assignment. -/
inductive FitsAssignment : String → List Term → Prop where
  | object {s t : Term} (hs : s.IsApplied) : FitsAssignment "assign" [s, t]
  | numeric (op : AssignOp) {s t : Term} (hs : s.toFluent?.isSome) (ht : t.toFluent?.isSome) :
    FitsAssignment (Vocabulary.keyword op) [s, t]

/-- The effect is not written like another one: no formula looks like an assignment, and what is
assigned to an object fluent is no numeric fluent. -/
def PrimitiveEffect.IsDistinct : PrimitiveEffect → Prop
  | add (.predicate p ts) => ¬FitsAssignment p.text ts
  | assignObject _ (some t) => t.toFluent? = none
  | _ => True

/-- All effects are distinct, and one that stands alone is not written like a conjunction. -/
structure Consequent.IsDistinct (c : Consequent) : Prop where
  effects : ∀ e ∈ c.effects, e.IsDistinct
  lone : ∀ e, c.effects = [e] → ∀ ts, ¬e.IsConjunction ts

/-- The effects in an effect are distinct, and one that stands alone is not written like a
conjunction. -/
inductive Effect.IsDistinct : Effect → Prop where
  | primitive {e : PrimitiveEffect} (he : e.IsDistinct) : IsDistinct (.primitive e)
  | universal {vs : TypedList Variable} {es : List Effect} (hes : ∀ e ∈ es, IsDistinct e)
    (hlone : ∀ e, es = [.primitive e] → ∀ ts, ¬e.IsConjunction ts) : IsDistinct (.universal vs es)
  | conditional {g : Goal} {c : Consequent} (hc : c.IsDistinct) : IsDistinct (.conditional g c)

/-- All effects are distinct, and one that stands alone is not written like a conjunction. -/
structure Effects.IsDistinct (es : Effects) : Prop where
  effects : ∀ e ∈ es.effects, e.IsDistinct
  lone : ∀ e, es.effects = [.primitive e] → ∀ ts, ¬e.IsConjunction ts

namespace Rule

open Grammar

variable {α β : Type} {g : Rule α} {h : Rule β} {w : String} {q : Prop} {p' q' : Term → Prop}
  {ts : List Term}

/-! ### Other constructs where terms are written -/

/-- A rule of forms takes an applied term as a whole, or it finds nothing. -/
theorem decides_terms (hg : g.TakesForms) (t : Term) : g.Decides (spelling t) t.IsApplied := by
  by_cases ht : t.IsApplied
  · exact (hg.decides (isWhole_term t) (isSolid_spelling t)).mono fun _ => ht
  · exact .inr ⟨isSolid_spelling t, missesText_of_not_isApplied hg.opens ht⟩

/-- Two constructs are read only from two terms. -/
theorem fits_pair_terms (hg : ∀ t, g.Decides (spelling t) (p' t))
    (hh : ∀ t, h.Decides (spelling t) (q' t)) (hclose : ∀ r, g.Misses (')' :: r))
    (hclose' : ∀ r, h.Misses (')' :: r)) (hq : ∀ s t, ts = [s, t] → p' s → q' t → q) :
    Fits (pair g h) [' '] (ts.map spelling) q := by
  rcases ts with _ | ⟨s, ts⟩
  · exact .inr (stallsAt_nil isGap_blank fun r => (hclose r).pair)
  · have hmore : Fits h [' '] (ts.map spelling) (∃ t, ts = [t] ∧ q' t) :=
      fits_one_map (fun t _ => hh t) hclose' fun t hts ht => ⟨t, hts, ht⟩
    refine (fits_pair isGap_blank (p := p' s) (by simpa using hg s) hmore hclose).mono ?_
    rintro ⟨hs, t, rfl, ht⟩
    exact hq s t rfl hs ht

theorem decides_functionTerm (t : Term) : functionTerm.Decides (spelling t) t.IsApplied := by
  cases t with
  | apply f ts => exact (recovers_functionTerm ⟨f, ts⟩).decides trivial
  | name n => exact .inr ⟨isSolid_spelling _, missesText_of_not_isApplied rfl id⟩
  | var v => exact .inr ⟨isSolid_spelling _, missesText_of_not_isApplied rfl id⟩

theorem head?_variable (v : Variable) (r : List Char) : (spelling v ++ r).head? = some '?' := by
  rw [show spelling v = ("?" ++ v.text).toList from rfl, String.toList_append]
  rfl

theorem head?_name (n : Name) (r : List Char) :
    ∃ c, (spelling n ++ r).head? = some c ∧ isNameStart c = true := head?_written rfl n r

/-- A fixed word is read only from the name that it is. -/
theorem decides_word (hw : IsWord w) (hn : isName w.toList = true) (t : Term) :
    Decides (word w) (spelling t) True := by
  have hmisses {s : List Char} (hs : IsSolid s) (hhead : ∀ r, (s ++ r).head? ≠ w.toList.head?) :
      Decides (word w) s True :=
    .inr ⟨hs, fun r _ => misses_word_of_head hw (hhead r)⟩
  have hstart : w.toList.head?.any isNameStart = true := by
    rcases hc : w.toList with _ | ⟨c, cs⟩ <;> rw [hc] at hn
    · cases hn
    · simp only [isName, Bool.and_eq_true] at hn
      simpa using hn.1
  cases t with
  | name n =>
    by_cases hname : n.text = w
    · have htext : spelling (Term.name n) = w.toList := by rw [← hname]; exact rfl
      rw [htext]
      exact (recovers_word hw).decides trivial
    · refine .inr ⟨isSolid_spelling _, fun r hr => misses_word hw.1 ?_ hr⟩
      exact apart_of_isName hw n.valid fun heq => hname (String.toList_inj.1 heq)
  | var v =>
    refine hmisses (isSolid_spelling _) fun r h => ?_
    rw [← h, show spelling (Term.var v) = spelling v from rfl, head?_variable] at hstart
    exact absurd hstart (by decide)
  | apply f ts =>
    refine hmisses (isSolid_spelling _) fun r h => ?_
    rw [← h, Term.spelling_apply] at hstart
    exact absurd hstart (by simp [oneLine, enclose, isNameStart])

theorem misses_close_fluent (r : List Char) : Misses fluent (')' :: r) :=
  .orElse (.map (misses_close_symbol rfl)) (.map misses_close_parens)

/-- Every term but a variable is a numeric fluent. -/
theorem decides_fluent (t : Term) : fluent.Decides (spelling t) t.toFluent?.isSome := by
  cases t with
  | name n =>
    exact .inl ⟨.left ((recovers_symbol (⟨n.text, n.valid⟩ : FunctionSymbol)).map fun _ _ => trivial),
      rfl⟩
  | var v =>
    refine .inr ⟨isSolid_spelling _, fun r _ => ?_⟩
    have hhead : (spelling (Term.var v) ++ r).head? = some '?' := head?_variable v r
    exact .orElse (misses_symbol rfl (by rw [hhead]; rfl)).map
      (misses_parens (by rw [hhead]; decide)).map
  | apply f ts =>
    rw [Term.spelling_apply]
    exact (recovers_fluent ⟨f, ts⟩).decides rfl

/-- A term is no arithmetic: a function is no operator. -/
theorem missesText_arithmetic_term {ρ : Type} (operand : Rule (Expression ρ)) (t : Term) :
    MissesText (arithmetic operand) (spelling t) := by
  cases t with
  | name n =>
    refine fun r _ => misses_arithmetic_of_head _ ?_
    obtain ⟨c, hc, hstart⟩ := head?_name n r
    rw [show spelling (Term.name n) = spelling n from rfl, hc]
    rintro ⟨⟩
    exact absurd hstart (by decide)
  | var v =>
    refine fun r _ => misses_arithmetic_of_head _ ?_
    rw [show spelling (Term.var v) = spelling v from rfl, head?_variable]
    decide
  | apply f ts =>
    rw [Term.spelling_apply]
    exact missesText_arithmetic_of_isName _ (isName_written rfl f) _

/-- A term is an expression if it is a numeric fluent. -/
theorem decides_expression (t : Term) : Rule.expression.Decides (spelling t) t.toFluent?.isSome := by
  refine decides_call (.behind (MissesText.map fun r _ => misses_number ?_)
    (.behind (missesText_arithmetic_term _ t) (decides_fluent t).map))
  cases t with
  | name n =>
    obtain ⟨c, hc, hstart⟩ := head?_name n r
    rw [show spelling (Term.name n) = spelling n from rfl, hc]
    exact isDigit_eq_false_of_isNameStart hstart
  | var v =>
    rw [show spelling (Term.var v) = spelling v from rfl, head?_variable]
    rfl
  | apply f ts =>
    rw [Term.spelling_apply]
    simp [oneLine, enclose, Char.isDigit]

/-! ### Assignments -/

theorem isHead_assign : IsHead "assign" := isHead_of_isWord (by decide)

/-- An operation is missing where no operator of its vocabulary is. -/
theorem missesText_operation_of_apart {ω : Type} [Vocabulary ω] [PlainVocabulary ω] {head : String}
    (hh : IsSolid head.toList) (ha : ∀ a : ω, Apart (Vocabulary.keyword a) head.toList = true)
    (parts : List (List Char)) : MissesText (parens (pair (keyword ω) g)) (oneLine head parts) :=
  missesText_parens_of_stallsAt hh
    (stallsAt_of_missesText isGap_blank hh (fun r hr => (misses_keyword ha r hr).pair) parts)

/-- A formula is no change of a numeric fluent if its terms are no operands of one. -/
theorem missesText_change {p : Predicate} (hh : ∀ t, h.Decides (spelling t) (q' t))
    (hclose : ∀ r, h.Misses (')' :: r))
    (hp : ∀ (op : AssignOp) (s t : Term), p.text = Vocabulary.keyword op → ts = [s, t] →
      s.toFluent?.isSome → ¬q' t) :
    MissesText (change h) (oneLine p.text (ts.map spelling)) := by
  by_cases hop : ∃ op : AssignOp, p.text = Vocabulary.keyword op
  · obtain ⟨op, hop⟩ := hop
    have hfits : Fits (pair fluent h) [' '] (ts.map spelling) False :=
      fits_pair_terms decides_fluent hh misses_close_fluent hclose
        fun s t hts hs ht => hp op s t hop hts hs ht
    obtain ⟨-, hno⟩ | hstalls := hfits
    · exact hno.elim
    · rw [hop]
      exact missesText_parens_of_stallsAt (isHead_of_isWord (PlainVocabulary.isWord op)).solid
        (stallsAt_pair ((recovers_keyword op).decides trivial) hstalls)
  · exact missesText_operation_of_apart (isSolid_of_isName p.valid) (fun op =>
      apart_of_isName (PlainVocabulary.isWord op) p.valid
        fun heq => hop ⟨op, String.toList_inj.1 heq⟩) _

/-- The word of an undefined fluent is no expression. -/
theorem missesText_undefined_expression {e : NumericExpression} (he : e.IsRegular) :
    MissesText (word "undefined") (spelling e) := by
  have hform : ∀ {head parts}, MissesText (word "undefined") (oneLine head parts) :=
    fun _ _ => misses_word_of_head (by decide) (by simp [oneLine, enclose])
  cases he with
  | @number x hx =>
    intro r _
    obtain ⟨c, hc, hdigit⟩ := head?_number hx r
    refine misses_word_of_head (by decide) ?_
    show (spelling x ++ r).head? ≠ _
    rw [hc]
    rintro ⟨⟩
    exact absurd hdigit (by decide)
  | _ => exact hform

/-- **Every regular effect that is distinct is read back from its text.** -/
theorem recovers_primitiveEffect {e : PrimitiveEffect} (he : e.IsRegular) (hd : e.IsDistinct) :
    Recovers primitiveEffect (spelling e) (· = e) := by
  cases e with
  | assignObject f t? =>
    cases t? with
    | none =>
      have hparts := ReadsParts.pair (recovers_functionTerm f)
        (.one isGap_blank (recovers_word (w := "undefined") (by decide)))
      refine .left ((recovers_form isHead_assign hparts).map ?_)
      rintro ⟨f, _⟩ ⟨rfl, -⟩
      rfl
    | some t =>
      cases t with
      | var x =>
        have htext : spelling (⟨f.symbol, f.arguments⟩ : Fluent) = spelling f :=
          (Term.spelling_apply f.symbol f.arguments).symm
        have h := recovers_assign_variable ⟨f.symbol, f.arguments⟩ x
        rwa [htext] at h
      | name n => cases hd
      | apply g ts => cases hd
  | assignNumeric op f e =>
    have hchange : Recovers (change Rule.expression)
        (oneLine (Vocabulary.keyword op) [spelling f, spelling e]) (· = (op, f, e)) :=
      recovers_pair_eq (recovers_keyword op)
        (.pair_eq (recovers_fluent f) (.one isGap_blank (recovers_expression he)))
    refine .behind (MissesText.map ?_) (.left (hchange.congr _))
    by_cases hop : op = .assign
    · -- an expression is not the word of an undefined fluent
      subst hop
      have hfunction : functionTerm.Decides (spelling f) True := by
        have h := recovers_functionTerm ⟨f.symbol, f.arguments⟩
        rw [show spelling (⟨f.symbol, f.arguments⟩ : FunctionTerm) = spelling f from
          Term.spelling_apply f.symbol f.arguments] at h
        exact h.decides trivial
      exact missesText_form_of_stallsAt isHead_assign (stallsAt_pair hfunction
        (stallsAt_of_missesText isGap_blank (recovers_expression he).solid
          (missesText_undefined_expression he) []))
    · refine missesText_form (by decide) (isHead_of_isWord (PlainVocabulary.isWord op)).solid ?_ _
      cases op <;> first | decide | exact absurd rfl hop
  | delete f =>
    have hatom := recovers_atomicFormulaOf (g := term) recovers_term (fun _ => misses_close_term) f
    refine .behindForm isHead_not (by decide) (.behind (MissesText.map ?_)
      (.behindForm isHead_not (by decide) (.left
        ((recovers_form isHead_not (.one isGap_blank hatom)).congr _))))
    exact missesText_operation_of_apart isHead_not.solid (fun op => by cases op <;> decide) _
  | add f =>
    have hatom := recovers_atomicFormulaOf (g := term) recovers_term (fun _ => misses_close_term) f
    cases f with
    | equality l r =>
      refine .behindForm isHead_equality (by decide) (.behind (MissesText.map ?_)
        (.behindForm isHead_equality (by decide)
          (.behindForm isHead_equality (by decide) (hatom.congr _))))
      exact missesText_operation_of_apart isHead_equality.solid (fun op => by cases op <;> decide) _
    | predicate p ts =>
      have htext : spelling (PrimitiveEffect.add (.predicate p ts)) =
          oneLine p.text (ts.map spelling) := AtomicFormula.spelling_predicate p ts
      have hassign : ∀ {α : Type} {h : Rule α}, (∀ t, h.Decides (spelling t) True) →
          (∀ r, h.Misses (')' :: r)) →
          MissesText (form "assign" (pair functionTerm h)) (oneLine p.text (ts.map spelling)) :=
        fun hh hclose => (decides_form_of_isName (by decide) p.valid fun hp =>
          fits_pair_terms decides_functionTerm hh (fun _ => misses_close rfl) hclose
            fun s t hts hs _ => by
              rw [hp, hts]
              exact FitsAssignment.object hs).missesText hd
      have hundefined := hassign (decides_word (w := "undefined") (by decide) (by decide))
        fun r => misses_word_of_head (by decide) (by simp)
      have hchange : MissesText (change Rule.expression) (oneLine p.text (ts.map spelling)) :=
        missesText_change decides_expression (fun _ => misses_close_expression)
          fun op s t hp hts hs ht => hd (by
            rw [hp, hts]
            exact .numeric op hs ht)
      have hnot : MissesText (form "not" atomicFormula) (oneLine p.text (ts.map spelling)) := by
        refine (decides_form_of_isName (p := p.text = "not" ∧ FitsEffect p.text ts) (by decide)
          p.valid fun hp => ?_).missesText fun hfits => he hfits.1 hfits.2
        refine fits_one_map (fun t _ => decides_atomicFormula_spelling t) misses_close_atomicFormula
          fun t hts ht => ⟨hp, ?_⟩
        rw [hp, hts]
        exact .not ht
      rw [htext]
      exact .behind hundefined.map (.behind hchange.map
        (.behind (hassign decides_term_spelling fun _ => misses_close_term).map
          (.behind hnot.map (htext ▸ hatom.congr PrimitiveEffect.add))))

/-! ### Lists of effects -/

/-- What is written alone, if it is alone, and else in a form, is read back. -/
theorem recovers_lone [ToNode α] [Spelled α] {f : List α → β} {xs : List α} (hw : IsHead w)
    (hclose : ∀ r, g.Misses (')' :: r)) (hxs : ∀ x ∈ xs, g.Recovers (spelling x) (· = x))
    (hlone : ∀ x, xs = [x] → MissesText (form w (many g)) (spelling x)) :
    Recovers (f <$> form w (many g) <|> (fun x => f [x]) <$> g) (loneOr w (xs.map spelling))
      (· = f xs) := by
  have hlist : Recovers (f <$> form w (many g) <|> (fun x => f [x]) <$> g)
      (oneLine w (xs.map spelling)) (· = f xs) :=
    .left ((recovers_form hw (readsParts_many_eq isGap_blank hxs hclose)).congr f)
  rcases xs with _ | ⟨x, _ | ⟨y, xs⟩⟩
  · exact hlist
  · exact .behind (hlone x rfl).map ((hxs x (by simp)).congr fun x => f [x])
  · exact hlist

/-- The head words of primitive effects but for the formulas of predicates. -/
def effectHeads : List String :=
  "=" :: "not" :: (Vocabulary.members : List AssignOp).map Vocabulary.keyword

theorem exists_effectHead {e : PrimitiveEffect} (he : ∀ p ts, e ≠ .add (.predicate p ts)) :
    ∃ head ∈ effectHeads, ∃ parts, spelling e = oneLine head parts := by
  cases e with
  | add f =>
    cases f with
    | equality l r => exact ⟨"=", by decide, _, rfl⟩
    | predicate p ts => exact absurd rfl (he p ts)
  | delete f => exact ⟨"not", by decide, _, rfl⟩
  | assignNumeric op f e => exact ⟨_, by cases op <;> decide, _, rfl⟩
  | assignObject f t? => exact ⟨"assign", by decide, _, rfl⟩

/-- A form with another head word is missing where an effect is written, unless the effect is the
formula of a predicate with that word for its name. -/
theorem missesText_form_effect {e : PrimitiveEffect}
    (hw : IsPlainWord w ∧ ∀ head ∈ effectHeads, IsWord head ∧ Apart w head.toList = true)
    (hp : ∀ p ts, e = .add (.predicate p ts) →
      MissesText (form w g) (oneLine p.text (ts.map spelling))) :
    MissesText (form w g) (spelling e) := by
  by_cases he : ∀ p ts, e ≠ .add (.predicate p ts)
  · obtain ⟨head, hhead, parts, htext⟩ := exists_effectHead he
    obtain ⟨hword, hapart⟩ := hw.2 head hhead
    rw [htext]
    exact missesText_form hw.1 (isHead_of_isWord hword).solid hapart parts
  · simp only [ne_eq, not_forall, not_not] at he
    obtain ⟨p, ts, rfl⟩ := he
    rw [show spelling (PrimitiveEffect.add (.predicate p ts)) = oneLine p.text (ts.map spelling) from
      AtomicFormula.spelling_predicate p ts]
    exact hp p ts rfl

/-- An effect that is not written like a conjunction is read as none. -/
theorem missesText_conjunction (hg : g.TakesForms) {e : PrimitiveEffect}
    (he : ∀ ts, ¬e.IsConjunction ts) : MissesText (form "and" (many g)) (spelling e) := by
  refine missesText_form_effect (by decide) ?_
  rintro p ts rfl
  refine (decides_form_of_isName (by decide) p.valid fun hp => ?_).missesText (he ts)
  exact (fits_many isGap_blank (fun t _ => decides_terms hg t) fun _ => misses_close hg.opens).mono
    fun hts => .intro hp hts

/-- A consequent whose effects are distinct is read back. -/
theorem recovers_consequent {c : Consequent} (hc : ∀ e ∈ c.effects, e.IsRegular)
    (hd : c.IsDistinct) : Recovers consequent (spelling c) (· = c) :=
  recovers_lone (f := Consequent.mk) isHead_and (fun _ => misses_close rfl)
    (fun e he => recovers_primitiveEffect (hc e he) (hd.effects e he))
    fun e he => missesText_conjunction takesForms_primitiveEffect (hd.lone e he)

/-! ### Effects of actions -/

theorem isHead_when : IsHead "when" := isHead_of_isWord (by decide)

theorem takesForms_effect : TakesForms effect := takesForms_call rfl

/-- A primitive effect is read as no other effect. -/
theorem recovers_effect_primitive {e : PrimitiveEffect} (he : e.IsRegular) (hu : e.IsUnconditional)
    (hd : e.IsDistinct) : Recovers effect (spelling e) (· = .primitive e) := by
  have hforall : MissesText (quantified "forall" effects) (spelling e) :=
    missesText_form_effect (by decide) fun p ts _ =>
      (decides_form_of_isName (by decide) p.valid fun _ => fits_bound).missesText id
  have hwhen : MissesText (form "when" (pair goal consequent)) (spelling e) := by
    refine missesText_form_effect (by decide) ?_
    rintro p ts rfl
    refine (decides_form_of_isName (p := p.text = "when" ∧ FitsEffect p.text ts) (by decide)
      p.valid fun hp => ?_).missesText fun hfits => hu hfits.1 hfits.2
    refine fits_pair_terms decides_goal_spelling (decides_terms takesForms_consequent)
      misses_close_goal (fun _ => misses_close rfl) fun s t hts hs ht => ⟨hp, ?_⟩
    rw [hp, hts]
    exact .when hs ht
  exact recovers_call (.behind hforall.map (.behind hwhen.map
    ((recovers_primitiveEffect he hd).congr _)))

/-- Effects that are read back one by one are read back as a list. -/
theorem recovers_effects_of {es : List Effect} (hes : ∀ e ∈ es, Recovers effect (spelling e) (· = e))
    (hlone : ∀ e, es = [.primitive e] → ∀ ts, ¬e.IsConjunction ts) :
    Recovers effects (loneOr "and" (es.map spelling)) (· = ⟨es⟩) := by
  refine recovers_call (recovers_lone (f := Effects.mk) isHead_and (fun _ => misses_close rfl) hes ?_)
  rintro e rfl
  cases e with
  | primitive e => exact missesText_conjunction takesForms_effect (hlone e rfl)
  | universal vs es =>
    rw [Effect.spelling_universal]
    exact missesText_form (by decide) isHead_forall.solid (by decide) _
  | conditional g c => exact missesText_form (by decide) isHead_when.solid (by decide) _

/-- **Every regular effect of an action that is distinct is read back.** -/
theorem recovers_effect {e : Effect} (he : e.IsRegular) (hd : e.IsDistinct) :
    Recovers effect (spelling e) (· = e) := by
  induction he with
  | primitive he hu =>
    cases hd with
    | primitive hd => exact recovers_effect_primitive he hu hd
  | @universal vs es hvs _ ih =>
    cases hd with
    | universal hes hlone =>
      have heffects := recovers_effects_of (fun e he => ih e he (hes e he)) hlone
      rw [Effect.spelling_universal]
      refine recovers_call (.left ((recovers_form isHead_forall
        (.pair (recovers_parameters hvs) (.one isGap_blank heffects))).map ?_))
      rintro ⟨vs, es⟩ ⟨rfl, rfl⟩
      rfl
  | @conditional g c hg hc =>
    cases hd with
    | conditional hd =>
      exact recovers_call (.behindForm isHead_when (by decide) (.left ((recovers_form isHead_when
        (.pair_eq (recovers_goal hg) (.one isGap_blank (recovers_consequent hc hd)))).congr _)))

/-- **All regular effects of an action that are distinct are read back from their text.** -/
theorem recovers_effects {es : Effects} (hes : es.IsRegular) (hd : es.IsDistinct) :
    Recovers effects (spelling es) (· = es) :=
  recovers_effects_of (fun e he => recovers_effect (hes e he) (hd.effects e he)) hd.lone

end Rule

end Pddl
