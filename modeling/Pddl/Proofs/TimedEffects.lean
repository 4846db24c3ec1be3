import Pddl.Proofs.AppliedTerms

/-!
# Effects at a time point

An effect of an action is also one of a durative action, at a time point.  There the changes of
numeric fluents are tried first, and then the conjunctions, before single effects; so an effect
keeps its meaning unless it is written like one of these, too.

* `PrimitiveEffect.IsChange`, `PrimitiveEffect.IsConjunction` : the effects that are written so.
* `Rule.meets_change` : **an effect is read as a change only if it is written like one.**
* `Rule.meets_conjunction` : an effect is read as a conjunction if it is written like one, and only
  then.
* `Rule.parse_timedEffect` : **an effect keeps its meaning at a time point.**
* `Rule.parse_timedEffect_duration` : what is assigned to an object fluent may be assigned to a
  numeric fluent there.
-/

namespace Pddl

instance : PlainVocabulary AssignOp where
  isWord a := by cases a <;> decide
  injective a b := by cases a <;> cases b <;> decide

instance : PlainVocabulary TimePoint where
  isWord a := by cases a <;> decide
  injective a b := by cases a <;> cases b <;> decide

/-! ### Effects that are written like others -/

/-- The effect is written like a change of a numeric fluent in a durative action: it is one, or its
second operand is the variable with the name of the duration. -/
inductive PrimitiveEffect.IsChange : PrimitiveEffect → DurativeAssignment → Prop where
  | numeric (op : AssignOp) (f : Fluent) (x : NumericExpression) :
    IsChange (.assignNumeric op f x) ⟨op, f, x.toDurative⟩
  | assign (f : FunctionTerm) : IsChange (.assignObject f (some (.var durationVariable)))
    ⟨.assign, ⟨f.symbol, f.arguments⟩, .reference .duration⟩
  | formula {p : Predicate} {op : AssignOp} {t : Term} {f : Fluent}
    (hp : p.text = Vocabulary.keyword op) (ht : t.toFluent? = some f) :
    IsChange (.add (.predicate p [t, .var durationVariable])) ⟨op, f, .reference .duration⟩

/-- An object fluent is changed by the duration only if the duration is assigned to it. -/
theorem PrimitiveEffect.IsChange.eq_duration {f : FunctionTerm} {t : Term} {d : DurativeAssignment}
    (h : IsChange (.assignObject f (some t)) d) : t = .var durationVariable := by
  cases h
  rfl

/-- The effect is written like a conjunction of as many effects as there are terms. -/
inductive PrimitiveEffect.IsConjunction : PrimitiveEffect → List Term → Prop where
  | intro {p : Predicate} {ts : List Term} (hp : p.text = "and") (hts : ∀ t ∈ ts, t.IsApplied) :
    IsConjunction (.add (.predicate p ts)) ts

/-- What an effect becomes at a time point. -/
inductive PrimitiveEffect.Becomes (s : TimePoint) : PrimitiveEffect → TimedEffect → Prop where
  | change {e : PrimitiveEffect} {d : DurativeAssignment} (h : e.IsChange d) :
    Becomes s e (.assignAt s d)
  | single {e : PrimitiveEffect} (hn : ∀ op f x, e ≠ .assignNumeric op f x)
    (hc : ∀ ts, ¬e.IsConjunction ts) : Becomes s e (.at s ⟨[e]⟩)
  | conjunction {e : PrimitiveEffect} {ts : List Term} {es : List PrimitiveEffect}
    (h : e.IsConjunction ts) (hes : es.length = ts.length) : Becomes s e (.at s ⟨es⟩)

namespace Rule

open Grammar

variable {α β : Type} {g : Rule α} {levels : Nat} {u v w : View} {t : Term} {ts : List Term}

/-! ### Effects where terms are read -/

theorem along_primitiveEffect (levels : Nat) :
    Along levels primitiveEffect fun t _ => t.IsApplied where
  close _ := misses_close rfl
  term {v w t} h := by
    by_cases ht : t.IsApplied
    · obtain ⟨p, ts, hv⟩ := look_predicate_of_term h ht
      have hfunction := along_functionTerm levels
      have happlied := applied_of_look hv
      have hundefined := meets_form happlied (x := "assign") (fun hts => hfunction.closed_pair
        (along_word (x := "undefined") (by decide) (by decide) levels) hts) (by decide) (by decide)
      have hnumeric := meets_operation happlied (ω := AssignOp)
        (fun hts => (along_fluent levels).closed_pair (along_expression levels) hts)
        fun a => by cases a <;> decide
      have hassign := meets_form happlied (x := "assign")
        (fun hts => hfunction.closed_pair (along_term levels) hts) (by decide) (by decide)
      have hnot := meets_form happlied (x := "not")
        (fun hts => (along_atomicFormula levels).closed hts) (by decide) (by decide)
      -- whichever alternative reads something, the last one reads a formula at least
      rw [primitiveEffect, look_orElse, look_orElse, look_orElse, look_orElse]
      exact .orElse (hundefined.andThen fun _ _ => Finding.meets_found ht)
        (.orElse (hnumeric.andThen fun _ _ => Finding.meets_found ht)
          (.orElse (hassign.andThen fun _ _ => Finding.meets_found ht)
            (.orElse (hnot.andThen fun _ _ => Finding.meets_found ht)
              (.inr ⟨.add (.predicate p ts), by
                rw [look_map, look_atomicFormula_of_predicate hv]
                rfl, ht⟩))))
    · exact .inl (misses_of_not_isApplied rfl h ht)

section

variable {p : Predicate} (hv : Applied levels v w p ts)

include hv

/-- A name with terms is read as a change of a numeric fluent only if the terms are operands. -/
theorem meets_durativeAssignment : (durativeAssignment.look levels v).Meets w fun d =>
    p.text = Vocabulary.keyword d.op ∧ ∃ t t', ts = [t, t'] ∧ t.toFluent? = some d.fluent ∧
      (t' = .var durationVariable ∧ d.value = .reference .duration ∨
        ∃ f, t'.toFluent? = some f ∧ d.value = .reference (.fluent f)) := by
  have h := meets_operation hv (ω := AssignOp)
    (fun hts => (along_fluent levels).closed_pair (along_durativeExpression levels) hts)
    fun a => by cases a <;> decide
  exact h.andThen fun d hd => Finding.meets_found hd

/-- A name with terms is read as a conjunction only if the terms are applied. -/
theorem meets_and : (look levels (form "and" (many primitiveEffect)) v).Meets w fun es =>
    p.text = "and" ∧ List.Forall₂ (fun t _ => t.IsApplied) ts es :=
  meets_form hv (fun hts => (along_primitiveEffect levels).closed_many hts) (by decide) (by decide)

end

/-! ### How effects begin -/

section

variable {x y : String} (hv : v.OpensWith x) (hx : IsWord x)

include hv hx

/-- Of two words in front, one goes on like the other. -/
theorem prefix_or_prefix_of_opensWith (hv' : v.OpensWith y) (hy : IsWord y) :
    x.toList <+: y.toList ∨ y.toList <+: x.toList :=
  List.prefix_or_prefix_of_prefix (prefix_of_keywordLength? hx hv.2)
    (prefix_of_keywordLength? hy hv'.2)

theorem look_form_missing_of_opensWith (hy : IsWord y)
    (hne : ¬(x.toList <+: y.toList ∨ y.toList <+: x.toList)) :
    look levels (form y g) v = .missing := by
  refine headedBy_form y g levels v fun z hz hopens => hne ?_
  obtain rfl := List.mem_singleton.1 hz
  exact prefix_or_prefix_of_opensWith hv hx hopens hy

theorem look_durativeAssignment_missing
    (hne : ∀ op : AssignOp, ¬(x.toList <+: (Vocabulary.keyword op).toList ∨
      (Vocabulary.keyword op).toList <+: x.toList)) :
    durativeAssignment.look levels v = .missing := by
  refine look_map_eq_missing.2 (headedBy_operation _ levels v fun z hz hopens => ?_)
  obtain ⟨e, he, rfl⟩ := List.mem_map.1 hz
  obtain ⟨op, -, rfl⟩ := List.mem_map.1 he
  exact hne op (prefix_or_prefix_of_opensWith hv hx hopens (PlainVocabulary.isWord op))

end

theorem opensWith_of_form {x : String} {a : α} (h : look levels (form x g) v = .found w a) :
    v.OpensWith x := by
  obtain ⟨hv, n, u, hn, -⟩ := look_form_eq_found.1 h
  exact ⟨hv, by rw [hn]; rfl⟩

/-! ### Changes of numeric fluents -/

/-- A change of a numeric fluent, with the operand as it is read. -/
def change (operand : Rule α) : Rule (AssignOp × Fluent × α) :=
  Grammar.parens (pair (keyword AssignOp) (pair fluent operand))

/-- Changes in durative actions extend changes. -/
theorem extends_change (levels : Nat) :
    Extends levels (Prod.map id (Prod.map id NumericExpression.toDurative)) (change expression)
      (change durativeExpression) := by
  have hid : ∀ {γ : Type} (g : Rule γ), Extends levels id g g :=
    fun g v => .inl (Finding.tracks_refl _)
  have hoperands :=
    (hid fluent).closed_pair (extends_durativeExpression levels).closed.closed_separated
  exact ((hid (keyword AssignOp)).closed_pair hoperands.closed_separated).parens

theorem look_durativeAssignment : durativeAssignment.look levels v =
    (look levels (change durativeExpression) v).andThen fun w x => .found w ⟨x.1, x.2.1, x.2.2⟩ :=
  rfl

/-- A change of a numeric fluent is one in a durative action as well. -/
theorem look_durativeAssignment_of_change {op : AssignOp} {f : Fluent} {x : NumericExpression}
    (h : look levels (change expression) v = .found w (op, f, x)) :
    durativeAssignment.look levels v = .tooDeep ∨
      durativeAssignment.look levels v = .found w ⟨op, f, x.toDurative⟩ := by
  rw [look_durativeAssignment]
  by_cases htoo : look levels (change durativeExpression) v = .tooDeep
  · exact .inl (by rw [htoo]; rfl)
  · exact .inr (by rw [(extends_change levels v).eq_found h htoo]; rfl)

/-- A name with terms that is no change of a numeric fluent is one in a durative action only by the
duration. -/
theorem meets_change_of_applied {p : Predicate} (hv : Applied levels v w p ts)
    (hchange : look levels (change expression) v = .missing) :
    (durativeAssignment.look levels v).Meets w fun d => p.text = Vocabulary.keyword d.op ∧
      ∃ t, ts = [t, .var durationVariable] ∧ t.toFluent? = some d.fluent ∧
        d.value = .reference .duration := by
  obtain h | ⟨d, hd, hop, t, t', rfl, ht, ⟨rfl, hvalue⟩ | ⟨f, -, hvalue⟩⟩ :=
    meets_durativeAssignment hv
  · exact .inl h
  · exact .inr ⟨d, hd, hop, t, rfl, ht, hvalue⟩
  · rw [look_durativeAssignment] at hd
    obtain ⟨u, ⟨op, f', x⟩, hx, hd⟩ := Finding.andThen_eq_found.1 hd
    obtain ⟨rfl, rfl⟩ := Finding.found.inj hd
    obtain rfl : x = .reference (.fluent f) := hvalue
    obtain ⟨a, ha, -⟩ := (extends_change levels v).exists_found hx
      (by rw [hchange]; exact Finding.missing_ne_tooDeep) ⟨(op, f', .reference f), rfl⟩
    cases hchange.symm.trans ha

/-- An object fluent and its value are terms behind a name. -/
theorem applied_of_assign {f : FunctionTerm}
    (h : look levels (form "assign" (pair functionTerm term)) v = .found w (f, t)) :
    Applied (levels + 1) v w ⟨"assign", by decide⟩ [f.toTerm, t] := by
  obtain ⟨hopen, n, u, hn, hpair, hclose⟩ := look_form_eq_found.1 h
  obtain ⟨y, hf, ht⟩ := look_pair_eq_found.1 hpair
  obtain ⟨hsep, ht⟩ := Reader.separated_eq_found.1 ht
  have hvar : look levels (symbol .var) (v.inside.advance n).skipBlanks = .missing := by
    rw [look_symbol, Terminal.symbolLexeme?_var_eq_none (by rw [head?_of_functionTerm hf]; decide)]
    rfl
  have hterm : term.look (levels + 1) (v.inside.advance n).skipBlanks = .found y f.toTerm :=
    look_call_eq_found.2 ⟨levels, rfl, look_orElse_eq_found.2 (.inr ⟨look_map_eq_missing.2 hvar,
      look_orElse_eq_found.2 (.inl (look_map_eq_found.2 ⟨f, hf, rfl⟩))⟩)⟩
  refine .intro hopen (Terminal.symbolLexeme?_of_keywordLength? rfl (by decide) (by decide) hn)
    (.cons (View.skipBlanks_skipBlanks _) hterm (.cons ?_ (.nil hclose)))
  rw [Reader.separated, if_pos hsep]
  exact look_of_le (Nat.le_succ levels) ht

/-- **What is read as an effect is read as a change of a numeric fluent only if it is written like
one.** -/
theorem meets_change {e : PrimitiveEffect} (h : primitiveEffect.look levels v = .found w e)
    (he : ∀ f, e ≠ .assignObject f none) :
    (durativeAssignment.look levels v).Meets w e.IsChange := by
  obtain h | ⟨-, h⟩ := look_orElse_eq_found.1 h
  · obtain ⟨f, -, rfl⟩ := look_map_eq_found.1 h
    exact absurd rfl (he _)
  obtain h | ⟨hchange, h⟩ := look_orElse_eq_found.1 h
  · obtain ⟨⟨op, f, x⟩, hx, rfl⟩ := look_map_eq_found.1 h
    obtain h | h := look_durativeAssignment_of_change hx
    · exact .inl (.inl h)
    · exact .inr ⟨_, h, .numeric op f x⟩
  -- no change of a numeric fluent is read from here on, so only the duration makes one
  replace hchange : look levels (change expression) v = .missing := look_map_eq_missing.1 hchange
  obtain h | ⟨-, h⟩ := look_orElse_eq_found.1 h
  · obtain ⟨⟨f, t⟩, hf, rfl⟩ := look_map_eq_found.1 h
    have hchange' : look (levels + 1) (change expression) v = .missing := by
      rwa [look_succ _ (by rw [hchange]; exact Finding.missing_ne_tooDeep)]
    -- the function is a term one level deeper
    refine (meets_of_le (Nat.le_succ levels)
      (meets_change_of_applied (applied_of_assign hf) hchange')).mono ?_
    rintro ⟨op, f', x⟩ ⟨hop, t', hts, ht', rfl⟩
    obtain rfl : AssignOp.assign = op := PlainVocabulary.injective _ _ hop
    cases hts
    cases ht'
    exact .assign f
  obtain h | ⟨-, h⟩ := look_orElse_eq_found.1 h
  · obtain ⟨f, hf, rfl⟩ := look_map_eq_found.1 h
    exact .inl (.inr (look_durativeAssignment_missing (opensWith_of_form hf) (by decide)
      fun op => by cases op <;> decide))
  obtain ⟨f, hf, rfl⟩ := look_map_eq_found.1 h
  obtain hf | ⟨-, hf⟩ := look_orElse_eq_found.1 hf
  · obtain ⟨x, hx, rfl⟩ := look_map_eq_found.1 hf
    exact .inl (.inr (look_durativeAssignment_missing (opensWith_of_form hx) (by decide)
      fun op => by cases op <;> decide))
  · obtain ⟨⟨p, ts⟩, hp, rfl⟩ := look_map_eq_found.1 hf
    refine (meets_change_of_applied (applied_of_look hp) hchange).mono ?_
    rintro ⟨op, f, x⟩ ⟨hop, t, rfl, ht, rfl⟩
    exact .formula hop ht

/-! ### Consequents -/

/-- Applied terms behind the keyword are a conjunction. -/
theorem look_and_ne_missing {p : Predicate}
    (hp : look levels (Grammar.parens (headed (symbol .predicate) (many term))) v =
      .found w (p, ts)) (hand : p.text = "and") (hts : ∀ t ∈ ts, t.IsApplied) :
    look levels (form "and" (many primitiveEffect)) v ≠ .missing :=
  (attains_form rfl hand (by decide) hp fun _ _ hu hmany hclose =>
    attains_many (shadows_primitiveEffect levels) (fun _ => misses_close rfl) (List.suffix_refl _)
      hmany hts hu hclose).ne_missing

/-- A single effect is read as a conjunction if it is written like one, and only then. -/
theorem meets_conjunction {e : PrimitiveEffect} (h : primitiveEffect.look levels v = .found w e)
    (hn : ∀ op f x, e ≠ .assignNumeric op f x) :
    (look levels (form "and" (many primitiveEffect)) v).Meets w
        (fun es => ∃ ts, e.IsConjunction ts ∧ es.length = ts.length) ∧
      (look levels (form "and" (many primitiveEffect)) v = .missing →
        ∀ ts, ¬e.IsConjunction ts) := by
  have hopens : ∀ {x : String}, v.OpensWith x → IsWord x →
      ¬(x.toList <+: "and".toList ∨ "and".toList <+: x.toList) →
      (look levels (form "and" (many primitiveEffect)) v).Meets w
        fun es => ∃ ts, e.IsConjunction ts ∧ es.length = ts.length := fun hv hx hne =>
    .inl (.inr (look_form_missing_of_opensWith hv hx (by decide) hne))
  have hreads := readsPrimitive_of_look h
  cases e with
  | assignNumeric op f x => exact absurd rfl (hn op f x)
  | assignObject f t =>
    have hassign : v.OpensWith "assign" := by
      cases t <;> exact opensWith_of_form hreads
    exact ⟨hopens hassign (by decide) (by decide), fun _ _ => nofun⟩
  | delete f => exact ⟨hopens (opensWith_of_form hreads) (by decide) (by decide), fun _ _ => nofun⟩
  | add f =>
    obtain ⟨hf, -⟩ := hreads
    obtain hf | ⟨-, hf⟩ := look_orElse_eq_found.1 hf
    · obtain ⟨x, hx, rfl⟩ := look_map_eq_found.1 hf
      exact ⟨hopens (opensWith_of_form hx) (by decide) (by decide), fun _ _ => nofun⟩
    · obtain ⟨⟨p, ts⟩, hp, rfl⟩ := look_map_eq_found.1 hf
      refine ⟨(meets_and (applied_of_look hp)).mono ?_, fun hmissing ts' => ?_⟩
      · rintro es ⟨hand, hes⟩
        have happlied := hes.imp fun t _ ht => And.intro ht trivial
        exact ⟨ts, .intro hand ((List.forall₂_and_left _ _).1 happlied).1, hes.length_eq.symm⟩
      · rintro ⟨hand, hts⟩
        exact look_and_ne_missing hp hand hts hmissing

/-- An effect that is no change of a numeric fluent is a consequent. -/
theorem look_consequent_of_effect {e : PrimitiveEffect}
    (h : primitiveEffect.look levels v = .found w e) (hn : ∀ op f x, e ≠ .assignNumeric op f x) :
    consequent.look levels v = .tooDeep ∨
      ∃ c, consequent.look levels v = .found w c ∧ ∀ s, e.Becomes s (.at s c) := by
  obtain ⟨hconjunction, hsingle⟩ := meets_conjunction h hn
  rw [consequent, look_orElse, look_map, look_map, h]
  obtain (hand | hand) | ⟨es, hand, ts, hts, hes⟩ := hconjunction <;> rw [hand]
  · exact .inl rfl
  · exact .inr ⟨_, rfl, fun s => .single hn (hsingle hand)⟩
  · exact .inr ⟨_, rfl, fun s => .conjunction hts hes⟩

/-! ### Time points -/

/-- The text of an effect at a time point. -/
def atText (s : TimePoint) (text : List Char) : List Char :=
  oneLine "at" [(Vocabulary.keyword s).toList, text]

/-- Behind the time point, the effect is read in front of the closing parenthesis. -/
theorem exists_look_at (s : TimePoint) {text : List Char} (htext : IsSolid text) (levels : Nat) :
    ∃ b, ∀ {α : Type} (g : Rule α),
      look levels (form "at" (pair (keyword TimePoint) g)) ⟨none, atText s text⟩ =
        (look levels (closed g) ⟨b, text ++ [')']⟩).andThen fun w a => .found w (s, a) := by
  have hsolid : IsSolid (Vocabulary.keyword s).toList :=
    (isHead_of_isWord (PlainVocabulary.isWord s)).solid
  have hat : IsHead "at" := isHead_of_isWord (by decide)
  have hgap : Delimited ([' '] ++ (text ++ [')'])) := isGap_blank.delimited _
  have hrest : atText s text = '(' :: ("at".toList ++ ([' '] ++ ((Vocabulary.keyword s).toList ++
      ([' '] ++ (text ++ [')']))))) := by
    simp [atText, oneLine, enclose]
  have hinside : View.inside ⟨none, atText s text⟩ = ⟨some '(', "at".toList ++ ([' '] ++
      ((Vocabulary.keyword s).toList ++ ([' '] ++ (text ++ [')']))))⟩ := by
    rw [hrest]
    exact View.skipBlanks_of_isSolid (hat.solid.append _)
  obtain ⟨b₁, h₁⟩ := look_word hat (isGap_blank.delimited ((Vocabulary.keyword s).toList ++
    ([' '] ++ (text ++ [')'])))) levels (some '(')
  obtain ⟨b₂, h₂⟩ := View.exists_skipBlanks_gap isGap_blank
    (hsolid.append ([' '] ++ (text ++ [')']))) b₁
  obtain ⟨b₃, h₃⟩ : ∃ b, look levels (keyword TimePoint) ⟨b₂, (Vocabulary.keyword s).toList ++
      ([' '] ++ (text ++ [')']))⟩ = .found ⟨b, [' '] ++ (text ++ [')'])⟩ s := by
    obtain h | ⟨b, _, h, rfl⟩ := (recovers_keyword s).reads hgap levels b₂
    · obtain h' | ⟨_, _, h'⟩ := look_terminal (.oneOf (Vocabulary.entries TimePoint)) levels
        ⟨b₂, (Vocabulary.keyword s).toList ++ ([' '] ++ (text ++ [')']))⟩ <;> cases h'.symm.trans h
    · exact ⟨b, h⟩
  obtain ⟨b₄, h₄⟩ := View.exists_skipBlanks_gap isGap_blank (htext.append [')']) b₃
  refine ⟨b₄, fun g => ?_⟩
  rw [form, look_parens_closed (by rw [hrest]; rfl), hinside, look_closed_word, h₁, Finding.andThen,
    h₂, look_closed_pair, h₃, Finding.andThen, look_closed_separated, Reader.separated,
    if_pos (View.separates_gap isGap_blank (htext.append [')']) b₃), h₄]

theorem isEnclosed_primitiveEffect : IsEnclosed primitiveEffect :=
  ⟨Grammar.settled_of_flagFree (by simp), by decide, rfl⟩

/-- **An effect keeps its meaning at a time point.** -/
theorem look_timedEffect {e : PrimitiveEffect} {text : List Char} (htext : IsSolid text)
    (h : ∀ b, primitiveEffect.look levels ⟨b, text ++ [')']⟩ = .found ⟨some ')', [')']⟩ e)
    (he : ∀ f, e ≠ .assignObject f none) (s : TimePoint) :
    (timedEffect.look levels ⟨none, atText s text⟩).Leaves [] (e.Becomes s) := by
  obtain ⟨b, hb⟩ := exists_look_at s htext levels
  have hclose : View.Closes ⟨some ')', [')']⟩ ⟨some ')', []⟩ :=
    ⟨[], by rw [View.skipBlanks_close], rfl⟩
  rw [timedEffect, look_orElse, look_map, hb, look_closed]
  obtain (hchange | hchange) | ⟨d, hchange, hd⟩ := meets_change (h b) he <;> rw [hchange]
  · exact .inl rfl
  · have hn : ∀ op f x, e ≠ .assignNumeric op f x := by
      rintro op f x rfl
      obtain h' | h' := look_durativeAssignment_of_change (readsPrimitive_of_look (h b)) <;>
        cases hchange.symm.trans h'
    rw [look_orElse, look_map, hb, look_closed]
    obtain hconsequent | ⟨c, hconsequent, hc⟩ := look_consequent_of_effect (h b) hn <;>
      rw [hconsequent]
    · exact .inl rfl
    · simp only [Finding.andThen, look_close_of_closes hclose, Finding.orElse]
      exact Finding.leaves_found (hc s)
  · simp only [Finding.andThen, look_close_of_closes hclose, Finding.orElse]
    exact Finding.leaves_found (.change hd)

/-! ### Effects as parts -/

section

variable {ω : Type} {gap s : List Char} {head : String} {parts : List (List Char)} {a : α}
  {ceiling : Nat}

/-- What a construct in parentheses does not read is missing. -/
theorem missesText_parens_of_stallsAt (hh : IsSolid head.toList)
    (hg : g.StallsAt [' '] (head.toList :: parts)) :
    MissesText (Grammar.parens g) (oneLine head parts) := fun r _ => by
  have h := hg.stalls r
  rw [intercalate_cons, List.append_assoc] at h
  exact misses_parens_enclose hh h

/-- A text from which a construct is read back is a part. -/
def Recovers.part (h : g.Recovers s (· = a)) (hg : g.Settled)
    (hdeep : ∀ limit offset,
      g.parse (Cursor.ofText s ceiling) ≠ .error (.tooDeep limit offset)) : Part g ceiling where
  text := s
  value := a
  whole := by
    have hlook := h.reads .nil ceiling none
    rw [List.append_nil] at hlook
    obtain ⟨d, _, hd, rfl, hrest⟩ := parse_of_leaves hg hlook hdeep
    exact ⟨d, hd, hrest⟩

end

/-- **A variable is assigned to an object fluent**, as it is no number. -/
theorem recovers_assign_variable (f : Fluent) (x : Variable) :
    Recovers primitiveEffect (oneLine "assign" [spelling f, spelling x])
      (· = .assignObject ⟨f.symbol, f.arguments⟩ (some (.var x))) := by
  have hassign : IsHead "assign" := isHead_of_isWord (by decide)
  have hfunction : Recovers functionTerm (spelling f) (· = ⟨f.symbol, f.arguments⟩) := by
    have h := recovers_functionTerm ⟨f.symbol, f.arguments⟩
    rwa [show spelling (⟨f.symbol, f.arguments⟩ : FunctionTerm) = spelling f from
      Term.spelling_apply f.symbol f.arguments] at h
  have hsolid : IsSolid (spelling x) := (recovers_symbol x).solid
  have hhead : ∀ r, (spelling x ++ r).head? = some '?' := fun r => by
    rw [show spelling x = ("?" ++ x.text).toList from rfl, String.toList_append]
    rfl
  have hundefined : StallsAt (pair functionTerm (word "undefined")) [' ']
      [spelling f, spelling x] :=
    stallsAt_pair (hfunction.decides trivial) (stallsAt_of_missesText isGap_blank hsolid
      (fun r _ => misses_word_of_head (by decide) (by rw [hhead]; decide)) [])
  have hchange : StallsAt (pair (keyword AssignOp) (pair fluent expression)) [' ']
      ["assign".toList, spelling f, spelling x] :=
    stallsAt_pair ((recovers_keyword AssignOp.assign).decides trivial)
      (stallsAt_pair ((recovers_fluent f).decides trivial)
        (stallsAt_of_missesText isGap_blank hsolid
          (missesText_call (n := .expression) fun r _ => misses_expressionForms (hhead r)) []))
  refine .behind (missesText_form_of_stallsAt hassign hundefined).map
    (.behind (missesText_parens_of_stallsAt hassign.solid hchange).map (.left ?_))
  have hvalue := recovers_term (.var x)
  exact (recovers_form hassign (.pair_eq hfunction (.one isGap_blank hvalue))).congr _

/-- At a time point, the duration is assigned to a numeric fluent. -/
theorem recovers_at_assign_duration (s : TimePoint) (f : Fluent) :
    Recovers timedEffect (atText s (oneLine "assign" [spelling f, "?duration".toList]))
      (· = .assignAt s ⟨.assign, f, .reference .duration⟩) := by
  have hduration : Recovers durativeExpression "?duration".toList (· = .reference .duration) :=
    recovers_call (.left ((recovers_word (by decide)).map fun _ _ => rfl))
  have hassign : Recovers durativeAssignment (oneLine "assign" [spelling f, "?duration".toList])
      (· = ⟨.assign, f, .reference .duration⟩) :=
    (recovers_pair_eq (recovers_keyword AssignOp.assign)
      (.pair_eq (recovers_fluent f) (.one isGap_blank hduration))).congr _
  exact .left ((recovers_form (isHead_of_isWord (by decide))
    (.pair_eq (recovers_keyword s) (.one isGap_blank hassign))).congr _)

variable {ceiling : Nat}

/-- **An effect keeps its meaning at a time point.**  A text that is read completely as an effect is
read at a time point as well, unless it is too deep there.  A change of a numeric fluent becomes the
same change in a durative action, and any other effect stays what it is; only what is written like a
conjunction becomes the effects of one, and what is written like a change by the duration may become
that change. -/
theorem parse_timedEffect (p : Part primitiveEffect ceiling)
    (hp : ∀ f, p.value ≠ .assignObject f none) (s : TimePoint) (ceiling' : Nat)
    (hdeep : ∀ limit offset, timedEffect.parse (Cursor.ofText (atText s p.text) ceiling') ≠
      .error (.tooDeep limit offset)) :
    ∃ d t, timedEffect.parse (Cursor.ofText (atText s p.text) ceiling') = .ok (d, t) ∧
      p.value.Becomes s t ∧ d.rest = [] := by
  have hsettled : Settled timedEffect := settled_of_flagFree (by simp)
  obtain ⟨text, htext⟩ := p.exists_text isEnclosed_primitiveEffect
  have hsolid : IsSolid p.text := ⟨'(', text, htext, by decide, by decide, by decide⟩
  -- both readings are the ones on the larger number of levels
  have hlook : ∀ b, primitiveEffect.look (max ceiling ceiling') ⟨b, p.text ++ [')']⟩ =
      .found ⟨some ')', [')']⟩ p.value := fun b =>
    look_of_le (le_max_left ceiling ceiling') (p.look isEnclosed_primitiveEffect rfl)
  exact parse_of_leaves hsettled (of_look_le (.inl rfl) (le_max_right ceiling ceiling')
    (look_timedEffect hsolid hlook hp s)) hdeep

/-- A variable of another name is assigned to an object fluent at a time point as well. -/
theorem parse_timedEffect_variable :
    let f : FunctionTerm := ⟨⟨"f", by decide⟩, []⟩
    let x : Variable := ⟨"x", by decide⟩
    ∃ p : Part primitiveEffect 20, p.text = "(assign (f) ?x)".toList ∧
      p.value = .assignObject f (some (.var x)) ∧
      ∃ d, timedEffect.parse (Cursor.ofText "(at end (assign (f) ?x))".toList 20) =
        .ok (d, .at .finish ⟨[p.value]⟩) ∧ d.rest = [] := by
  intro f x
  let p : Part primitiveEffect 20 := (recovers_assign_variable ⟨f.symbol, f.arguments⟩ x).part
    (settled_of_named .primitiveEffect) (parse_ne_tooDeep .primitiveEffect (by decide +kernel))
  have htext : p.text = "(assign (f) ?x)".toList := by decide +kernel
  have hat : atText .finish p.text = "(at end (assign (f) ?x))".toList := by decide +kernel
  have hsome : ∀ f', p.value ≠ .assignObject f' none := fun f' h =>
    Option.some_ne_none _ (PrimitiveEffect.assignObject.inj h).2
  obtain ⟨d, t, hd, ht, hrest⟩ := parse_timedEffect p hsome .finish 20
    (parse_ne_tooDeep .timedEffect (by rw [hat]; decide +kernel))
  rw [hat] at hd
  obtain rfl : t = .at .finish ⟨[p.value]⟩ := by
    cases ht with
    | change h =>
      have hx : x = durationVariable := Term.var.inj h.eq_duration
      exact absurd (congrArg Symbol.text hx) (by decide)
    | single hn hc => rfl
    | conjunction h hes => cases h
  exact ⟨p, htext, rfl, d, hd, hrest⟩

/-- What is assigned to an object fluent in an effect may be assigned to a numeric fluent at a time
point: a variable has the name of the duration. -/
theorem parse_timedEffect_duration :
    let f : FunctionTerm := ⟨⟨"f", by decide⟩, []⟩
    ∃ p : Part primitiveEffect 20, p.text = "(assign (f) ?duration)".toList ∧
      p.value = .assignObject f (some (.var durationVariable)) ∧
      ∃ d, timedEffect.parse (Cursor.ofText "(at start (assign (f) ?duration))".toList 20) =
        .ok (d, .assignAt .start ⟨.assign, ⟨f.symbol, f.arguments⟩, .reference .duration⟩) ∧
        d.rest = [] := by
  intro f
  let p : Part primitiveEffect 20 :=
    (recovers_assign_variable ⟨f.symbol, f.arguments⟩ durationVariable).part
      (settled_of_named .primitiveEffect) (parse_ne_tooDeep .primitiveEffect (by decide +kernel))
  let q : Part timedEffect 20 := (recovers_at_assign_duration .start ⟨f.symbol, f.arguments⟩).part
    (settled_of_named .timedEffect) (parse_ne_tooDeep .timedEffect (by decide +kernel))
  have hp : p.text = "(assign (f) ?duration)".toList := by decide +kernel
  have hq : q.text = "(at start (assign (f) ?duration))".toList := by decide +kernel
  obtain ⟨d, hd, hrest⟩ := q.whole
  rw [hq] at hd
  exact ⟨p, hp, rfl, d, hd, hrest⟩

end Rule

end Pddl
