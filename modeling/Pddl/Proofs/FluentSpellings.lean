import Pddl.Proofs.FluentForms
import Pddl.Proofs.TimedEffects

/-!
# Spellings of numeric fluents without arguments

A numeric fluent without arguments may be written in the other form, with or without parentheses,
wherever it stands in an expression, in the expression of a metric, in an effect or in the initial
state, unless it is then written like something else: like the total time in a metric, or like an
object fluent that becomes undefined in an effect.

* `Rule.Change`, `Rule.Value` : a change of a numeric fluent and its value, as they stand in a text;
  `Rule.Change.exchange_target`, `Rule.Change.exchange_value`, `Rule.Value.exchange` : they remain
  the same if the fluent or an operand is exchanged.
* `Rule.FluentAt` : where a fluent without arguments stands in a construct that is read;
  `Rule.exists_fluentAt` : **every fluent without arguments stands somewhere.**
* `Rule.Obstacle` : what stands in the way of the other form.
* `Rule.parse_respelled` : **a fluent without arguments may be spelled otherwise.**
* `Rule.parse_objectValue_bare` : an object fluent with a value keeps its parentheses.
-/

namespace Pddl

/-! ### Certain findings -/

namespace Finding

variable {α β : Type} {o : Finding α} {k : View → α → Finding β}

/-- The construct is there or missing. -/
def Certain (o : Finding α) : Prop := o = .missing ∨ ∃ w a, o = .found w a

theorem Certain.andThen (h : o.Certain) (hk : ∀ w a, o = .found w a → (k w a).Certain) :
    (o.andThen k).Certain := by
  obtain rfl | ⟨w, a, rfl⟩ := h
  · exact .inl rfl
  · exact hk w a rfl

end Finding

/-! ### Constructs with numeric fluents -/

/-- The constructs in which numeric fluents may stand without arguments. -/
inductive FluentScope where
  /-- Expressions. -/
  | expression
  /-- Expressions of metrics. -/
  | metric
  /-- Effects without conditions. -/
  | effect
  /-- Elements of the initial state. -/
  | fact

namespace FluentScope

/-- The type of these constructs. -/
abbrev Construct : FluentScope → Type
  | expression => NumericExpression
  | metric => MetricExpression
  | effect => PrimitiveEffect
  | fact => InitialFact

/-- The rule of these constructs. -/
def rule : (σ : FluentScope) → Rule σ.Construct
  | expression => Rule.expression
  | metric => Rule.metricExpression
  | effect => Rule.primitiveEffect
  | fact => Rule.initialFact

end FluentScope

namespace Rule

open Grammar

variable {α β : Type} {levels k : Nat} {deep : Prop} {g : Rule α} {h : Rule β} {f : FunctionSymbol}
  {φ : FluentForm} {front back lead trail : Spacing} {u v w x y z : View} {a : α} {b : β}
  {p q r s : List Char}

/-! ### Changes of numeric fluents -/

theorem eq_of_prefix_assignOp (x y : AssignOp)
    (h : (Vocabulary.keyword x).toList <+: (Vocabulary.keyword y).toList) : x = y := by
  cases x <;> cases y <;> first | rfl | exact absurd h (by decide)

/-- An object fluent that becomes undefined. -/
def undefining : Rule (FunctionTerm × Unit) :=
  form "assign" (pair functionTerm (word "undefined"))

/-- A change of a numeric fluent stands between the views. -/
inductive Change (deep : Prop) (levels : Nat) (v w : View) (op : AssignOp) (t : Fluent)
    (e : NumericExpression) : Prop where
  | intro {x y z : View} (hopen : v.rest.head? = some '(')
    (hop : look levels (keyword AssignOp) v.inside = .found x op) (hsep : x.separates = true)
    (ht : fluent.look levels x.skipBlanks = .found y t)
    (he : (Reader.separated (expression.look levels) y).Reaches deep z e) (hclose : z.Closes w)

section

variable {op : AssignOp} {t : Fluent} {e : NumericExpression}

theorem Change.opens (hc : Change deep levels v w op t e) : v.rest.head? = some '(' := by
  obtain ⟨hopen, -, -, -, -, -⟩ := hc
  exact hopen

/-- The expression of a change takes a level. -/
theorem Change.exists_succ (hc : Change False levels v w op t e) : ∃ k, levels = k + 1 := by
  obtain @⟨_, _, _, -, -, -, -, he, -⟩ := hc
  obtain ⟨-, he⟩ := Reader.separated_eq_found.1 (Finding.reaches_false.1 he)
  obtain ⟨k, hk, -⟩ := look_call_eq_found.1 he
  exact ⟨k, hk⟩

theorem change_of_look (h : primitiveEffect.look levels v = .found w (.assignNumeric op t e)) :
    Change False levels v w op t e := by
  obtain h | ⟨-, h⟩ := look_orElse_eq_found.1 h
  · obtain ⟨x, -, hx⟩ := look_map_eq_found.1 h
    cases hx
  obtain h | ⟨-, h⟩ := look_orElse_eq_found.1 h
  · obtain ⟨⟨op, t, e⟩, hx, heq⟩ := look_map_eq_found.1 h
    cases heq
    obtain ⟨hopen, u, hu, hclose⟩ := look_parens_eq_found.1 hx
    obtain ⟨x, hop, hx⟩ := look_pair_eq_found.1 hu
    obtain ⟨hsep, hx⟩ := Reader.separated_eq_found.1 hx
    obtain ⟨y, ht, he⟩ := look_pair_eq_found.1 hx
    exact .intro hopen hop hsep ht (.inl he) hclose
  obtain h | ⟨-, h⟩ := look_orElse_eq_found.1 h
  · obtain ⟨x, -, hx⟩ := look_map_eq_found.1 h
    cases hx
  obtain h | ⟨-, h⟩ := look_orElse_eq_found.1 h <;> obtain ⟨x, -, hx⟩ := look_map_eq_found.1 h <;>
    cases hx

/-- Where a fluent is read, a function applied to terms is there or missing. -/
theorem certain_functionTerm (h : fluent.look levels v = .found w t) :
    (functionTerm.look levels v).Certain := by
  by_cases hopen : v.rest.head? = some '('
  · right
    obtain h | ⟨-, h⟩ := look_orElse_eq_found.1 h
    · rw [look_map, look_symbol_missing_of_head rfl (by rw [hopen]; rfl)] at h
      cases h
    · obtain ⟨x, hx, -⟩ := look_map_eq_found.1 h
      obtain ⟨-, u, hu, hclose⟩ := look_parens_eq_found.1 hx
      exact ⟨w, _, look_map_eq_found.2
        ⟨x, look_parens_eq_found.2 ⟨hopen, u, look_headed_of_pair hu, hclose⟩, rfl⟩⟩
  · exact .inl (look_map_eq_missing.2 (look_parens_missing hopen))

theorem certain_closed_separated_terminal (x : Terminal α) (v : View) :
    (look levels (closed (separated (terminal x))) v).Certain := by
  rw [look_closed_separated, Reader.separated]
  split
  · rw [look_closed]
    exact Finding.Certain.andThen (look_terminal x levels v.skipBlanks) fun w a _ =>
      Finding.Certain.andThen (look_terminal (.char ')') levels w.skipBlanks) fun w' _ _ =>
        .inr ⟨w', a, rfl⟩
  · exact .inl rfl

/-- Where a fluent is changed, an object fluent becomes undefined or does not. -/
theorem Change.certain_undefining (hc : Change deep levels v w op t e) :
    (undefining.look levels v).Certain := by
  obtain @⟨x, y, z, hopen, hop, hsep, ht, he, hclose⟩ := hc
  rw [undefining, form, look_parens_closed hopen, look_closed_word]
  refine Finding.Certain.andThen (look_terminal (.word "assign") levels v.inside)
    fun x' _ hword => ?_
  -- the word is the one of the change, so both stand in front of the same
  obtain ⟨hx, hbefore⟩ := rest_of_look_keyword hop
  obtain ⟨hx', hbefore'⟩ := rest_of_look_word (by decide) hword
  obtain rfl : op = .assign := by
    obtain h | h := List.prefix_or_prefix_of_prefix
      (hx ▸ List.prefix_append _ x.rest) (hx' ▸ List.prefix_append _ x'.rest)
    · exact eq_of_prefix_assignOp op .assign h
    · exact (eq_of_prefix_assignOp .assign op h).symm
  obtain rfl : x' = x := by
    obtain ⟨b, r⟩ := x
    obtain ⟨b', r'⟩ := x'
    obtain rfl : b' = b := hbefore'.trans hbefore.symm
    exact congrArg (View.mk b') (List.append_cancel_left (hx'.symm.trans hx))
  rw [look_closed_pair]
  exact (certain_functionTerm ht).andThen fun u a _ =>
    (certain_closed_separated_terminal _ u).andThen fun w b _ => .inr ⟨w, _, rfl⟩

/-- A change of a numeric fluent is read as such, if no object fluent becomes undefined. -/
theorem Change.reaches (hc : Change deep levels v w op t e)
    (hno : ∀ u x, undefining.look levels v ≠ .found u x) :
    (primitiveEffect.look levels v).Reaches deep w (.assignNumeric op t e) := by
  have hmissing : undefining.look levels v = .missing :=
    hc.certain_undefining.resolve_right fun ⟨u, x, h⟩ => hno u x h
  rw [primitiveEffect, look_orElse]
  refine .of_missing (look_map_eq_missing.2 hmissing) (.orElse ?_)
  obtain @⟨x, y, z, hopen, hop, hsep, ht, he, hclose⟩ := hc
  refine reaches_map (a := (op, t, e)) ?_
  rw [look_parens_closed hopen, look_closed_pair, hop, Finding.andThen, look_closed_separated,
    Reader.separated, if_pos hsep, look_closed_pair, ht, Finding.andThen, look_closed,
    look_separated]
  refine (((he.andThen (b := e) ?_).andThen (b := (t, e)) (Finding.reaches_found w _)).andThen
    (Finding.reaches_found w _))
  rw [look_close_of_closes hclose]
  exact Finding.reaches_found w e


/-- **A change remains the same if its fluent is exchanged.** -/
theorem Change.exchange_target (hc : Change False levels v w op t e)
    (hop : look levels (keyword AssignOp) v.inside = .found x op)
    (ht : fluent.look levels x.skipBlanks = .found y t) (hs : Exchanges False levels fluent y t s)
    (hp : v.rest = p ++ x.skipBlanks.rest) (hoff : SetOff (p ++ front.chars) s) (b : Option Char) :
    Change deep levels ⟨b, p ++ (front.chars ++ s)⟩ w op t e := by
  obtain @⟨_, _, z, hopen, hop', -, ht', he, hclose⟩ := hc
  obtain ⟨rfl, -⟩ := Finding.found.inj (hop.symm.trans hop')
  obtain ⟨rfl, -⟩ := Finding.found.inj (ht.symm.trans ht')
  have he := Finding.reaches_false.1 he
  obtain ⟨k, rfl, -⟩ := look_call_eq_found.1 (Reader.separated_eq_found.1 he).2
  obtain ⟨q, hq, hhead, hlast, hkeyword⟩ :=
    exists_look_keyword_inside eq_of_prefix_assignOp hopen hop
  have hne := isElement_fluent.ne_nil ht
  obtain ⟨gap, hgap⟩ := View.exists_spacing hne
  obtain rfl : p = q ++ gap.chars := View.eq_append_of_rest hp hq hgap
  rw [List.append_assoc] at hoff ⊢
  obtain ⟨hsep, y', ht', he'⟩ := exists_exchanged_first isElement_expression hne hs he
    hclose.separates hgap (hoff.of_append hlast)
  refine .intro ?_ (hkeyword b hsep) hsep ht' (.inl he') hclose
  obtain ⟨c, rfl⟩ := List.head?_eq_some_iff.1 hhead
  rfl

/-- **A change remains the same if its operand is exchanged.** -/
theorem Change.exchange_value (hc : Change False levels v w op t e)
    (hop : look levels (keyword AssignOp) v.inside = .found x op)
    (ht : fluent.look levels x.skipBlanks = .found y t)
    (he : expression.look levels y.skipBlanks = .found z e)
    (hs : Exchanges deep levels expression z e s) (hp : v.rest = p ++ y.skipBlanks.rest)
    (hoff : SetOff (p ++ front.chars) s) (b : Option Char) :
    Change deep levels ⟨b, p ++ (front.chars ++ s)⟩ w op t e := by
  obtain @⟨_, _, _, hopen, hop', hsep, ht', he', hclose⟩ := hc
  obtain ⟨rfl, -⟩ := Finding.found.inj (hop.symm.trans hop')
  obtain ⟨rfl, -⟩ := Finding.found.inj (ht.symm.trans ht')
  obtain ⟨rfl, -⟩ := Finding.found.inj
    (he.symm.trans (Reader.separated_eq_found.1 (Finding.reaches_false.1 he')).2)
  obtain ⟨k, rfl, -⟩ := look_call_eq_found.1 he
  obtain ⟨q, hq, hhead, hlast, hkeyword⟩ :=
    exists_look_keyword_inside eq_of_prefix_assignOp hopen hop
  obtain ⟨q', hq', -⟩ := isElement_fluent.exists_look_behind hsep ht
  have hne := isElement_expression.ne_nil he
  obtain ⟨gap, hgap⟩ := View.exists_spacing hne
  have hrest : x.rest = (q' ++ gap.chars) ++ y.skipBlanks.rest := by
    rw [hq', List.append_assoc, ← hgap]
  obtain rfl : p = q ++ (q' ++ gap.chars) := View.eq_append_of_rest hp hq hrest
  rw [List.append_assoc] at hoff ⊢
  obtain ⟨hsep, y', z', back, ht', he', hback⟩ := exists_exchanged_second isElement_fluent hsep ht
    hne hs hrest (hoff.of_append hlast)
  refine .intro ?_ (hkeyword b hsep) hsep ht' he' (hclose.behind_spacing hback)
  obtain ⟨c, rfl⟩ := List.head?_eq_some_iff.1 hhead
  rfl

end

/-! ### Values of numeric fluents -/

/-- The value of a numeric fluent stands between the views. -/
inductive Value (levels : Nat) (v w : View) (t : GroundTerm) (c : Number) : Prop where
  | intro {x y z : View} (hopen : v.rest.head? = some '(')
    (hword : look levels (word "=") v.inside = .found x ())
    (ht : groundTerm.look levels x.skipBlanks = .found y t)
    (hc : Reader.separated (look levels number) y = .found z c) (hclose : z.Closes w)

section

variable {t : GroundTerm} {c : Number}

theorem Value.opens (hv : Value levels v w t c) : v.rest.head? = some '(' := by
  obtain ⟨hopen, -, -, -, -⟩ := hv
  exact hopen

theorem value_of_look (h : initialFact.look levels v = .found w (.numeric t c)) :
    Value levels v w t c := by
  obtain h | ⟨-, h⟩ := look_orElse_eq_found.1 h
  · obtain ⟨x, -, hx⟩ := look_map_eq_found.1 h
    cases hx
  obtain h | ⟨-, h⟩ := look_orElse_eq_found.1 h
  · obtain ⟨x, -, hx⟩ := look_map_eq_found.1 h
    cases hx
  obtain h | ⟨-, h⟩ := look_orElse_eq_found.1 h
  · obtain ⟨⟨t, c⟩, hx, heq⟩ := look_map_eq_found.1 h
    cases heq
    obtain ⟨hopen, n, u, hn, hu, hclose⟩ := look_form_eq_found.1 hx
    obtain ⟨y, ht, hc⟩ := look_pair_eq_found.1 hu
    refine .intro (x := v.inside.advance n) hopen ?_ ht hc hclose
    rw [look_word_eq, hn]
    rfl
  · obtain ⟨x, -, hx⟩ := look_map_eq_found.1 h
    cases hx

theorem look_form_missing_of_head {x : String} (hx : IsWord x)
    (hv : v.inside.rest.head? ≠ x.toList.head?) : look levels (form x h) v = .missing := by
  by_cases hopen : v.rest.head? = some '('
  · rw [form, look_parens_closed hopen, look_closed_word, look_word_missing hx hv]
    rfl
  · exact look_parens_missing hopen

/-- The value of a fluent is no equality of names: a number is no name. -/
theorem Value.look_equality (hv : Value levels v w t c) :
    look levels (form "=" (pair (symbol .name) (symbol .name))) v = .missing := by
  obtain @⟨x, y, z, hopen, hword, ht, hc, hclose⟩ := hv
  rw [form, look_parens_closed hopen, look_closed_word, hword, Finding.andThen, look_closed_pair]
  obtain ht | ⟨-, ht⟩ := look_orElse_eq_found.1 ht
  · obtain ⟨f, hf, -⟩ := look_map_eq_found.1 ht
    obtain ⟨hsep, hc⟩ := Reader.separated_eq_found.1 hc
    have hname : look levels (symbol .name) y.skipBlanks = .missing := by
      refine look_symbol_missing_of_head rfl ?_
      by_contra hstart
      have hdigit : y.skipBlanks.rest.head?.any Char.isDigit = false := by
        rcases hd : y.skipBlanks.rest.head? with _ | d
        · rfl
        · exact isDigit_eq_false_of_isNameStart (by simpa [hd] using hstart)
      rw [look_number_missing hdigit] at hc
      cases hc
    have hsigil : SymbolKind.name.sigil = SymbolKind.function.sigil := rfl
    rw [look_symbol_of_kind hsigil hf, Finding.andThen, look_closed_separated, Reader.separated,
      if_pos hsep, look_closed, hname]
    rfl
  · obtain ⟨_, ht, -⟩ := look_map_eq_found.1 ht
    have hopen := (look_parens_eq_found.1 ht).1
    rw [look_symbol_missing_of_head rfl (by rw [hopen]; rfl)]
    rfl

/-- The value of a fluent is read as such. -/
theorem Value.look_initialFact (hv : Value levels v w t c) :
    initialFact.look levels v = .found w (.numeric t c) := by
  have hequality := hv.look_equality
  obtain @⟨x, y, z, hopen, hword, ht, hc, hclose⟩ := hv
  have hhead : v.inside.rest.head? = some '=' := by
    rw [(rest_of_look_word (by decide) hword).1]
    rfl
  have hpredicate : look levels (Grammar.parens (headed (symbol .predicate)
      (many (symbol .name)))) v = .missing := by
    rw [look_parens_closed hopen, look_closed, look_headed,
      look_symbol_missing_of_head rfl (by rw [hhead]; rfl)]
    rfl
  have hliteral : groundLiteral.look levels v = .missing := by
    rw [groundLiteral, literalOf, look_orElse_eq_missing, look_map_eq_missing, look_map_eq_missing,
      atomicFormulaOf, look_orElse_eq_missing, look_map_eq_missing, look_map_eq_missing]
    exact ⟨look_form_missing_of_head (by decide) (by rw [hhead]; decide), hequality, hpredicate⟩
  obtain ⟨n, hn, hx⟩ := lexeme_eq_found.1 (look_word_eq.symm.trans hword)
  obtain ⟨n, hn, heq⟩ := Option.map_eq_some_iff.1 hn
  cases heq
  refine look_orElse_eq_found.2 (.inr ⟨look_map_eq_missing.2 hliteral, look_orElse_eq_found.2
    (.inr ⟨look_map_eq_missing.2 ?_, look_orElse_eq_found.2 (.inl (look_map_eq_found.2
      ⟨(t, c), look_form_eq_found.2 ⟨hopen, n, z, hn, ?_, hclose⟩, rfl⟩))⟩)⟩)
  · exact look_form_missing_of_head (by decide) (by rw [hhead]; decide)
  · exact look_pair_eq_found.2 ⟨y, hx ▸ ht, hc⟩

/-- **The value of a fluent remains the same if the fluent is exchanged.** -/
theorem Value.exchange (hv : Value levels v w t c)
    (hword : look levels (word "=") v.inside = .found x ())
    (ht : groundTerm.look levels x.skipBlanks = .found y t)
    (hs : Exchanges False levels groundTerm y t s) (hp : v.rest = p ++ x.skipBlanks.rest)
    (hoff : SetOff (p ++ front.chars) s) (b : Option Char) :
    Value levels ⟨b, p ++ (front.chars ++ s)⟩ w t c := by
  obtain @⟨_, _, z, hopen, hword', ht', hc, hclose⟩ := hv
  obtain ⟨rfl, -⟩ := Finding.found.inj (hword.symm.trans hword')
  obtain ⟨rfl, -⟩ := Finding.found.inj (ht.symm.trans ht')
  obtain ⟨q, hq, hhead, hlast, hinside⟩ := exists_look_word_inside (by decide) hopen hword
  have hne := isElement_groundTerm.ne_nil ht
  obtain ⟨gap, hgap⟩ := View.exists_spacing hne
  obtain rfl : p = q ++ gap.chars := View.eq_append_of_rest hp hq hgap
  rw [List.append_assoc] at hoff ⊢
  obtain ⟨hsep, y', ht', hc'⟩ := exists_exchanged_first isElement_number hne hs hc
    hclose.separates hgap (hoff.of_append hlast)
  refine .intro ?_ (hinside b hsep) ht' hc' hclose
  obtain ⟨d, rfl⟩ := List.head?_eq_some_iff.1 hhead
  rfl

end

/-! ### Where a fluent stands -/

section

variable {ρ : Type} {n : Nonterminal (Expression ρ)} {op : ArithmeticOp} {e : Expression ρ}
  {es : List (Expression ρ)} {t : ρ}

/-- What an operation refers to, one of its operands does. -/
theorem exists_operand_of_mem_references (h : Expression.Applies op es e) (ht : t ∈ e.references) :
    ∃ e' ∈ es, t ∈ e'.references := by
  have hall : ∀ es : List (Expression ρ), t ∈ Expression.referencesOfAll es →
      ∃ e' ∈ es, t ∈ e'.references := by
    intro es ht
    induction es with
    | nil => cases ht
    | cons e es ih =>
      obtain ht | ht := List.mem_append.1 ht
      · exact ⟨e, by simp, ht⟩
      · obtain ⟨e', he', ht⟩ := ih ht
        exact ⟨e', by simp [he'], ht⟩
  cases h with
  | negative e => exact ⟨e, by simp, ht⟩
  | binary op l r =>
    obtain ht | ht := List.mem_append.1 ht
    · exact ⟨l, by simp, ht⟩
    · exact ⟨r, by simp, ht⟩
  | sum e h => exact hall _ ht
  | product e h => exact hall _ ht

/-- What an expression refers to stands inside it as an operand. -/
theorem exists_within (hcases : ∀ {k u w e}, look (k + 1) (call n) u = .found w e →
      (∃ x, e = .number x) ∨ (arithmetic (call n)).look k u = .found w e ∨ ∃ t, e = .reference t)
    (h : look levels (call n) v = .found w e) (ht : t ∈ e.references) :
    ∃ k u w', Within n levels v k u ∧ look k (call n) u = .found w' (.reference t) := by
  induction levels generalizing v w e with
  | zero => cases h
  | succ levels ih =>
    obtain ⟨x, rfl⟩ | harithmetic | ⟨t', rfl⟩ := hcases h
    · cases ht
    · obtain ⟨-, op, x, e₁, es, hop, helements, he⟩ := exists_of_look_arithmetic harithmetic
      obtain ⟨e', he', ht⟩ := exists_operand_of_mem_references (Expression.applies_iff.2 he) ht
      obtain ⟨y, z, hat, hy⟩ := helements.exists_elementAt he'
      obtain ⟨k, u, w', hwithin, hu⟩ := ih hy ht
      exact ⟨k, u, w', .inside harithmetic hop hat hwithin, hu⟩
    · obtain rfl := List.mem_singleton.1 ht
      exact ⟨levels + 1, v, w, .here _ v, h⟩

end

/-- In the construct, the function is a numeric fluent without arguments. -/
def Mentions (f : FunctionSymbol) : (σ : FluentScope) → σ.Construct → Prop
  | .expression, e => ⟨f, []⟩ ∈ e.references
  | .metric, e => .function f [] ∈ e.references
  | .effect, .assignNumeric _ t e => t = ⟨f, []⟩ ∨ ⟨f, []⟩ ∈ e.references
  | .fact, .numeric t _ => t = ⟨f, []⟩
  | _, _ => False

/-- In what is read at the first view as the given construct, the function stands without arguments,
as a fluent, between the other two views. -/
inductive FluentAt (f : FunctionSymbol) (levels : Nat) :
    View → (σ : FluentScope) → σ.Construct → View → View → Prop where
  /-- As an expression or an operand inside it. -/
  | expression {v u w : View} {k : Nat} {e : NumericExpression}
    (hwithin : Within .expression levels v k u)
    (hu : expression.look k u = .found w (.reference ⟨f, []⟩)) :
    FluentAt f levels v .expression e u w
  /-- As the expression of a metric or an operand inside it. -/
  | metric {v u w : View} {k : Nat} {e : MetricExpression}
    (hwithin : Within .metricExpression levels v k u)
    (hu : metricExpression.look k u = .found w (.reference (.function f []))) :
    FluentAt f levels v .metric e u w
  /-- As the fluent that an effect changes. -/
  | target {v x w : View} {op : AssignOp} {e : NumericExpression}
    (hop : look levels (keyword AssignOp) v.inside = .found x op)
    (ht : fluent.look levels x.skipBlanks = .found w ⟨f, []⟩) :
    FluentAt f levels v .effect (.assignNumeric op ⟨f, []⟩ e) x.skipBlanks w
  /-- As the operand of such an effect, or inside it. -/
  | operand {v x y u w : View} {k : Nat} {op : AssignOp} {t : Fluent} {e : NumericExpression}
    (hop : look levels (keyword AssignOp) v.inside = .found x op)
    (ht : fluent.look levels x.skipBlanks = .found y t)
    (hwithin : Within .expression levels y.skipBlanks k u)
    (hu : expression.look k u = .found w (.reference ⟨f, []⟩)) :
    FluentAt f levels v .effect (.assignNumeric op t e) u w
  /-- As the fluent whose value is given. -/
  | value {v x w : View} {c : Number} (hword : look levels (word "=") v.inside = .found x ())
    (ht : groundTerm.look levels x.skipBlanks = .found w ⟨f, []⟩) :
    FluentAt f levels v .fact (.numeric ⟨f, []⟩ c) x.skipBlanks w

/-- **Every fluent without arguments stands somewhere** in the construct. -/
theorem exists_fluentAt {σ : FluentScope} {a : σ.Construct} (ha : σ.rule.look levels v = .found w a)
    (hf : Mentions f σ a) : ∃ u w', FluentAt f levels v σ a u w' := by
  have hexpression : ∀ {k u w} {e : NumericExpression}, expression.look (k + 1) u = .found w e →
      (∃ x, e = .number x) ∨ (arithmetic expression).look k u = .found w e ∨
        ∃ t, e = .reference t :=
    fun h => (look_expression_cases h).imp_right fun h =>
      h.imp_right fun ⟨t, _, ht⟩ => ⟨t, ht⟩
  have hmetric : ∀ {k u w} {e : MetricExpression}, metricExpression.look (k + 1) u = .found w e →
      (∃ x, e = .number x) ∨ (arithmetic metricExpression).look k u = .found w e ∨
        ∃ t, e = .reference t :=
    fun h => (look_metricExpression_cases h).imp_right fun h =>
      h.imp_right fun ⟨t, ht, _⟩ => ⟨t, ht⟩
  cases σ with
  | expression =>
    obtain ⟨k, u, w', hwithin, hu⟩ := exists_within hexpression ha hf
    exact ⟨u, w', .expression hwithin hu⟩
  | metric =>
    obtain ⟨k, u, w', hwithin, hu⟩ := exists_within hmetric ha hf
    exact ⟨u, w', .metric hwithin hu⟩
  | effect =>
    rcases a with a | a | ⟨op, t, e⟩ | ⟨t, a⟩
    · cases hf
    · cases hf
    · obtain @⟨x, y, z, -, hop, -, ht, he, -⟩ := change_of_look ha
      obtain rfl | hf := hf
      · exact ⟨x.skipBlanks, y, .target hop ht⟩
      · obtain ⟨-, he⟩ := Reader.separated_eq_found.1 (Finding.reaches_false.1 he)
        obtain ⟨k, u, w', hwithin, hu⟩ := exists_within hexpression he hf
        exact ⟨u, w', .operand hop ht hwithin hu⟩
    · cases hf
  | fact =>
    rcases a with a | ⟨c, a⟩ | ⟨t, c⟩ | ⟨t, a⟩
    · cases hf
    · cases hf
    · obtain @⟨x, y, z, -, hword, ht, -, -⟩ := value_of_look ha
      obtain rfl := hf
      exact ⟨x.skipBlanks, y, .value hword ht⟩
    · cases hf

/-- **Where a fluent stands without arguments, it is written in one of the two forms.** -/
theorem FluentAt.exists_form {σ : FluentScope} {a : σ.Construct}
    (hat : FluentAt f levels v σ a u w) :
    ∃ φ : FluentForm, u.rest = φ.chars f ++ w.rest := by
  cases hat with
  | expression hwithin hu => exact exists_form_of_expression hu
  | metric hwithin hu => exact exists_form_of_metricExpression hu
  | target hop ht => exact exists_form_of_fluent ht
  | operand hop ht hwithin hu => exact exists_form_of_expression hu
  | value hword ht => exact exists_form_of_groundTerm ht

/-- What stands in the way of writing a function in this form in the text. -/
inductive Obstacle (f : FunctionSymbol) (text : List Char) (ceiling : Nat) :
    FluentScope → FluentForm → Prop where
  /-- In a metric, this name is no function. -/
  | totalTime (hf : f.text = "total-time") : Obstacle f text ceiling .metric .bare
  /-- An object fluent becomes undefined, which is tried before a numeric fluent changes. -/
  | undefining {φ : FluentForm} {d : Cursor} {x : FunctionTerm × Unit}
    (h : undefining.parse (Cursor.ofText text ceiling) = .ok (d, x)) :
    Obstacle f text ceiling .effect φ
  /-- In the parentheses of an expression, terms are too deep. -/
  | tooDeep {σ : FluentScope} {lead trail : Spacing} {limit offset : Nat}
    (hσ : σ = .expression ∨ σ = .effect)
    (h : σ.rule.parse (Cursor.ofText text ceiling) = .error (.tooDeep limit offset)) :
    Obstacle f text ceiling σ (.enclosed lead trail)

/-! ### Other spellings -/

section

variable {ρ : Type} {n : Nonterminal (Expression ρ)} {e e' : Expression ρ}

/-- An operand may be spelled otherwise wherever it stands in an expression. -/
theorem Within.respelled (hn : n.IsArithmetic) (hg : ∀ k, IsElement (k + 1) (call n))
    (h : Within n levels v k u) (hv : look levels (call n) v = .found z e)
    (hu : look k (call n) u = .found w e') (hs : Spells deep k (call n) f φ e')
    (hp : v.rest = p ++ u.rest) (hfits : φ.Fits front back p w.rest) :
    ∃ (y : View) (gap : Spacing),
      (look levels (call n)
        ⟨none, p ++ (front.chars ++ (φ.chars f ++ (back.chars ++ w.rest)))⟩).Reaches deep y e ∧
      y.rest = gap.chars ++ z.rest := by
  have hexchanges := hs.exchanges hfits
  obtain ⟨rfl, rfl⟩ | ⟨q, hq, hrest⟩ := h.eq_or_append
  · obtain ⟨rfl, rfl⟩ := Finding.found.inj (hv.symm.trans hu)
    obtain rfl : p = [] := List.self_eq_append_left.1 hp
    obtain ⟨y, gap, hlook, hy, -⟩ := hexchanges.look
    rw [hfits.start rfl]
    exact ⟨y, gap, hlook none, hy⟩
  · obtain rfl : p = q := List.append_cancel_right (hp.symm.trans hrest)
    obtain ⟨-, rfl⟩ | ⟨z', a, ha, -, houter⟩ := h.exchange hn hg hu hexchanges hp (hfits.setOff hq)
    · exact absurd (List.self_eq_append_left.1 hp) hq
    obtain ⟨rfl, rfl⟩ := Finding.found.inj (ha.symm.trans hv)
    obtain ⟨y, gap, hlook, hy, -⟩ := houter.look
    exact ⟨y, gap, hlook none, hy⟩

end

section

variable {op : AssignOp} {t : Fluent} {e : NumericExpression}

/-- An operand may be spelled otherwise wherever it stands in a change. -/
theorem Change.respelled (hc : Change False levels v z op t e)
    (hop : look levels (keyword AssignOp) v.inside = .found x op)
    (ht : fluent.look levels x.skipBlanks = .found y t)
    (h : Within .expression levels y.skipBlanks k u)
    (hu : expression.look k u = .found w (.reference ⟨f, []⟩))
    (hs : Spells deep k expression f φ (.reference ⟨f, []⟩)) (hp : v.rest = p ++ u.rest)
    (hfits : φ.Fits front back p w.rest) (b : Option Char) :
    Change deep levels ⟨b, p ++ (front.chars ++ (φ.chars f ++ (back.chars ++ w.rest)))⟩ z op t
      e := by
  obtain ⟨y', he⟩ : ∃ y', expression.look levels y.skipBlanks = .found y' e := by
    obtain @⟨_, _, y', -, hop', -, ht', he, -⟩ := hc
    obtain ⟨rfl, -⟩ := Finding.found.inj (hop.symm.trans hop')
    obtain ⟨rfl, -⟩ := Finding.found.inj (ht.symm.trans ht')
    exact ⟨y', (Reader.separated_eq_found.1 (Finding.reaches_false.1 he)).2⟩
  have hexchanges := hs.exchanges hfits
  have hsuffix : y.skipBlanks.rest <:+ v.inside.rest := (View.path_suffix.skipBlanks y).trans
    ((forward_look fluent levels ht).trans ((View.path_suffix.skipBlanks x).trans
      (forward_look (keyword AssignOp) levels hop)))
  obtain ⟨p', hrest'⟩ := hsuffix.trans (rest_inside_suffix v)
  have hp' := View.ne_nil_of_inside hc.opens hsuffix hrest'.symm
  obtain ⟨rfl, rfl⟩ | ⟨q, hq, hrest⟩ := h.eq_or_append
  · obtain ⟨rfl, rfl⟩ := Finding.found.inj (he.symm.trans hu)
    obtain rfl : p = p' := List.append_cancel_right (hp.symm.trans hrest'.symm)
    exact hc.exchange_value hop ht hu hexchanges hp (hfits.setOff hp') b
  · obtain rfl : p = p' ++ q := View.eq_append_of_rest hp hrest'.symm hrest
    have hoff : SetOff (p' ++ q ++ front.chars) (φ.chars f ++ (back.chars ++ w.rest)) :=
      hfits.setOff (List.append_ne_nil_of_left_ne_nil hp' q)
    rw [List.append_assoc] at hoff ⊢
    obtain ⟨-, rfl⟩ | ⟨z', e', he', hhead, hinner⟩ := h.exchange .expression
      (fun _ => isElement_expression) hu hexchanges hrest
        (hoff.of_ne_nil (List.append_ne_nil_of_left_ne_nil hq _))
    · exact absurd (List.self_eq_append_left.1 hrest) hq
    obtain ⟨rfl, rfl⟩ := Finding.found.inj (he.symm.trans he')
    obtain ⟨c, rfl⟩ := List.head?_eq_some_iff.1 hhead
    exact hc.exchange_value hop ht he hinner hrest'.symm
      (.inr rfl : SetOff (p' ++ Spacing.none.chars) _) b

end

/-- What is read up to some spacing in front of what another text leaves is parsed so, unless it is
too deep. -/
theorem parse_of_reaches {text : List Char} {ceiling : Nat} {d : Cursor} {gap : Spacing}
    (hg : g.Settled) (ha : (g.look ceiling ⟨none, text⟩).Reaches deep w a)
    (hw : w.rest = gap.chars ++ d.rest) :
    (∃ d', g.parse (Cursor.ofText text ceiling) = .ok (d', a) ∧
        d'.skipBlanks.rest = d.skipBlanks.rest) ∨
      deep ∧ ∃ limit offset,
        g.parse (Cursor.ofText text ceiling) = .error (.tooDeep limit offset) := by
  obtain ha | ⟨hdeep, ha⟩ := ha
  · obtain ⟨d', hd', -, rfl⟩ := parse_of_look hg (calm_ofText text ceiling) ha
    refine .inl ⟨d', hd', ?_⟩
    have hskip : d'.view.skipBlanks.rest = d.view.skipBlanks.rest := gap.rest_skipBlanks_append hw
    rwa [← Cursor.view_skipBlanks, ← Cursor.view_skipBlanks] at hskip
  · refine .inr ⟨hdeep, ?_⟩
    by_contra hne
    push Not at hne
    exact look_ne_tooDeep_of_parse hg (calm_ofText text ceiling) hne ha

/-- A change of a numeric fluent is parsed as such, unless an object fluent becomes undefined or
something is too deep. -/
theorem Change.parsed {text : List Char} {ceiling : Nat} {d : Cursor} {op : AssignOp} {t : Fluent}
    {e : NumericExpression} (hc : Change deep ceiling ⟨none, text⟩ d.view op t e) :
    (∃ d', primitiveEffect.parse (Cursor.ofText text ceiling) = .ok (d', .assignNumeric op t e) ∧
        d'.skipBlanks.rest = d.skipBlanks.rest) ∨
      (∃ d x, undefining.parse (Cursor.ofText text ceiling) = .ok (d, x)) ∨
      deep ∧ ∃ limit offset,
        primitiveEffect.parse (Cursor.ofText text ceiling) = .error (.tooDeep limit offset) := by
  by_cases hundefining : ∃ u x, undefining.look ceiling ⟨none, text⟩ = .found u x
  · obtain ⟨u, x, h⟩ := hundefining
    have hsettled : undefining.Settled := settled_of_flagFree (by simp [undefining])
    obtain ⟨d', hd', -⟩ := parse_of_look hsettled (calm_ofText text ceiling) h
    exact .inr (.inl ⟨d', x, hd'⟩)
  · push Not at hundefining
    exact (parse_of_reaches (settled_of_named .primitiveEffect) (hc.reaches hundefining)
      (rfl : _ = Spacing.none.chars ++ d.rest)).imp_right .inr

/-- **A fluent without arguments may be spelled otherwise.**  Where a text is read as a construct in
which the fluent stands, it is written there in one of the two forms; and the same construct is read
up to the same place if the fluent is written in any of these forms, with spacing around it, unless
there is an obstacle. -/
theorem parse_respelled {σ : FluentScope} {a : σ.Construct} {text : List Char} {ceiling : Nat}
    {d : Cursor} (ha : σ.rule.parse (Cursor.ofText text ceiling) = .ok (d, a))
    (hat : FluentAt f ceiling ⟨none, text⟩ σ a u w) (hp : text = p ++ u.rest)
    (hfits : φ.Fits front back p w.rest) :
    let text' := p ++ (front.chars ++ (φ.chars f ++ (back.chars ++ w.rest)))
    (∃ φ₀ : FluentForm, text = p ++ (φ₀.chars f ++ w.rest)) ∧
      ((∃ d', σ.rule.parse (Cursor.ofText text' ceiling) = .ok (d', a) ∧
          d'.skipBlanks.rest = d.skipBlanks.rest) ∨
        Obstacle f text' ceiling σ φ) := by
  intro text'
  refine ⟨hat.exists_form.imp fun φ₀ hform => by rw [hp, hform], ?_⟩
  have hcalm := calm_ofText text ceiling
  cases hat with
  | expression hwithin hu =>
    have hsettled := settled_of_named .expression
    obtain ⟨k, rfl, -⟩ := look_call_eq_found.1 hu
    have hspells : Spells (φ ≠ .bare) (k + 1) expression f φ (.reference ⟨f, []⟩) :=
      spells_expression fun hφ _ => hφ
    obtain ⟨y, gap, hy, hrest⟩ := hwithin.respelled .expression (fun _ => isElement_expression)
      (look_of_parse hsettled hcalm ha).2 hu hspells hp hfits
    refine (parse_of_reaches hsettled hy hrest).imp_right ?_
    rintro ⟨hφ, limit, offset, h⟩
    cases φ with
    | bare => exact absurd rfl hφ
    | enclosed lead trail => exact .tooDeep (.inl rfl) h
  | metric hwithin hu =>
    have hsettled := settled_of_named .metricExpression
    obtain ⟨k, rfl, -⟩ := look_call_eq_found.1 hu
    by_cases hf : φ = .bare ∧ f.text = "total-time"
    · obtain ⟨rfl, hf⟩ := hf
      exact .inr (.totalTime hf)
    · have hspells : Spells False (k + 1) metricExpression f φ (.reference (.function f [])) :=
        spells_metricExpression fun hφ htext => hf ⟨hφ, htext⟩
      obtain ⟨y, gap, hy, hrest⟩ := hwithin.respelled .metricExpression
        (fun _ => isElement_metricExpression) (look_of_parse hsettled hcalm ha).2 hu hspells hp
        hfits
      exact .inl ((parse_of_reaches hsettled hy hrest).resolve_right fun h => h.1)
  | @target x _ op e hop ht =>
    have hchange := change_of_look (look_of_parse (settled_of_named .primitiveEffect) hcalm ha).2
    have hsuffix := (View.path_suffix.skipBlanks x).trans
      (forward_look (keyword AssignOp) ceiling hop)
    obtain ⟨k, rfl⟩ := hchange.exists_succ
    have hspells : Spells False (k + 1) fluent f φ ⟨f, []⟩ :=
      spells_fluent fun _ hzero => nomatch hzero
    obtain h | ⟨d, x, h⟩ | h := (hchange.exchange_target hop ht (hspells.exchanges hfits) hp
      (hfits.setOff (View.ne_nil_of_inside hchange.opens hsuffix hp)) none).parsed
    · exact .inl h
    · exact .inr (.undefining h)
    · exact absurd h.1 id
  | operand hop ht hwithin hu =>
    obtain ⟨k, rfl, -⟩ := look_call_eq_found.1 hu
    have hchange := change_of_look (look_of_parse (settled_of_named .primitiveEffect) hcalm ha).2
    have hspells : Spells (φ ≠ .bare) (k + 1) expression f φ (.reference ⟨f, []⟩) :=
      spells_expression fun hφ _ => hφ
    obtain h | ⟨d, x, h⟩ | ⟨hφ, limit, offset, h⟩ :=
      (hchange.respelled hop ht hwithin hu hspells hp hfits none).parsed
    · exact .inl h
    · exact .inr (.undefining h)
    · right
      cases φ with
      | bare => exact absurd rfl hφ
      | enclosed lead trail => exact .tooDeep (.inr rfl) h
  | @value x _ c hword ht =>
    have hsettled := settled_of_named .initialFact
    have hvalue := value_of_look (look_of_parse hsettled hcalm ha).2
    have hsuffix := (View.path_suffix.skipBlanks x).trans (forward_look (word "=") ceiling hword)
    have hvalue' := hvalue.exchange hword ht (spells_groundTerm.exchanges hfits) hp
      (hfits.setOff (View.ne_nil_of_inside hvalue.opens hsuffix hp)) none
    exact .inl ((parse_of_reaches hsettled (Finding.reaches_false.2 hvalue'.look_initialFact)
      (rfl : _ = Spacing.none.chars ++ d.rest)).resolve_right fun h => h.1)

/-- A negated fluent is negated without its parentheses, too. -/
theorem parse_respelled_negative :
    let f : FunctionSymbol := ⟨"f", by decide⟩
    ∃ (d d' : Cursor) (a : NumericExpression),
      expression.parse (Cursor.ofText "(- ( f))".toList 10) = .ok (d, a) ∧
      FluentAt f 10 ⟨none, "(- ( f))".toList⟩ .expression a ⟨some ' ', "( f))".toList⟩
        ⟨some ')', [')']⟩ ∧
      expression.parse (Cursor.ofText "(- f )".toList 10) = .ok (d', a) ∧
      d'.skipBlanks.rest = d.skipBlanks.rest := by
  intro f
  have hbare : FluentForm.bare.chars f = ['f'] := by decide
  have henclosed : (FluentForm.enclosed .one .none).chars f = ['(', ' ', 'f', ')'] := by decide
  have htext : "(- ( f))".toList = ['(', '-', ' ', '(', ' ', 'f', ')', ')'] := by decide
  have hrest : "( f))".toList = ['(', ' ', 'f', ')', ')'] := by decide
  have htext' : "(- f )".toList = ['(', '-', ' ', 'f', ' ', ')'] := by decide
  rw [htext, hrest, htext']
  let v : View := ⟨none, ['(', '-', ' ', '(', ' ', 'f', ')', ')']⟩
  let x : View := ⟨some '-', [' ', '(', ' ', 'f', ')', ')']⟩
  let u : View := ⟨some ' ', ['(', ' ', 'f', ')', ')']⟩
  have hop : look 9 (keyword ArithmeticOp) v.inside = .found x .minus := by
    have hminus : (Vocabulary.keyword ArithmeticOp.minus).toList = ['-'] := by decide
    have h := look_keyword_append eq_of_prefix_arithmeticOp .minus (r := x.rest) rfl 9 (some '(')
    rwa [hminus] at h
  have hu : expression.look 9 u = .found ⟨some ')', [')']⟩ (.reference ⟨f, []⟩) := by
    have hspells : Spells False 9 expression f (.enclosed .one .none) (.reference ⟨f, []⟩) :=
      spells_expression nofun
    have h := Finding.reaches_false.1 (hspells (some ' ') [')'] (.inl FluentForm.getLast?_enclosed))
    rwa [FluentForm.getLast?_enclosed, henclosed] at h
  have helements : Elements False 9 expression x ⟨some ')', []⟩ [.reference ⟨f, []⟩] :=
    .cons (by decide) (.inl hu) (.nil ⟨[], rfl, rfl⟩)
  have harithmetic : (arithmetic expression).look 9 v =
      .found ⟨some ')', []⟩ (.negative (.reference ⟨f, []⟩)) :=
    Finding.reaches_false.1 (reaches_arithmetic isElement_expression rfl hop helements rfl)
  have hlook := Finding.reaches_false.1
    (reaches_call_of_arithmetic .expression rfl (.inl harithmetic))
  obtain ⟨d, hd, -⟩ := parse_of_look (settled_of_named .expression) (calm_ofText v.rest 10) hlook
  have hd : FluentScope.expression.rule.parse (Cursor.ofText v.rest 10) =
    .ok (d, .negative (.reference ⟨f, []⟩)) := hd
  have hat : FluentAt f 10 v .expression (.negative (.reference ⟨f, []⟩)) u ⟨some ')', [')']⟩ :=
    .expression (.inside harithmetic hop (.first (by decide)) (.here 9 u)) hu
  have hfits : FluentForm.bare.Fits .none .one ['(', '-', ' '] [')'] :=
    ⟨nofun, fun _ _ => by decide, fun _ => .blank rfl _⟩
  obtain ⟨d', hd', hrest⟩ := (parse_respelled hd hat rfl hfits).2.resolve_right nofun
  rw [hbare] at hd'
  exact ⟨d, d', _, hd, hat, hd', hrest⟩

/-- An object fluent with a value keeps its parentheses: two names are equal, which is tried before
values of fluents. -/
theorem parse_objectValue_bare :
    let f : FunctionSymbol := ⟨"f", by decide⟩
    let b : Name := ⟨"b", by decide⟩
    let l : Literal Name := ⟨.equality ⟨"f", by decide⟩ b, false⟩
    (∃ d, initialFact.parse (Cursor.ofText "(= (f) b)".toList 10) = .ok (d, .object ⟨f, []⟩ b) ∧
      d.rest = []) ∧
    (∃ d, initialFact.parse (Cursor.ofText "(= f b)".toList 10) = .ok (d, .literal l) ∧
      d.rest = []) ∧
    toNode (InitialFact.object ⟨f, []⟩ b) ≠ toNode (InitialFact.literal l) := by
  intro f b l
  have hobject : spelling (InitialFact.object ⟨f, []⟩ b) = "(= (f) b)".toList := by decide +kernel
  have hliteral : spelling (InitialFact.literal l) = "(= f b)".toList := by decide +kernel
  let p : Part initialFact 10 := (recovers_initialFact (f := .object ⟨f, []⟩ b) trivial).part
    (settled_of_named .initialFact) (parse_ne_tooDeep .initialFact (by decide +kernel))
  let q : Part initialFact 10 := (recovers_initialFact (f := .literal l) trivial).part
    (settled_of_named .initialFact) (parse_ne_tooDeep .initialFact (by decide +kernel))
  exact ⟨hobject ▸ p.whole, hliteral ▸ q.whole, nofun⟩

end Rule

end Pddl
