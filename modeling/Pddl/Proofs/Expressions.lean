import Pddl.Proofs.Deciding
import Pddl.Proofs.Numerals

/-!
# Numeric expressions are read back

* `Expression.IsRegular` : an expression as a text can hold it: numbers have no sign, and a sum or
  product of many operands has at least three.
* `Rule.Finds.expression`, `Rule.Finds.durativeExpression`, `Rule.Finds.metricExpression` : what is
  found is regular.
* `Expression.spelling` : the text of an expression; fluents, comparisons and the references of plan
  metrics are spelled by instances.
* `Rule.recovers_expression`, `Rule.recovers_metricExpression` : **every regular expression is read
  back from its text.**
-/

namespace Pddl

/-! ### Regular expressions -/

/-- An expression as a text can hold it, over references of some kind: numbers have no sign, and an
operator of many operands has at least three. -/
inductive Expression.IsRegular {ρ : Type} (R : ρ → Prop) : Expression ρ → Prop where
  | number {x : Number} (h : x.negative = false) : IsRegular R (.number x)
  | reference {r : ρ} (h : R r) : IsRegular R (.reference r)
  | binary (op : ArithmeticOp) {l r : Expression ρ} (hl : IsRegular R l) (hr : IsRegular R r) :
    IsRegular R (.binary op l r)
  | variadic (op : VariadicOp) {e : Expression ρ} {es : List (Expression ρ)} (h : IsRegular R e)
    (hes : ∀ e ∈ es, IsRegular R e) (hlen : 2 ≤ es.length) : IsRegular R (.variadic op e es)
  | negative {e : Expression ρ} (h : IsRegular R e) : IsRegular R (.negative e)

/-- An expression of a goal or an effect as a text can hold it. -/
def NumericExpression.IsRegular (e : NumericExpression) : Prop :=
  Expression.IsRegular (fun _ => True) e

/-- An expression of a durative action as a text can hold it. -/
def DurativeExpression.IsRegular (e : DurativeExpression) : Prop :=
  Expression.IsRegular (fun _ => True) e

/-- A reference of a plan metric as a text can hold it: what looks like a violation is one. -/
def MetricReference.IsRegular : MetricReference → Prop
  | function f ns => f.text = "is-violated" → ns.length ≠ 1
  | _ => True

/-- The expression of a plan metric as a text can hold it. -/
def MetricExpression.IsRegular (e : MetricExpression) : Prop :=
  Expression.IsRegular MetricReference.IsRegular e

namespace Expression

variable {ρ σ : Type} {R : ρ → Prop} {S : σ → Prop}

theorem mapAll_eq_map (f : ρ → σ) (es : List (Expression ρ)) : mapAll f es = es.map (map f) := by
  induction es with
  | nil => rfl
  | cons e es ih => rw [mapAll, ih, List.map_cons]

theorem toNodes_eq_map [ToNode ρ] (es : List (Expression ρ)) : toNodes es = es.map toNode := by
  induction es with
  | nil => rfl
  | cons e es ih =>
    rw [toNodes, ih]
    rfl

theorem IsRegular.map {f : ρ → σ} (hf : ∀ r, R r → S (f r)) {e : Expression ρ}
    (h : e.IsRegular R) : (e.map f).IsRegular S := by
  induction h with
  | number h => exact .number h
  | reference h => exact .reference (hf _ h)
  | binary op _ _ ihl ihr => exact .binary op ihl ihr
  | variadic op _ _ hlen ih ihs =>
    refine .variadic op ih ?_ (by simpa [mapAll_eq_map] using hlen)
    simpa [mapAll_eq_map] using ihs
  | negative _ ih => exact .negative ih

end Expression

/-! ### Expressions that are found -/

namespace Rule

open Grammar

variable {text : List Char} {levels : Nat}

theorem Finds.number {x : Number} (h : Finds Grammar.number text levels x) : x.negative = false := by
  obtain ⟨d, -, h⟩ := h.refine
  simp only [Binary64.ofDecimal, Binary64.ofRatio] at h
  split at h
  · rename_i y hy
    obtain rfl : y = x := by simpa using h
    split at hy
    · split at hy <;> simp at hy
      rw [← hy]
    · split at hy
      · simp at hy
      · split at hy <;> simp at hy
        rw [← hy]
  · simp at h

/-- What an operator makes of regular operands is regular. -/
theorem Finds.arithmetic {ρ : Type} {R : ρ → Prop} {operand : Rule (Expression ρ)}
    {e : Expression ρ} (h : Finds (Rule.arithmetic operand) text levels e)
    (ho : ∀ e, operand.Finds text levels e → e.IsRegular R) : e.IsRegular R := by
  obtain ⟨⟨op, l, rs⟩, h, he⟩ := h.refine
  obtain ⟨-, h⟩ := h.parens.pair
  obtain ⟨hl, hrs⟩ := h.pair
  have hfirst : l.IsRegular R := ho l hl
  have hrest : ∀ r ∈ rs, r.IsRegular R := fun r hr => ho r (hrs.many r hr)
  clear hl hrs
  rcases rs with _ | ⟨r, _ | ⟨r', rs⟩⟩
  · cases op <;> simp [Expression.ofOperands] at he
    subst he
    exact .negative hfirst
  · obtain rfl : .binary op l r = e := by cases op <;> simpa [Expression.ofOperands] using he
    exact .binary op hfirst (hrest r (by simp))
  · simp only [Expression.ofOperands] at he
    split at he
    · obtain rfl := Except.ok.inj he
      exact .variadic _ hfirst hrest (by simp)
    · simp at he

theorem Finds.expression {e : NumericExpression} (h : Finds Rule.expression text levels e) :
    e.IsRegular := by
  refine Finds.call_induction (fun levels ih e h => ?_) h
  rcases h.orElse with h | h
  · obtain ⟨x, hx, rfl⟩ := h.map
    exact .number hx.number
  rcases h.orElse with h | h
  · exact h.arithmetic fun e he => ih he
  · obtain ⟨f, -, rfl⟩ := h.map
    exact .reference trivial

theorem Finds.durativeExpression {e : DurativeExpression}
    (h : Finds Rule.durativeExpression text levels e) : e.IsRegular := by
  refine Finds.call_induction (fun levels ih e h => ?_) h
  rcases h.orElse with h | h
  · obtain ⟨_, -, rfl⟩ := h.map
    exact .reference trivial
  rcases h.orElse with h | h
  · exact h.arithmetic fun e he => ih he
  · obtain ⟨e, he, rfl⟩ := h.map
    exact he.expression.map fun _ _ => trivial

/-- A function of one name is read as a violation if it is called so. -/
theorem isRegular_of_look_function {v w : View} {f : FunctionSymbol} {ns : List Name}
    (h : look levels (parens (pair (symbol .function) (many (symbol .name)))) v = .found w (f, ns))
    (hmiss : look levels (form "is-violated" (symbol .preference)) v = .missing) :
    (MetricReference.function f ns).IsRegular := by
  intro hf hlen
  obtain ⟨n, rfl⟩ := List.length_eq_one_iff.1 hlen
  obtain ⟨hv, u, hu, hc⟩ := look_parens_eq_found.1 h
  have h := look_parens_eq_found.2 ⟨hv, u, look_headed_of_pair hu, hc⟩
  refine (attains_form rfl hf (by decide) h fun u u' _ hu _ => ?_).ne_missing hmiss
  obtain ⟨hnil, -⟩ | ⟨n', ns, x, hcons, hn, hmore⟩ := look_many_eq_found hu
  · simp at hnil
  · obtain ⟨rfl, rfl⟩ := List.cons.inj hcons
    obtain ⟨-, rfl⟩ | ⟨_, _, _, hcons, -⟩ := more_eq_found (forward_look _ levels) hmore
    · exact Finding.attains_of_found (look_symbol_of_kind (by rfl) hn)
    · simp at hcons

theorem Finds.metricExpression {e : MetricExpression}
    (h : Finds Rule.metricExpression text levels e) : e.IsRegular := by
  refine Finds.call_induction (fun levels ih e h => ?_) h
  obtain ⟨v, w, hv, h⟩ := h
  obtain h | ⟨-, h⟩ := look_orElse_eq_found.1 h
  · obtain ⟨x, hx, rfl⟩ := look_map_eq_found.1 h
    exact .number (Finds.number ⟨v, w, hv, hx⟩)
  obtain h | ⟨-, h⟩ := look_orElse_eq_found.1 h
  · exact Finds.arithmetic ⟨v, w, hv, h⟩ fun e he => ih he
  obtain h | ⟨-, h⟩ := look_orElse_eq_found.1 h
  · obtain ⟨_, -, rfl⟩ := look_map_eq_found.1 h
    exact .reference trivial
  obtain h | ⟨hviolated, h⟩ := look_orElse_eq_found.1 h
  · obtain ⟨_, -, rfl⟩ := look_map_eq_found.1 h
    exact .reference trivial
  obtain h | ⟨-, h⟩ := look_orElse_eq_found.1 h
  · obtain ⟨⟨f, ns⟩, hf, rfl⟩ := look_map_eq_found.1 h
    exact .reference (isRegular_of_look_function hf (look_map_eq_missing.1 hviolated))
  · obtain ⟨f, -, rfl⟩ := look_map_eq_found.1 h
    exact .reference fun _ => by simp

end Rule

/-! ### Texts -/

namespace Expression

variable {ρ : Type} [ToNode ρ] [Spelled ρ]

mutual

/-- The text of an expression. -/
def spelling : Expression ρ → List Char
  | number x => Pddl.spelling x
  | reference r => Pddl.spelling r
  | binary op l r => oneLine (Vocabulary.keyword op) [l.spelling, r.spelling]
  | variadic op e es => oneLine (Vocabulary.keyword op) (e.spelling :: spellings es)
  | negative e => oneLine "-" [e.spelling]

/-- The texts of several expressions. -/
def spellings : List (Expression ρ) → List (List Char)
  | [] => []
  | e :: es => e.spelling :: spellings es

end

theorem spellings_eq_map (es : List (Expression ρ)) : spellings es = es.map spelling := by
  induction es with
  | nil => rfl
  | cons e es ih => rw [spellings, ih, List.map_cons]

mutual

theorem render_toNode : ∀ e : Expression ρ, (toNode e).render = .ok (String.ofList e.spelling)
  | number x => Spelled.render_toNode x
  | reference r => Spelled.render_toNode r
  | binary op l r => by
    have h := Node.render_form (k := .binaryExpression) (f := [toNode op, toNode l, toNode r]) rfl
      (.cons (words_field rfl (render_toNode l)) (.cons (words_field rfl (render_toNode r)) .nil))
    rw [head_keyword (x := op) rfl] at h
    exact h
  | variadic op e es => by
    have h := Node.render_form (k := .variadicExpression)
      (f := [toNode op, toNode e, .tuple (toNodes es)]) rfl
      (.cons (words_field rfl (render_toNode e)) (.cons (words_members rfl (render_toNodes es)) .nil))
    rw [head_keyword (x := op) rfl, List.flatten_cons, List.flatten_singleton] at h
    exact h
  | negative e => by
    have h := Node.render_form (k := .negativeExpression) (f := [toNode e]) rfl
      (.cons (words_field rfl (render_toNode e)) .nil)
    exact h

theorem render_toNodes : ∀ es : List (Expression ρ),
    List.Forall₂ (fun n w => n.render = .ok (String.ofList w)) (Expression.toNodes es) (spellings es)
  | [] => .nil
  | e :: es => .cons (render_toNode e) (render_toNodes es)

end

instance : Spelled (Expression ρ) := ⟨spelling, render_toNode⟩

theorem spelling_variadic (op : VariadicOp) (e : Expression ρ) (es : List (Expression ρ)) :
    Pddl.spelling (variadic op e es) =
      oneLine (Vocabulary.keyword op) ((e :: es).map Pddl.spelling) := by
  rw [List.map_cons, ← show spellings es = es.map Pddl.spelling from spellings_eq_map es]
  rfl

end Expression

instance : Spelled Fluent where
  spelling f := oneLine f.symbol.written (f.arguments.map spelling)
  render_toNode f := by
    have hwords := words_members_toNode (f := [toNode f.symbol, toNode f.arguments]) (i := 1) rfl
    have h := Node.render_form (k := .fluent) rfl (.cons hwords .nil)
    rw [head_symbol rfl rfl, List.flatten_singleton] at h
    exact h

instance : Spelled MetricReference where
  spelling
    | .totalTime => "total-time".toList
    | .violation p => oneLine "is-violated" [spelling p]
    | .function f ns => oneLine f.written (ns.map spelling)
  render_toNode r := by
    cases r with
    | totalTime =>
      show (Node.form .totalTime []).render = _
      rw [Node.render, Node.rendering, Kind.layout, Layout.rendering, text_inline, Node.display,
        String.ofList_toList]
      rfl
    | violation p =>
      have h := Node.render_form (k := .violation) (f := [toNode p]) rfl
        (.cons (words_field_toNode rfl) .nil)
      exact h
    | function f ns =>
      have hwords := words_members_toNode (f := [toNode f, toNode ns]) (i := 1) rfl
      have h := Node.render_form (k := .metricFunction) rfl (.cons hwords .nil)
      rw [head_symbol rfl rfl, List.flatten_singleton] at h
      exact h

instance : Spelled Comparison where
  spelling c := oneLine (Vocabulary.keyword c.comparator) [spelling c.left, spelling c.right]
  render_toNode c := by
    have h := Node.render_form (k := .comparison)
      (f := [toNode c.comparator, toNode c.left, toNode c.right]) rfl
      (.cons (words_field_toNode rfl) (.cons (words_field_toNode rfl) .nil))
    rw [head_keyword (x := c.comparator) rfl] at h
    exact h

/-! ### Reading expressions -/

namespace Rule

open Grammar

variable {ρ : Type} {s r : List Char} {head : String}

/-- A number begins with a digit. -/
theorem misses_number (hs : s.head?.any Char.isDigit = false) : Misses number s := by
  refine .refine (misses_terminal fun b => ?_)
  have hparts : decimalParts? s = none := by
    rcases s with _ | ⟨c, s⟩
    · rfl
    · have hc : c.isDigit = false := by simpa using hs
      simp [decimalParts?, hc]
  simp [Terminal.lexeme?, Terminal.decimalLexeme?, hparts]

/-- Behind a name, no operator with operands is there. -/
theorem missesText_operation {ω α : Type} [Vocabulary ω] [PlainVocabulary ω] {g : Rule α}
    (hω : ∀ a : ω, isName (Vocabulary.keyword a).toList = false)
    (hn : isName head.toList = true) (parts : List (List Char)) :
    MissesText (parens (pair (keyword ω) g)) (oneLine head parts) := by
  intro r _
  have hkeyword : MissesText (keyword ω) head.toList := misses_keyword fun a =>
    apart_of_isName (PlainVocabulary.isWord a) hn fun h => by
      rw [h, hω a] at hn
      exact Bool.false_ne_true hn
  have h := misses_parens_of_stalls (blankLength_of_isSolid ((isSolid_of_isName hn).append _))
    ((hkeyword _ (isGap_blank.delimited_spread parts (.close r))).pair (h := g)).stalls
  simpa [oneLine, enclose] using h

theorem missesText_arithmetic_of_isName (operand : Rule (Expression ρ))
    (hn : isName head.toList = true) (parts : List (List Char)) :
    MissesText (arithmetic operand) (oneLine head parts) :=
  (missesText_operation (fun a => by cases a <;> decide) hn parts).refine

theorem misses_arithmetic_of_head (operand : Rule (Expression ρ)) (hs : s.head? ≠ some '(') :
    Misses (arithmetic operand) s := .refine (misses_parens hs)

variable [ToNode ρ] [Spelled ρ]

/-- An operator with its operands is read back. -/
theorem recovers_arithmetic {operand : Rule (Expression ρ)} {op : ArithmeticOp}
    {e x : Expression ρ} {es : List (Expression ρ)}
    (he : ∀ e' ∈ e :: es, operand.Recovers (spelling e') (· = e'))
    (hclose : ∀ r, operand.Misses (')' :: r)) (hx : Expression.ofOperands (op, e, es) = .ok x) :
    Recovers (arithmetic operand)
      (oneLine (Vocabulary.keyword op) ((e :: es).map spelling)) (· = x) := by
  have hmore := readsParts_many_eq isGap_blank (fun e' h => he e' (List.mem_cons_of_mem _ h)) hclose
  refine (recovers_pair_eq (recovers_keyword op) (.pair_eq (he e (by simp)) hmore)).refine ?_
  rintro _ rfl
  exact ⟨x, hx, rfl⟩

section

variable {R : ρ → Prop}

/-- Regular expressions are read back if their references are. -/
theorem recovers_of_isRegular {operand : Rule (Expression ρ)}
    (hnumber : ∀ x : Number, x.negative = false →
      operand.Recovers (spelling x) (· = .number x))
    (hoperation : ∀ {head parts x}, Recovers (arithmetic operand) (oneLine head parts) (· = x) →
      operand.Recovers (oneLine head parts) (· = x))
    (hreference : ∀ r, R r → operand.Recovers (spelling r) (· = .reference r))
    (hclose : ∀ r, operand.Misses (')' :: r))
    {e : Expression ρ} (he : e.IsRegular R) : operand.Recovers (spelling e) (· = e) := by
  have harith : ∀ op {e x} {es : List (Expression ρ)},
      (∀ e' ∈ e :: es, operand.Recovers (spelling e') (· = e')) →
      Expression.ofOperands (op, e, es) = .ok x →
      operand.Recovers (oneLine (Vocabulary.keyword op) ((e :: es).map spelling)) (· = x) :=
    fun op e x es hes hx => hoperation (recovers_arithmetic hes hclose hx)
  induction he with
  | number hx => exact hnumber _ hx
  | reference hr => exact hreference _ hr
  | binary op _ _ ihl ihr =>
    exact harith _ (List.forall_mem_cons.2 ⟨ihl, List.forall_mem_singleton.2 ihr⟩)
      (by cases op <;> rfl)
  | @variadic op e es _ _ hlen ih ihs =>
    have hes : ∀ e' ∈ e :: es, operand.Recovers (spelling e') (· = e') :=
      List.forall_mem_cons.2 ⟨ih, ihs⟩
    obtain ⟨e₁, e₂, es, rfl⟩ : ∃ e₁ e₂ es', es = e₁ :: e₂ :: es' := by
      rcases es with _ | ⟨e₁, _ | ⟨e₂, es⟩⟩
      · simp at hlen
      · simp at hlen
      · exact ⟨e₁, e₂, es, rfl⟩
    rw [Expression.spelling_variadic]
    cases op with
    | times => exact harith .times hes rfl
    | plus => exact harith .plus hes rfl
  | negative _ ih => exact harith .minus (List.forall_mem_singleton.2 ih) rfl

/-- Regular expressions are read back if numbers and arithmetic are tried first and references are
read back. -/
theorem recovers_expression_of {n : Nonterminal (Expression ρ)} {rest : Rule (Expression ρ)}
    (hn : n.production = (Expression.number <$> number <|> arithmetic (call n) <|> rest))
    (hclose : ∀ r, Misses (call n) (')' :: r))
    (hrest : ∀ r, R r → n.production.Recovers (spelling r) (· = .reference r))
    {e : Expression ρ} (he : e.IsRegular R) : Recovers (call n) (spelling e) (· = e) := by
  refine recovers_of_isRegular (fun x hx => recovers_call ?_) (fun h => recovers_call ?_)
    (fun r hr => recovers_call (hrest r hr)) hclose he
  · rw [hn]
    exact .left ((recovers_number hx).congr _)
  · rw [hn]
    exact .right (fun _ => .map (misses_number (by simp [oneLine, enclose, Char.isDigit])))
      (.left h)

end

theorem misses_close_expression : Misses expression (')' :: r) :=
  misses_call (.orElse (.map (misses_number (by simp [Char.isDigit])))
    (.orElse (misses_arithmetic_of_head _ (by simp))
      (.map (.orElse (.map (misses_close_symbol rfl)) (.map misses_close_parens)))))

theorem misses_symbol_oneLine {kind : SymbolKind} (hk : kind.sigil = "") (parts : List (List Char)) :
    MissesText (symbol kind) (oneLine head parts) :=
  fun _ _ => misses_symbol hk (by simp [oneLine, enclose, isNameStart])

theorem misses_number_oneLine (parts : List (List Char)) : MissesText number (oneLine head parts) :=
  fun _ _ => misses_number (by simp [oneLine, enclose, Char.isDigit])

/-- Fluents are written in parentheses. -/
theorem recovers_fluent (f : Fluent) : Recovers fluent (spelling f) (· = f) := by
  have hargs := readsParts_many_eq (g := term) isGap_blank (l := f.arguments)
    (fun t _ => recovers_term t) fun _ => misses_close_term
  exact .behind (misses_symbol_oneLine rfl _).map
    ((recovers_pair_eq (recovers_symbol f.symbol) hargs).congr _)

/-- **Every regular expression of a goal is read back from its text.** -/
theorem recovers_expression {e : NumericExpression} (he : e.IsRegular) :
    Recovers expression (spelling e) (· = e) :=
  recovers_expression_of rfl (fun _ => misses_close_expression)
    (fun f _ => .behind (misses_number_oneLine _).map
      (.behind (missesText_arithmetic_of_isName _ (isName_written rfl f.symbol) _)
        ((recovers_fluent f).congr _))) he

theorem recovers_violation (p : PreferenceName) :
    Recovers (form "is-violated" (symbol .preference)) (oneLine "is-violated" [spelling p])
      (· = p) :=
  recovers_form (isHead_of_isWord (by decide)) (.one isGap_blank (recovers_symbol p))

/-- A function that does not look like a violation is none. -/
theorem missesText_violation {f : FunctionSymbol} {ns : List Name}
    (h : (MetricReference.function f ns).IsRegular) :
    MissesText (form "is-violated" (symbol .preference))
      (oneLine f.written (ns.map spelling)) := by
  have hwritten : f.written = f.text := Symbol.written_of_sigil rfl f
  by_cases hf : f.text = "is-violated"
  · have hname : ∀ n : Name, Decides (symbol .preference) (spelling n) True := fun n =>
      (recovers_symbol (⟨n.text, n.valid⟩ : PreferenceName)).decides trivial
    rw [hwritten, hf]
    refine missesText_form_of_stallsAt (isHead_of_isWord (by decide)) ?_
    -- the number of names is not one
    rcases ns with _ | ⟨n, _ | ⟨n', ns⟩⟩
    · exact stallsAt_nil isGap_blank fun _ => misses_close_symbol rfl
    · exact absurd rfl (h hf)
    · exact stallsAt_long isGap_blank (hname n) (hname n').solid (ns.map spelling)
  · rw [hwritten]
    exact missesText_form_of_isName (by decide) f.valid hf _

/-- **Every regular expression of a plan metric is read back from its text.** -/
theorem recovers_metricExpression {e : MetricExpression} (he : e.IsRegular) :
    Recovers metricExpression (spelling e) (· = e) := by
  have hclose : ∀ r, Misses metricExpression (')' :: r) := fun r =>
    misses_call (.orElse (.map (misses_number (by simp [Char.isDigit])))
      (.orElse (misses_arithmetic_of_head _ (by simp))
        (.orElse (.map (misses_word_of_head (by decide) (by simp)))
          (.orElse (.map misses_close_parens) (.orElse (.map misses_close_parens)
            (.map (misses_close_symbol rfl)))))))
  refine recovers_expression_of rfl hclose (fun x hx => ?_) he
  have hword : ∀ {head : String} {parts : List (List Char)},
      MissesText (word "total-time") (oneLine head parts) :=
    fun _ _ => misses_word_of_head (by decide) (by simp [oneLine, enclose])
  cases x with
  | totalTime =>
    refine .behind (fun _ _ => .map (misses_number (by simp [spelling, Char.isDigit])))
      (.behind (fun _ _ => misses_arithmetic_of_head _ (by simp [spelling])) (.left ?_))
    exact (recovers_word (by decide)).map fun _ _ => rfl
  | violation p =>
    exact .behind (misses_number_oneLine _).map
      (.behind (missesText_arithmetic_of_isName _ (by decide) _)
        (.behind hword.map (.left ((recovers_violation p).congr _))))
  | function f ns =>
    have hargs := readsParts_many_eq (g := symbol .name) isGap_blank (l := ns)
      (fun n _ => recovers_symbol n) fun _ => misses_close_symbol rfl
    exact .behind (misses_number_oneLine _).map
      (.behind (missesText_arithmetic_of_isName _ (isName_written rfl f) _)
        (.behind hword.map (.behind (missesText_violation hx).map
          (.left ((recovers_pair_eq (recovers_symbol f) hargs).congr _)))))

end Rule

end Pddl
