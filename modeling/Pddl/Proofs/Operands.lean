import Pddl.Proofs.DurativeExpressions
import Pddl.Proofs.TypedTexts

/-!
# How many operands an operator takes

Operands are read one behind the other, as many as there are, and only then does the operator decide
whether there are as many as it takes.  Nothing else begins like an operation, so an operation with
another number of operands is no expression at all.

* `Expression.Applies` : what an operator makes of as many operands as it takes.
* `Rule.TakesOn`, `Rule.TakesBetween` : on some levels, the rule takes exactly a text wherever
  nothing goes on behind it.
* `Rule.takesBetween_operand` : **an operand is taken wherever it stands.**
* `Rule.reads_operation` : **all operands are read**, up to the closing parenthesis.
* `Rule.misses_production` : what is no arithmetic in spite of its operator is no expression.
* `Rule.parse_operationText` : **arithmetic takes exactly the allowed numbers of operands.**
-/

namespace Pddl

/-! ### How many operands there may be -/

namespace Expression

variable {ρ : Type}

/-- What an operator makes of as many operands as it takes: a sign of one, an operation of two, a
sum or product of more. -/
inductive Applies : ArithmeticOp → List (Expression ρ) → Expression ρ → Prop where
  | negative (e : Expression ρ) : Applies .minus [e] (.negative e)
  | binary (op : ArithmeticOp) (l r : Expression ρ) : Applies op [l, r] (.binary op l r)
  | sum (e : Expression ρ) {es : List (Expression ρ)} (h : 2 ≤ es.length) :
    Applies .plus (e :: es) (.variadic .plus e es)
  | product (e : Expression ρ) {es : List (Expression ρ)} (h : 2 ≤ es.length) :
    Applies .times (e :: es) (.variadic .times e es)

variable {op : ArithmeticOp} {e x : Expression ρ} {es : List (Expression ρ)}

theorem applies_iff : Applies op (e :: es) x ↔ ofOperands (op, e, es) = .ok x := by
  constructor
  · intro h
    generalize hl : e :: es = l at h
    cases h with
    | negative e => cases hl; rfl
    | binary op l r => cases hl; cases op <;> rfl
    | sum e h | product e h =>
      cases hl
      obtain ⟨e₁, e₂, es, rfl⟩ : ∃ e₁ e₂ es', es = e₁ :: e₂ :: es' := by
        rcases es with _ | ⟨e₁, _ | ⟨e₂, es⟩⟩ <;> simp at h ⊢
      rfl
  · intro h
    rcases es with _ | ⟨r, _ | ⟨r', rs⟩⟩
    · cases op <;> simp [ofOperands] at h
      subst h
      exact .negative e
    · obtain rfl : .binary op e r = x := by cases op <;> simpa [ofOperands] using h
      exact .binary op e r
    · cases op <;> simp [ofOperands, ArithmeticOp.variadic?] at h
      · subst h
        exact .product e (by simp)
      · subst h
        exact .sum e (by simp)

theorem exists_unmet {c : Complaint} (h : ofOperands (op, e, es) = .error c) :
    ∃ m, c = .unmet m := by
  rcases es with _ | ⟨r, _ | ⟨r', rs⟩⟩ <;> cases op <;>
    simp [ofOperands, ArithmeticOp.variadic?] at h <;> exact ⟨_, h.symm⟩

theorem not_applies_nil : ¬Applies op [] x := nofun

/-- An operator takes one operand if it is a sign, two in any case, and more if it sums or
multiplies. -/
theorem exists_applies_iff : (∃ x, Applies op es x) ↔
    es.length = 1 ∧ op = .minus ∨ es.length = 2 ∨
      3 ≤ es.length ∧ (op = .plus ∨ op = .times) := by
  rcases es with _ | ⟨e, _ | ⟨r, _ | ⟨r', rs⟩⟩⟩
  · simpa using fun x => not_applies_nil
  · cases op <;> simp [applies_iff, ofOperands]
  · simpa using ⟨_, Applies.binary op e r⟩
  · cases op <;> simp [applies_iff, ofOperands, ArithmeticOp.variadic?]

end Expression

/-! ### Rules of expressions -/

/-- The constructs that numbers and arithmetic belong to. -/
inductive Nonterminal.IsArithmetic : {ρ : Type} → Nonterminal (Expression ρ) → Prop where
  | expression : IsArithmetic .expression
  | durativeExpression : IsArithmetic .durativeExpression
  | metricExpression : IsArithmetic .metricExpression

/-- An operand can begin with the character. -/
def beginsOperand (c : Char) : Bool := isNameStart c || c.isDigit || c == '?' || c == '('

/-- An operand may go on with the character: a name or a number does. -/
def goesOn (c : Char) : Bool := isNameChar c || c == '.'

theorem endsAtSpacing_goesOn : EndsAtSpacing goesOn where
  blank c hc := by
    have hname := endsAtSpacing_isNameChar.blank c hc
    simp only [goesOn, hname, Bool.false_or, beq_eq_false_iff_ne]
    rintro rfl
    exact absurd hc (by decide)
  comment := by decide

theorem any_isNameChar_of_goesOn {r : List Char} (h : r.head?.any goesOn = false) :
    r.head?.any isNameChar = false := by
  rcases r with _ | ⟨c, r⟩
  · rfl
  · simp only [List.head?_cons, Option.any_some, goesOn, Bool.or_eq_false_iff] at h
    exact h.1

theorem any_isDigit_of_goesOn {r : List Char} (h : r.head?.any goesOn = false) :
    r.head?.any Char.isDigit = false := by
  rcases r with _ | ⟨c, r⟩
  · rfl
  · have hname := any_isNameChar_of_goesOn h
    simp only [List.head?_cons, Option.any_some, isNameChar, Bool.or_eq_false_iff,
      Char.isAlphanum] at hname ⊢
    exact hname.1.1.2

theorem isWideBlank_eq_false_of_goesOn {c : Char} (h : goesOn c = true) :
    isWideBlank c = false := by
  have hc : 33 ≤ c.toNat ∧ c.toNat ≤ 126 := by
    have h : (decide (65 ≤ c.val ∧ c.val ≤ 90) || (decide (97 ≤ c.val) && decide (c.val ≤ 122)) ||
      (decide (48 ≤ c.val) && decide (c.val ≤ 57)) || c == '-' || c == '_' || c == '.') = true := h
    simp only [Bool.or_eq_true, Bool.and_eq_true, decide_eq_true_eq, beq_iff_eq,
      UInt32.le_iff_toNat_le] at h
    rcases h with ((h | rfl) | rfl) | rfl
    · have hval : c.toNat = c.val.toNat := rfl
      rw [hval]
      rcases h with (h | h) | h <;>
        exact ⟨Nat.le_trans (by decide) h.1, Nat.le_trans h.2 (by decide)⟩
    all_goals decide
  simp only [isWideBlank, wideBlankRanges, List.any_cons, List.any_nil, Bool.or_false,
    Bool.or_eq_false_iff, Bool.and_eq_false_iff, decide_eq_false_iff_not]
  omega

/-- Nothing goes on from the text into what follows it. -/
def Parted (t r : List Char) : Prop := t.getLast? = some ')' ∨ r.head?.any goesOn = false

theorem View.advance_append {t : List Char} (ht : t ≠ []) (b : Option Char) (r : List Char) :
    View.advance ⟨b, t ++ r⟩ t.length = ⟨t.getLast?, r⟩ := by
  rcases hn : t.length with _ | n
  · exact absurd (List.length_eq_zero_iff.1 hn) ht
  · have hlast : (t ++ r)[n]? = t.getLast? := by
      rw [List.getElem?_append_left (by omega), List.getLast?_eq_getElem?, hn, Nat.add_sub_cancel]
    rw [View.advance, hlast, ← hn, List.drop_left]

/-- What closes a form ends in a closing parenthesis. -/
theorem getLast?_of_closes {b : Bool} {k : Nat} {x : List Char} (h : closes b k x = true) :
    x.getLast? = some ')' := by
  induction x generalizing b k with
  | nil => simp [closes] at h
  | cons c x ih =>
    by_cases hx : x = []
    · subst hx
      cases b <;> simp [closes] at h
      obtain ⟨-, rfl, -⟩ := h
      rfl
    · rw [List.getLast?_cons_of_ne_nil hx]
      cases b with
      | true => exact ih h
      | false =>
        simp only [closes] at h
        split at h
        · exact ih h
        · split at h
          · rcases k with _ | k
            · exact absurd (List.isEmpty_iff.1 h) hx
            · exact ih h
          · exact ih h

theorem any_getLast? {p : Char → Bool} {t : List Char} (ht : t ≠ []) (h : ∀ c ∈ t, p c = true) :
    t.getLast?.any p = true := by
  rw [List.getLast?_eq_some_getLast ht]
  exact h _ (List.getLast_mem ht)

namespace Rule

open Grammar

variable {α β : Type} {g : Rule α} {p : Char → Bool} {s r t : List Char} {levels : Nat} {v w : View}
  {a : α}

/-! ### Texts that are taken on some levels -/

/-- On the given levels, the rule takes exactly the text, and finds the given construct, where
nothing goes on behind the text. -/
structure TakesOn (levels : Nat) (g : Rule α) (t : List Char) (a : α) : Prop where
  solid : IsSolid t
  last : t.getLast?.any isWideBlank = false
  look : ∀ b r, Parted t r → g.look levels ⟨b, t ++ r⟩ = .found ⟨t.getLast?, r⟩ a

namespace TakesOn

theorem map (f : α → β) (h : g.TakesOn levels t a) : TakesOn levels (f <$> g) t (f a) :=
  ⟨h.solid, h.last, fun b r hr => look_map_eq_found.2 ⟨a, h.look b r hr, rfl⟩⟩

theorem left {h : Rule α} (hg : g.TakesOn levels t a) : TakesOn levels (g <|> h) t a :=
  ⟨hg.solid, hg.last, fun b r hr => look_orElse_eq_found.2 (.inl (hg.look b r hr))⟩

theorem right {h : Rule α} (hg : ∀ b r, Parted t r → g.look levels ⟨b, t ++ r⟩ = .missing)
    (hh : h.TakesOn levels t a) : TakesOn levels (g <|> h) t a :=
  ⟨hh.solid, hh.last, fun b r hr => look_orElse_eq_found.2 (.inr ⟨hg b r hr, hh.look b r hr⟩)⟩

/-- A terminal takes a text that a name or a number could go on behind. -/
theorem terminal {x : Terminal α} (ht : IsSolid t) (hlast : t.getLast?.any goesOn = true)
    (hx : ∀ b r, r.head?.any goesOn = false → x.lexeme? ⟨b, t ++ r⟩ = some (t.length, a)) :
    TakesOn levels (.terminal x) t a := by
  refine ⟨ht, ?_, fun b r hr => lexeme_eq_found.2 ⟨_, hx b r ?_, ?_⟩⟩
  · rcases hl : t.getLast? with _ | c
    · rfl
    · exact isWideBlank_eq_false_of_goesOn (by simpa [hl] using hlast)
  · refine hr.resolve_left fun hclose => ?_
    rw [hclose] at hlast
    exact absurd hlast (by decide)
  · obtain ⟨c, cs, rfl, -⟩ := ht
    exact (View.advance_append (List.cons_ne_nil c cs) b r).symm

end TakesOn

/-- Between the views stands a text that the rule takes on the given levels. -/
def TakesBetween (levels : Nat) (g : Rule α) (v w : View) (a : α) : Prop :=
  ∃ t, v.rest = t ++ w.rest ∧ w.before = t.getLast? ∧ TakesOn levels g t a

namespace TakesBetween

theorem map (f : α → β) : TakesBetween levels g v w a → TakesBetween levels (f <$> g) v w (f a) :=
  fun ⟨t, hv, hw, ht⟩ => ⟨t, hv, hw, ht.map f⟩

theorem left {h : Rule α} : TakesBetween levels g v w a → TakesBetween levels (g <|> h) v w a :=
  fun ⟨t, hv, hw, ht⟩ => ⟨t, hv, hw, ht.left⟩

/-- The first alternative is missing wherever the text begins alike. -/
theorem right {h : Rule α}
    (hg : ∀ u : View, u.rest.head? = v.rest.head? → g.look levels u = .missing) :
    TakesBetween levels h v w a → TakesBetween levels (g <|> h) v w a := by
  rintro ⟨t, hv, hw, ht⟩
  refine ⟨t, hv, hw, ht.right fun b r _ => hg _ ?_⟩
  obtain ⟨c, cs, rfl, -⟩ := ht.solid
  rw [hv]
  rfl

theorem call {n : Nonterminal α} : TakesBetween levels n.production v w a →
    TakesBetween (levels + 1) (.call n) v w a :=
  fun ⟨t, hv, hw, ht⟩ => ⟨t, hv, hw, ht.solid, ht.last, ht.look⟩

/-- What is taken between the views goes on up to the second one. -/
theorem of_append (hv : v = ⟨v.before, t ++ r⟩) (hw : w = v.advance t.length)
    (ht : TakesOn levels g t a) : TakesBetween levels g v w a := by
  have hne : t ≠ [] := by
    obtain ⟨c, cs, rfl, -⟩ := ht.solid
    exact List.cons_ne_nil c cs
  rw [hv, View.advance_append hne] at hw
  rw [hv, hw]
  exact ⟨t, rfl, rfl, ht⟩

end TakesBetween

theorem takesOn_symbol {kind : SymbolKind} (x : Symbol kind) (levels : Nat) :
    TakesOn levels (symbol kind) x.written.toList x := by
  refine .terminal (takes_symbol x).solid ?_ fun b r hr =>
    Terminal.symbolLexeme?_written x (any_isNameChar_of_goesOn hr)
  have hne : x.text.toList ≠ [] := fun hnil => by
    have := x.valid
    simp [hnil, isName] at this
  rw [Symbol.written, String.toList_append, List.getLast?_append_of_ne_nil _ hne]
  exact any_getLast? hne fun c hc => by simp [goesOn, isNameChar_of_mem_name x.valid c hc]

/-- Where a symbol is found, the text goes on behind it with something else. -/
theorem exists_of_look_symbol {kind : SymbolKind} {x : Symbol kind}
    (h : look levels (symbol kind) v = .found w x) : ∃ r, v = ⟨v.before, x.written.toList ++ r⟩ ∧
      w = v.advance x.written.toList.length ∧ r.head?.any isNameChar = false := by
  obtain ⟨n, hn, rfl⟩ := lexeme_eq_found.1 (look_symbol.symm.trans h)
  obtain ⟨r, hr, rfl, hname⟩ := symbolLexeme?_eq_some hn
  rw [← String.toList_append] at hr ⊢
  exact ⟨r, congrArg (View.mk _) hr, rfl, hname⟩

theorem takesOn_word {x : String} (hx : IsWord x)
    (hlast : x.toList.getLast?.any goesOn = true) (levels : Nat) :
    TakesOn levels (word x) x.toList () :=
  .terminal (isHead_of_isWord hx).solid hlast fun b r hr => by
    simp [Terminal.lexeme?, keywordLength?_append_self hx (any_isNameChar_of_goesOn hr)]

/-- Where a word is found, the text goes on behind it. -/
theorem exists_of_look_word {x : String} (hx : IsWord x)
    (h : look levels (word x) v = .found w ()) :
    ∃ r, v = ⟨v.before, x.toList ++ r⟩ ∧ w = v.advance x.toList.length := by
  obtain ⟨n, hn, rfl⟩ := lexeme_eq_found.1 (look_word_eq.symm.trans h)
  obtain ⟨n, hlength, heq⟩ := Option.map_eq_some_iff.1 hn
  obtain rfl := (Prod.mk.inj heq).1
  have hwords := (keywordLength?_eq_some.1 hlength).1
  rw [hx.2] at hwords
  obtain ⟨r, hr, ⟨-, rfl⟩ | ⟨hne, -⟩⟩ := wordsLength?_cons.1 hwords
  · exact ⟨r, congrArg (View.mk _) hr, rfl⟩
  · exact absurd rfl hne

theorem goesOn_of_mem_decimalLexeme {whole places : List Char} (h : IsDecimal whole places)
    {c : Char} (hc : c ∈ decimalLexeme whole places) : goesOn c = true := by
  have hdigit : ∀ c ∈ whole ++ places, goesOn c = true := fun c hc => by
    simp [goesOn, isNameChar, Char.isAlphanum, h.isDigit c hc]
  rw [decimalLexeme, List.mem_append] at hc
  obtain hc | hc := hc
  · exact hdigit c (List.mem_append_left _ hc)
  · split at hc
    · cases hc
    · obtain rfl | hc := List.mem_cons.1 hc
      · rfl
      · exact hdigit c (List.mem_append_right _ hc)

/-- What stands in parentheses is taken. -/
theorem takesBetween_of_opens (hnext : g.next .before = some .behind)
    (h : g.look levels v = .found w a) (hopen : v.rest.head? = some '(') :
    TakesBetween levels g v w a := by
  obtain ⟨-, -, -, hclose⟩ := (covers_of_look hnext h).exists_span hopen
  obtain ⟨t, ht, ⟨y, rfl, hy⟩, hcontext⟩ := look_in_context hnext h hclose
  have hlast : ('(' :: y).getLast? = some ')' := by
    have hy := getLast?_of_closes hy
    rw [List.getLast?_cons, hy]
    rfl
  refine ⟨_, ht, hclose.trans hlast.symm, ⟨'(', y, rfl, by decide⟩, ?_, fun b r _ => ?_⟩ <;>
    rw [hlast]
  · decide
  · exact hcontext b r

/-- A number is taken where neither a digit nor a point goes on. -/
theorem takesBetween_number {x : Number} (h : look levels number v = .found w x) :
    TakesBetween levels number v w x := by
  obtain ⟨d, hd, hx⟩ := Reader.refine_eq_found.1 h
  obtain ⟨n, hn, rfl⟩ := lexeme_eq_found.1 hd
  obtain ⟨⟨whole, places⟩, hparts, heq⟩ := Option.map_eq_some_iff.1 hn
  obtain ⟨rfl, rfl⟩ := Prod.mk.inj heq
  obtain ⟨r, hr, hne, hwhole, hplaces⟩ := decimalParts?_eq_some hparts
  have hdec : IsDecimal whole places :=
    ⟨hne, fun c hc => (List.mem_append.1 hc).elim (hwhole c) (hplaces c)⟩
  have hsolid : IsSolid (decimalLexeme whole places) := by
    simpa [decimalLexeme] using isSolid_of_isDigit hne hwhole _
  have hdecimal : TakesOn levels (.terminal .decimal) (decimalLexeme whole places)
      ⟨natOfDigits (whole ++ places), -places.length⟩ := by
    refine .terminal hsolid ?_ fun b r hr => ?_
    · obtain ⟨c, cs, hc, -⟩ := hsolid
      exact any_getLast? (hc ▸ List.cons_ne_nil c cs) fun c => goesOn_of_mem_decimalLexeme hdec
    · have hpoint : r.head? ≠ some '.' := fun h => by
        rw [h] at hr
        exact absurd hr (by decide)
      simp [Terminal.lexeme?, Terminal.decimalLexeme?,
        decimalParts?_append_of_head hdec (any_isDigit_of_goesOn hr) hpoint]
  exact .of_append (congrArg (View.mk _) hr) rfl
    ⟨hdecimal.solid, hdecimal.last, fun b r hr =>
      Reader.refine_eq_found.2 ⟨_, hdecimal.look b r hr, hx⟩⟩

/-! ### Operands -/

theorem look_arithmetic_missing {ρ : Type} {operand : Rule (Expression ρ)}
    (hv : v.rest.head? ≠ some '(') : (arithmetic operand).look levels v = .missing := by
  by_contra hne
  obtain ⟨op, hop⟩ := exists_operator hne
  exact hv hop.1

/-- Where something else begins, there is no such word. -/
theorem look_word_missing {x : String} (hx : IsWord x) (hv : v.rest.head? ≠ x.toList.head?) :
    look levels (word x) v = .missing := by
  rcases hlength : keywordLength? x v.rest with _ | n
  · rw [look_word_eq, hlength]
    rfl
  · obtain ⟨r, hr⟩ := prefix_of_keywordLength? hx (Option.isSome_iff_exists.2 ⟨n, hlength⟩)
    obtain ⟨c, cs, hc, -⟩ := (isHead_of_isWord hx).solid
    rw [← hr, hc] at hv
    exact absurd rfl hv

/-- A function begins neither like a number nor like a form. -/
theorem head?_function (f : FunctionSymbol) (r : List Char) :
    (f.written.toList ++ r).head?.any Char.isDigit = false ∧
      (f.written.toList ++ r).head? ≠ some '(' := by
  obtain ⟨c, hc, hstart⟩ := head?_written (rfl : SymbolKind.function.sigil = "") f r
  rw [hc]
  refine ⟨isDigit_eq_false_of_isNameStart hstart, ?_⟩
  rintro ⟨⟩
  exact absurd hstart (by decide)

/-- A function is taken as an expression. -/
theorem takesOn_expressionForms (f : FunctionSymbol) (levels : Nat) :
    TakesOn levels expressionForms f.written.toList (.reference ⟨f, []⟩) :=
  .right (fun _ r _ => look_map_eq_missing.2 (look_number_missing (head?_function f r).1))
    (.right (fun _ r _ => look_arithmetic_missing (head?_function f r).2)
      (.map _ (.left (.map _ (takesOn_symbol f levels)))))

/-- A function is taken as the expression of a metric, unless it is the word for the total time. -/
theorem takesOn_metricExpressionForms {f : FunctionSymbol} (hf : f.text ≠ "total-time")
    (levels : Nat) :
    TakesOn levels metricExpressionForms f.written.toList (.reference (.function f [])) := by
  have hsymbol := takesOn_symbol f levels
  have hopen := fun r => (head?_function f r).2
  refine .right (fun _ r _ => look_map_eq_missing.2 (look_number_missing (head?_function f r).1))
    (.right (fun _ r _ => look_arithmetic_missing (hopen r))
      (.right (fun b r hr => look_map_eq_missing.2 ?_)
        (.right (fun _ r _ => look_map_eq_missing.2 (look_parens_missing (hopen r)))
          (.right (fun _ r _ => look_map_eq_missing.2 (look_parens_missing (hopen r)))
            (.map _ hsymbol)))))
  rcases hlength : keywordLength? "total-time" (f.written.toList ++ r) with _ | n
  · rw [look_word_eq, hlength]
    rfl
  · -- then the function has this name
    have hword : Terminal.symbolLexeme? .function (f.written.toList ++ r) =
        some (n, ⟨"total-time", by decide⟩) :=
      Terminal.symbolLexeme?_of_keywordLength? rfl (by decide) (by decide) hlength
    obtain ⟨m, hm, -⟩ := lexeme_eq_found.1 (hsymbol.look b r hr)
    obtain ⟨-, rfl⟩ := Prod.mk.inj (Option.some.inj (hm.symm.trans hword))
    exact absurd rfl hf

theorem takesBetween_expressionForms {e : NumericExpression}
    (h : expressionForms.look levels v = .found w e) (hopen : v.rest.head? ≠ some '(') :
    TakesBetween levels expressionForms v w e := by
  obtain h | ⟨-, h⟩ := look_orElse_eq_found.1 h
  · obtain ⟨x, hx, rfl⟩ := look_map_eq_found.1 h
    exact .left (.map _ (takesBetween_number hx))
  obtain h | ⟨-, h⟩ := look_orElse_eq_found.1 h
  · cases (look_arithmetic_missing hopen).symm.trans h
  obtain ⟨f, hf, rfl⟩ := look_map_eq_found.1 h
  obtain hf | ⟨-, hf⟩ := look_orElse_eq_found.1 hf
  · obtain ⟨x, hx, rfl⟩ := look_map_eq_found.1 hf
    obtain ⟨r, hv, hw, -⟩ := exists_of_look_symbol hx
    exact .of_append hv hw (takesOn_expressionForms x levels)
  · rw [look_map, look_parens_missing hopen] at hf
    cases hf

theorem takesBetween_durativeExpressionForms {e : DurativeExpression}
    (h : durativeExpressionForms.look levels v = .found w e) (hopen : v.rest.head? ≠ some '(') :
    TakesBetween levels durativeExpressionForms v w e := by
  obtain h | ⟨-, h⟩ := look_orElse_eq_found.1 h
  · obtain ⟨x, hx, rfl⟩ := look_map_eq_found.1 h
    obtain ⟨r, hv, hw⟩ := exists_of_look_word (by decide) hx
    exact .of_append hv hw (.left (.map _ (takesOn_word (by decide) (by decide) levels)))
  obtain h | ⟨-, h⟩ := look_orElse_eq_found.1 h
  · cases (look_arithmetic_missing hopen).symm.trans h
  obtain ⟨e, he, rfl⟩ := look_map_eq_found.1 h
  obtain ⟨k, rfl, he⟩ := look_call_eq_found.1 he
  have hhead : v.rest.head? ≠ some '?' := fun hhead => by
    obtain hmiss | hmiss := misses_expressionForms hhead k v.before <;> cases he.symm.trans hmiss
  exact .right (fun u hu => look_map_eq_missing.2 (look_word_missing (by decide) (hu ▸ hhead)))
    (.right (fun u hu => look_arithmetic_missing (hu ▸ hopen))
      (.map _ (.call (takesBetween_expressionForms he hopen))))

theorem takesBetween_metricExpressionForms {e : MetricExpression}
    (h : metricExpressionForms.look levels v = .found w e) (hopen : v.rest.head? ≠ some '(') :
    TakesBetween levels metricExpressionForms v w e := by
  obtain h | ⟨-, h⟩ := look_orElse_eq_found.1 h
  · obtain ⟨x, hx, rfl⟩ := look_map_eq_found.1 h
    exact .left (.map _ (takesBetween_number hx))
  obtain h | ⟨-, h⟩ := look_orElse_eq_found.1 h
  · cases (look_arithmetic_missing hopen).symm.trans h
  obtain h | ⟨htime, h⟩ := look_orElse_eq_found.1 h
  · obtain ⟨x, hx, rfl⟩ := look_map_eq_found.1 h
    obtain ⟨r, hv, hw⟩ := exists_of_look_word (by decide) hx
    refine .of_append hv hw (.right (fun b r _ => look_map_eq_missing.2 ?_)
      (.right (fun b r _ => look_arithmetic_missing ?_)
        (.left (.map _ (takesOn_word (by decide) (by decide) levels)))))
    · exact look_number_missing rfl
    · exact ne_of_beq_false rfl
  obtain h | ⟨-, h⟩ := look_orElse_eq_found.1 h
  · rw [look_map, form, look_parens_missing hopen] at h
    cases h
  obtain h | ⟨-, h⟩ := look_orElse_eq_found.1 h
  · rw [look_map, look_parens_missing hopen] at h
    cases h
  obtain ⟨f, hf, rfl⟩ := look_map_eq_found.1 h
  obtain ⟨r, hv, hw, hname⟩ := exists_of_look_symbol hf
  refine .of_append hv hw (takesOn_metricExpressionForms (fun htext => ?_) levels)
  -- otherwise the word for the total time would be there
  have htext : f.written = "total-time" := by rw [Symbol.written_of_sigil rfl, htext]
  rw [look_map_eq_missing, look_word_eq, hv, htext,
    keywordLength?_append_self (by decide) hname] at htime
  cases htime

section

variable {ρ : Type} {n : Nonterminal (Expression ρ)}

/-- Where no operand begins, there is none. -/
theorem misses_operand (hn : n.IsArithmetic) (hs : s.head?.any beginsOperand = false) :
    Misses (call n) s := by
  have hhead : ∀ c, beginsOperand c = true → s.head? ≠ some c := fun c hc h => by
    rw [h, Option.any_some, hc] at hs
    cases hs
  have hany : ∀ p : Char → Bool, (∀ c, p c = true → beginsOperand c = true) →
      s.head?.any p = false := fun p hp => by
    rcases hc : s.head? with _ | c
    · rfl
    · by_contra hpc
      exact hhead c (hp c (by simpa using hpc)) hc
  have hopen := hhead '(' (by decide)
  have hnumber : Misses number s := misses_number (hany _ fun c hc => by simp [beginsOperand, hc])
  have hsymbol : ∀ {kind : SymbolKind}, kind.sigil = "" → Misses (symbol kind) s := fun hk =>
    misses_symbol hk (hany _ fun c hc => by simp [beginsOperand, hc])
  have hexpression : Misses expression s := misses_call (.orElse hnumber.map
    (.orElse (misses_arithmetic_of_head _ hopen)
      (.map (.orElse (hsymbol rfl).map (misses_parens hopen).map))))
  cases hn with
  | expression => exact hexpression
  | durativeExpression =>
    exact misses_call (.orElse (misses_word_of_head (by decide) (hhead '?' (by decide))).map
      (.orElse (misses_arithmetic_of_head _ hopen) hexpression.map))
  | metricExpression =>
    exact misses_call (.orElse hnumber.map (.orElse (misses_arithmetic_of_head _ hopen)
      (.orElse (misses_word_of_head (by decide) (hhead 't' (by decide))).map
        (.orElse (misses_parens hopen).map (.orElse (misses_parens hopen).map
          (hsymbol rfl).map)))))

/-- What is found on some levels is found on any, unless they are used up. -/
theorem leaves_of_look {b : Option Char} {k : Nat} (h : g.look k v = .found ⟨b, r⟩ a)
    (levels : Nat) : (g.look levels v).Leaves r (· = a) := by
  by_cases htoo : g.look levels v = .tooDeep
  · exact .inl htoo
  · refine .inr ⟨b, a, ?_, rfl⟩
    rw [← look_eq_of_le (le_max_left levels k) htoo]
    exact look_of_le (le_max_right levels k) h

/-- **An operand is taken wherever it stands** and nothing goes on behind it. -/
theorem takesBetween_operand (hn : n.IsArithmetic) {a : Expression ρ}
    (h : look levels (call n) v = .found w a) : TakesBetween levels (call n) v w a := by
  by_cases hopen : v.rest.head? = some '('
  · exact takesBetween_of_opens rfl h hopen
  · obtain ⟨k, rfl, h⟩ := look_call_eq_found.1 h
    refine .call ?_
    cases hn with
    | expression => exact takesBetween_expressionForms h hopen
    | durativeExpression => exact takesBetween_durativeExpressionForms h hopen
    | metricExpression => exact takesBetween_metricExpressionForms h hopen

/-- An operand with a text of its own is read on any number of levels. -/
theorem takes_operand (hn : n.IsArithmetic) {ceiling : Nat} (p : Part (call n) ceiling) :
    TakesBefore goesOn (call n) p.text p.value := by
  obtain ⟨d, hd, hrest⟩ := p.whole
  have hsettled : Settled (call n) := settled_of_flagFree trivial
  have hlook : look ceiling (call n) ⟨none, p.text⟩ = .found d.view p.value :=
    (look_of_parse hsettled (calm_ofText _ _) hd).2
  obtain ⟨t, ht, -, htakes⟩ := takesBetween_operand hn hlook
  obtain rfl : p.text = t := by rwa [show d.view.rest = [] from hrest, List.append_nil] at ht
  exact ⟨htakes.solid, fun hr levels b => leaves_of_look (htakes.look b _ (.inr hr)) levels⟩

end

/-! ### Operations as they are written -/

section

variable {α : Type} {entries : List (String × α)} {e : String × α} {s : List Char} {n : Nat}

/-- A word that is there is found if no other one is. -/
theorem firstMatch?_of_only (he : e ∈ entries) (hn : keywordLength? e.1 s = some n)
    (honly : ∀ e' ∈ entries, e' ≠ e → keywordLength? e'.1 s = none) :
    Terminal.firstMatch? s entries = some (n, e.2) := by
  induction entries with
  | nil => cases he
  | cons e' entries ih =>
    rw [Terminal.firstMatch?]
    by_cases heq : e' = e
    · rw [heq, hn]
    · rw [honly e' (by simp) heq]
      exact ih ((List.mem_cons.1 he).resolve_left fun h => heq h.symm)
        fun x hx => honly x (List.mem_cons_of_mem _ hx)

end

/-- A word of a vocabulary is found wherever no name goes on, if no word begins another one. -/
theorem look_keyword_append {ω : Type} [Vocabulary ω] [PlainVocabulary ω]
    (hfree : ∀ x y : ω, (Vocabulary.keyword x).toList <+: (Vocabulary.keyword y).toList → x = y)
    (op : ω) (hr : r.head?.any isNameChar = false) (levels : Nat) (b : Option Char) :
    look levels (keyword ω) ⟨b, (Vocabulary.keyword op).toList ++ r⟩ =
      .found ⟨(Vocabulary.keyword op).toList.getLast?, r⟩ op := by
  have hword : ∀ x : ω, IsWord (Vocabulary.keyword x) := PlainVocabulary.isWord
  have hfirst : Terminal.firstMatch? ((Vocabulary.keyword op).toList ++ r)
      (Terminal.longestFirst (Vocabulary.entries ω)) =
        some ((Vocabulary.keyword op).toList.length, op) := by
    refine firstMatch?_of_only (e := (Vocabulary.keyword op, op))
      (mem_longestFirst.2 (List.mem_map.2 ⟨op, Vocabulary.complete op, rfl⟩))
      (keywordLength?_append_self (hword op) hr) fun e he hne => ?_
    obtain ⟨op', -, rfl⟩ := List.mem_map.1 (mem_longestFirst.1 he)
    by_contra hsome
    -- of two words in front, one begins the other
    have hfront := prefix_of_keywordLength? (hword op') (Option.isSome_iff_ne_none.2 hsome)
    obtain h | h := List.prefix_or_prefix_of_prefix hfront (List.prefix_append _ r)
    · exact hne (by rw [hfree op' op h])
    · exact hne (by rw [hfree op op' h])
  obtain ⟨c, cs, hc, -⟩ := (isHead_of_isWord (hword op)).solid
  exact lexeme_eq_found.2 ⟨_, hfirst, (View.advance_append (hc ▸ List.cons_ne_nil c cs) b r).symm⟩

theorem eq_of_prefix_arithmeticOp (x y : ArithmeticOp)
    (h : (Vocabulary.keyword x).toList <+: (Vocabulary.keyword y).toList) : x = y := by
  cases x <;> cases y <;> first | rfl | exact absurd h (by decide)

/-- An operator and operands in parentheses, each operand behind a gap. -/
def operationText {X : Type} (op : ArithmeticOp) (lead : Spacing) (text : X → List Char)
    (operands : List (Gap × X)) (trail : Spacing) : List Char :=
  '(' :: (lead.chars ++ ((Vocabulary.keyword op).toList ++ (behindGaps text operands ++
    (trail.chars ++ [')']))))

/-- A construct is closed behind spacing. -/
theorem leaves_closed {P : α → Prop} (trail : Spacing)
    (h : (g.look levels v).Leaves (trail.chars ++ ')' :: r) P) :
    (look levels (closed g) v).Leaves r P := by
  rw [look_closed]
  refine h.andThen fun b a ha => ?_
  obtain ⟨b', hb'⟩ := trail.exists_skipBlanks (blankLength_close r) b
  rw [hb', look_close]
  exact Finding.leaves_found ha

/-- In front of a closing parenthesis, with or without spacing, a reader is separated from what is
in front. -/
theorem exists_separated_close (trail : Spacing) (rd : Reader α) (b : Option Char)
    (r : List Char) : ∃ b',
      Reader.separated rd ⟨b, trail.chars ++ ')' :: r⟩ = rd ⟨b', ')' :: r⟩ := by
  have hsep : View.separates ⟨b, trail.chars ++ ')' :: r⟩ = true := by
    by_cases htrail : trail.chars = []
    · rw [htrail]
      exact View.separates_close b r
    · exact trail.separates htrail rfl
  obtain ⟨b', hb'⟩ := trail.exists_skipBlanks (blankLength_close r) b
  exact ⟨b', by rw [Reader.separated, if_pos hsep, hb']⟩

theorem any_eq_false_close (hp : EndsAtSpacing p) (hclose : p ')' = false) (trail : Spacing) :
    (trail.chars ++ ')' :: r).head?.any p = false :=
  trail.any_eq_false hp.blank hp.comment (by simpa using hclose)

section

variable {X : Type} {text : X → List Char} {value : X → α} {operands : List (Gap × X)} {x : X}
  {gap : Gap} {op : ArithmeticOp}

/-- Behind the parenthesis of an operation, its operator is found and the operands follow. -/
theorem exists_look_operation (h : Rule β) (op : ArithmeticOp) (lead : Spacing)
    (text : X → List Char) (operands : List (Gap × X)) (trail : Spacing) (r : List Char)
    (levels : Nat) (b : Option Char) : ∃ b',
      look levels (Grammar.parens (pair (keyword ArithmeticOp) h))
          ⟨b, operationText op lead text operands trail ++ r⟩ =
        (look levels (closed (separated h))
          ⟨b', behindGaps text operands ++ (trail.chars ++ ')' :: r)⟩).andThen
            fun w a => .found w (op, a) := by
  have hsolid : IsSolid (Vocabulary.keyword op).toList :=
    (isHead_of_isWord (PlainVocabulary.isWord op)).solid
  have hname : (behindGaps text operands ++ (trail.chars ++ ')' :: r)).head?.any isNameChar =
      false :=
    any_isNameChar_behindGaps text operands
      (any_eq_false_close endsAtSpacing_isNameChar (by decide) trail)
  have htext : operationText op lead text operands trail ++ r = '(' :: (lead.chars ++
      ((Vocabulary.keyword op).toList ++
        (behindGaps text operands ++ (trail.chars ++ ')' :: r)))) := by
    simp [operationText]
  obtain ⟨b₁, h₁⟩ := lead.exists_skipBlanks (blankLength_of_isSolid (hsolid.append
    (behindGaps text operands ++ (trail.chars ++ ')' :: r)))) (some '(')
  have h₂ := look_keyword_append eq_of_prefix_arithmeticOp op hname levels b₁
  refine ⟨(Vocabulary.keyword op).toList.getLast?, ?_⟩
  rw [htext, look_parens_closed rfl, look_closed_pair, View.inside, List.tail_cons, h₁, h₂]
  rfl

section

variable (hp : EndsAtSpacing p) (hclose : p ')' = false) (hg : ∀ r, g.Misses (')' :: r))
  (hx : ∀ x ∈ operands.map Prod.snd, g.TakesBefore p (text x) (value x))

include hp hclose hg hx

/-- The operands behind the first one are read up to the closing parenthesis. -/
theorem leaves_closed_operands (trail : Spacing) (levels : Nat) (b : Option Char) :
    (look levels (closed (separated (many g)))
      ⟨b, behindGaps text operands ++ (trail.chars ++ ')' :: r)⟩).Leaves r
        (· = (operands.map Prod.snd).map value) := by
  rw [look_closed_separated]
  rcases operands with _ | ⟨⟨gap, x⟩, operands⟩
  · obtain ⟨b', hb'⟩ := exists_separated_close trail (look levels (closed (many g))) b r
    rw [behindGaps_nil, List.nil_append, hb']
    exact leaves_closed .none (leaves_many_of_misses (hg r) levels b')
  · have hend : (trail.chars ++ ')' :: r).head?.any p = false := any_eq_false_close hp hclose trail
    have hstop : g.Stops (trail.chars ++ ')' :: r) := fun levels b => by
      obtain ⟨b', hb'⟩ := exists_separated_close trail (g.look levels) b r
      rw [hb']
      exact hg r levels b'
    obtain ⟨b', hb'⟩ := separated_row gap ⟨x, operands⟩ hx (look levels (closed (many g))) b
      (trail.chars ++ ')' :: r)
    rw [hb']
    exact leaves_closed trail (reads_many_row hp ⟨x, operands⟩ hx hend hstop levels b')

/-- **The operator and its operands are read** from a written operation. -/
theorem reads_operation (lead : Spacing) (hfirst : g.TakesBefore p (text x) (value x))
    (trail : Spacing) :
    Reads (Grammar.parens (pair (keyword ArithmeticOp) (pair g (many g))))
      (operationText op lead text ((gap, x) :: operands) trail) r
      (· = (op, value x, (operands.map Prod.snd).map value)) := by
  intro levels b
  have hend : (behindGaps text operands ++ (trail.chars ++ ')' :: r)).head?.any p = false :=
    any_eq_false_behindGaps hp text operands (any_eq_false_close hp hclose trail)
  obtain ⟨b₁, h₁⟩ := exists_look_operation (pair g (many g)) op lead text ((gap, x) :: operands)
    trail r levels b
  obtain ⟨b₂, h₂⟩ := gap.exists_separated (blankLength_of_isSolid (hfirst.solid.append
    (behindGaps text operands ++ (trail.chars ++ ')' :: r))))
    (look levels (closed (pair g (many g)))) b₁
  rw [h₁, look_closed_separated, behindGaps_cons, List.append_assoc, List.append_assoc, h₂,
    look_closed_pair]
  refine ((hfirst.reads hend levels b₂).andThen (fun b₃ a ha => ?_) :
    Finding.Leaves r (· = (value x, (operands.map Prod.snd).map value)) _).andThen ?_
  · subst ha
    refine (leaves_closed_operands hp hclose hg hx trail levels b₃).andThen fun b₄ as has => ?_
    exact Finding.leaves_found (congrArg (Prod.mk _) has)
  · rintro b₃ _ rfl
    exact Finding.leaves_found rfl

end

/-- Without operands, no operation is there. -/
theorem misses_operation (hg : ∀ r, g.Misses (')' :: r)) (h : Rule β) (op : ArithmeticOp)
    (lead : Spacing) (text : X → List Char) (trail : Spacing) (r : List Char) :
    Misses (Grammar.parens (pair (keyword ArithmeticOp) (pair g h)))
      (operationText op lead text [] trail ++ r) := by
  intro levels b
  obtain ⟨b₁, h₁⟩ := exists_look_operation (pair g h) op lead text [] trail r levels b
  obtain ⟨b₂, h₂⟩ := exists_separated_close trail (look levels (closed (pair g h))) b₁ r
  rw [h₁, behindGaps_nil, List.nil_append, look_closed_separated, h₂, look_closed_pair]
  exact (hg r levels b₂).andThen.andThen

end

/-! ### Forms of operators -/

section

variable {ρ : Type} {n : Nonterminal (Expression ρ)} {op : ArithmeticOp}

/-- An operation is read as arithmetic before anything else is tried. -/
theorem reads_production (hn : n.IsArithmetic) {P : Expression ρ → Prop} (hs : s.head? = some '(')
    (h : Reads (arithmetic (call n)) s r P) : Reads n.production s r P := by
  have hhead : (s ++ r).head? = some '(' := by rw [List.head?_append, hs]; rfl
  have hnumber : Misses number (s ++ r) := misses_number (by rw [hhead]; rfl)
  cases hn with
  | expression => exact .right hnumber.map (.left h)
  | durativeExpression =>
    exact .right (misses_word_of_head (by decide) (by rw [hhead]; decide)).map (.left h)
  | metricExpression => exact .right hnumber.map (.left h)

section

variable (hop : ∀ b, View.OpensWith ⟨b, s⟩ (Vocabulary.keyword op))

include hop

/-- A form of an operator that is no arithmetic is no other expression. -/
theorem misses_expressionForms_of_operator (h : Misses (arithmetic expression) s) :
    Misses expressionForms s := fun levels b => by
  rw [look_expressionForms_of_operator (hop b)]
  exact h levels b

theorem misses_durativeExpressionForms_of_operator (h : Misses (arithmetic durativeExpression) s) :
    Misses durativeExpressionForms s := by
  have hhead : s.head? = some '(' := (hop none).1
  refine .orElse (misses_word_of_head (by decide) (by rw [hhead]; decide)).map fun levels b => ?_
  rw [look_orElse]
  obtain hmissing | hmissing := h levels b
  · exact .inl (by rw [hmissing]; rfl)
  · rw [hmissing]
    refine Finding.Misses.andThen ?_
    -- the arithmetic of expressions is not there either, as it would be that of durative ones
    have harithmetic : ((arithmetic expression).look levels ⟨b, s⟩).Misses :=
      ((extends_durativeExpression levels).arithmetic misses_close_durativeExpression _).misses
        hmissing
    cases levels with
    | zero => exact .inl rfl
    | succ levels =>
      show Finding.Misses (expressionForms.look levels ⟨b, s⟩)
      rw [look_expressionForms_of_operator (hop b)]
      by_cases htoo : (arithmetic expression).look levels ⟨b, s⟩ = .tooDeep
      · exact .inl htoo
      · rwa [← look_succ _ htoo]

theorem misses_metricExpressionForms_of_operator (h : Misses (arithmetic metricExpression) s) :
    Misses metricExpressionForms s := by
  have hhead : s.head? = some '(' := (hop none).1
  have hstart : s.head?.any isNameStart = false := by rw [hhead]; rfl
  have hform : Misses (form "is-violated" (symbol .preference)) s := fun levels b => by
    refine .inr (headedBy_form "is-violated" _ levels _ fun x hx hopens => ?_)
    obtain rfl := List.mem_singleton.1 hx
    obtain ⟨t, ht⟩ := prefix_of_keywordLength? (by decide) hopens.2
    have hhead : ("is-violated".toList ++ t).head? = some 'i' := rfl
    have hno := any_isNameStart_of_operator (hop b)
    rw [← ht, hhead] at hno
    exact absurd hno (by decide)
  have happlied : Misses (Grammar.parens (pair (symbol .function) (many (symbol .name)))) s :=
    fun levels b => by
      rw [look_parens_closed (hop b).1, look_closed_pair, look_symbol_missing (hop b) rfl]
      exact .inr rfl
  exact .orElse (misses_number (by rw [hhead]; rfl)).map (.orElse h
    (.orElse (misses_word_of_head (by decide) (by rw [hhead]; decide)).map
      (.orElse hform.map (.orElse happlied.map (misses_symbol rfl hstart).map))))

end

/-- A form of an operator that is no arithmetic is no other expression. -/
theorem misses_production (hn : n.IsArithmetic)
    (hop : ∀ b, View.OpensWith ⟨b, s⟩ (Vocabulary.keyword op))
    (h : Misses (arithmetic (call n)) s) : Misses n.production s := by
  cases hn with
  | expression => exact misses_expressionForms_of_operator hop h
  | durativeExpression => exact misses_durativeExpressionForms_of_operator hop h
  | metricExpression => exact misses_metricExpressionForms_of_operator hop h

theorem opensWith_operationText {X : Type} (op : ArithmeticOp) (lead : Spacing)
    (text : X → List Char) (operands : List (Gap × X)) (trail : Spacing) (b : Option Char) :
    View.OpensWith ⟨b, operationText op lead text operands trail⟩ (Vocabulary.keyword op) := by
  have hword : IsWord (Vocabulary.keyword op) := PlainVocabulary.isWord op
  have hname : (behindGaps text operands ++ (trail.chars ++ [')'])).head?.any isNameChar = false :=
    any_isNameChar_behindGaps text operands
      (any_eq_false_close endsAtSpacing_isNameChar (by decide) trail)
  obtain ⟨b', hb'⟩ := lead.exists_skipBlanks (blankLength_of_isSolid
    ((isHead_of_isWord hword).solid.append (behindGaps text operands ++ (trail.chars ++ [')']))))
    (some '(')
  refine ⟨rfl, ?_⟩
  rw [View.inside, operationText, List.tail_cons, hb', keywordLength?_append_self hword hname]
  rfl

/-! ### Operand counts -/

variable {ceiling : Nat}

/-- The operator and the operands are read wherever the operation stands. -/
theorem reads_operands (hn : n.IsArithmetic) (op : ArithmeticOp) (lead : Spacing) (gap : Gap)
    (e : Part (call n) ceiling) (operands : List (Gap × Part (call n) ceiling)) (trail : Spacing)
    (r : List Char) :
    Reads (Grammar.parens (pair (keyword ArithmeticOp) (pair (call n) (many (call n)))))
      (operationText op lead Part.text ((gap, e) :: operands) trail) r
      (· = (op, e.value, operands.map (·.2.value))) := by
  have hvalues : operands.map (·.2.value) = (operands.map Prod.snd).map Part.value := by
    rw [List.map_map]
    rfl
  rw [hvalues]
  exact reads_operation endsAtSpacing_goesOn (by decide) (fun _ => misses_operand hn rfl)
    (fun x _ => takes_operand hn x) lead (takes_operand hn e) trail

/-- An operation with as many operands as the operator takes is read as what the operator makes of
them. -/
theorem reads_operationText (hn : n.IsArithmetic) {x : Expression ρ} (lead : Spacing)
    {operands : List (Gap × Part (call n) ceiling)} (trail : Spacing)
    (hx : Expression.Applies op (operands.map (·.2.value)) x) (r : List Char) :
    Reads (call n) (operationText op lead Part.text operands trail) r (· = x) := by
  rcases operands with _ | ⟨⟨gap, e⟩, operands⟩
  · exact absurd hx Expression.not_applies_nil
  · refine reads_call (reads_production hn rfl
      ((reads_operands hn op lead gap e operands trail r).refine ?_))
    rintro _ rfl
    exact ⟨x, Expression.applies_iff.1 hx, rfl⟩

/-- An operation with any other number of operands is no expression. -/
theorem misses_operationText (hn : n.IsArithmetic) (lead : Spacing)
    {operands : List (Gap × Part (call n) ceiling)} (trail : Spacing)
    (hno : ¬∃ x, Expression.Applies op (operands.map (·.2.value)) x) :
    Misses (call n) (operationText op lead Part.text operands trail) := by
  refine misses_call (misses_production hn (opensWith_operationText op lead _ operands trail) ?_)
  rcases operands with _ | ⟨⟨gap, e⟩, operands⟩
  · have h := misses_operation (fun _ => misses_operand hn rfl) (many (call n)) op lead
      (Part.text : Part (call n) ceiling → List Char) trail []
    rw [List.append_nil] at h
    exact h.refine
  · intro levels b
    have h := reads_operands hn op lead gap e operands trail [] levels b
    rw [List.append_nil] at h
    refine h.andThen_misses ?_
    rintro b' _ rfl
    rcases hx : Expression.ofOperands (op, e.value, operands.map (·.2.value)) with c | x
    · obtain ⟨m, rfl⟩ := Expression.exists_unmet hx
      exact .inr (by rw [hx]; rfl)
    · exact absurd ⟨x, Expression.applies_iff.2 hx⟩ hno

/-- **Arithmetic takes exactly the allowed numbers of operands.**  An operator with operands, each
of which is read completely from its own text, is read as what the operator makes of them: one
operand of a sign, two of any operator, and more of a sum or product.  With any other number of
operands, there is no expression. -/
theorem parse_operationText (hn : n.IsArithmetic) (op : ArithmeticOp) (lead : Spacing)
    (operands : List (Gap × Part (call n) ceiling)) (trail : Spacing) (ceiling' : Nat)
    (hdeep : ∀ limit offset,
      parse (call n) (Cursor.ofText (operationText op lead Part.text operands trail) ceiling') ≠
        .error (.tooDeep limit offset)) :
    let c := Cursor.ofText (operationText op lead Part.text operands trail) ceiling'
    (∀ x, Expression.Applies op (operands.map (·.2.value)) x →
      ∃ d, parse (call n) c = .ok (d, x) ∧ d.rest = []) ∧
    (¬(operands.length = 1 ∧ op = .minus ∨ operands.length = 2 ∨
        3 ≤ operands.length ∧ (op = .plus ∨ op = .times)) →
      ∃ m, parse (call n) c = .error (.mismatch m) ∧ m.committed = false) := by
  have hsettled : Settled (call n) := settled_of_flagFree trivial
  refine ⟨fun x hx => ?_, fun hcount => ?_⟩
  · have hreads := reads_operationText hn lead trail hx [] ceiling' none
    rw [List.append_nil] at hreads
    obtain ⟨d, _, hd, rfl, hrest⟩ := parse_of_leaves hsettled hreads hdeep
    exact ⟨d, hd, hrest⟩
  · have hno : ¬∃ x, Expression.Applies op (operands.map (·.2.value)) x := by
      rwa [Expression.exists_applies_iff, List.length_map]
    have hne := look_ne_tooDeep_of_parse hsettled (calm_ofText _ _) hdeep
    exact parse_of_look_missing hsettled (calm_ofText _ _)
      ((misses_operationText hn lead trail hno ceiling' none).resolve_left hne)

end

/-- One operand is negated, and three are not divided. -/
theorem parse_operationText_one_three :
    let a : Part (call .expression) 10 := .ofText _ "a".toList 10 (by decide +kernel)
    (∃ d, expression.parse (Cursor.ofText "(- ;c\n a )".toList 10) = .ok (d, .negative a.value) ∧
      d.rest = []) ∧
    ∃ m, expression.parse (Cursor.ofText "( / a 2.5 a)".toList 10) = .error (.mismatch m) ∧
      m.committed = false := by
  intro a
  let b : Part (call .expression) 10 := .ofText _ "2.5".toList 10 (by decide +kernel)
  let gap : Gap := ⟨⟨" ;c\n ".toList, by decide, by decide⟩, by decide⟩
  have hminus : operationText .minus .none Part.text [(gap, a)] .one = "(- ;c\n a )".toList := by
    decide +kernel
  have hdivide : operationText .divide .one Part.text [(.one, a), (.one, b), (.one, a)] .none =
      "( / a 2.5 a)".toList := by decide +kernel
  obtain ⟨h₁, -⟩ := parse_operationText .expression .minus .none [(gap, a)] .one 10
    (parse_ne_tooDeep .expression (by decide +kernel))
  obtain ⟨-, h₃⟩ := parse_operationText .expression .divide .one
    [(.one, a), (.one, b), (.one, a)] .none 10
    (parse_ne_tooDeep .expression (by decide +kernel))
  rw [hminus] at h₁
  rw [hdivide] at h₃
  exact ⟨h₁ _ (.negative a.value), h₃ (by simp)⟩

end Rule

end Pddl
