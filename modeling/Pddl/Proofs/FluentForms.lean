import Pddl.Proofs.Operations

/-!
# Forms of functions without arguments

A function without arguments is written with or without parentheses.  Both forms are alternatives of
one rule, but they are not tried at the same time, and some other alternative may be tried before.
In parentheses, there might be terms, so one more level is tried there.

* `FluentForm` : the two forms; `FluentForm.Fits` : where a function may be written so.
* `Rule.Spells` : a rule reads a form of a function as a construct, where nothing goes on behind.
* `Rule.spells_fluent`, `Rule.spells_expression`, `Rule.spells_metricExpression`,
  `Rule.spells_groundTerm` : **fluents without arguments are read in both forms.**
* `Rule.exists_enclosed`, `Rule.exists_bare` : a function that is read without arguments is written
  in one of them.
* `Rule.isElement_fluent`, `Rule.isElement_expression`, … : fluents and expressions are elements.
-/

namespace Pddl

/-! ### Two spellings -/

/-- A way of writing a function without arguments. -/
inductive FluentForm where
  /-- Its name only. -/
  | bare
  /-- Its name in parentheses, with spacing around it. -/
  | enclosed (lead trail : Spacing)

namespace FluentForm

variable {φ : FluentForm} {f : FunctionSymbol} {front back lead trail : Spacing} {p r : List Char}

/-- The characters of a function that is written so. -/
def chars (f : FunctionSymbol) : FluentForm → List Char
  | bare => f.written.toList
  | enclosed lead trail => '(' :: (lead.chars ++ (f.written.toList ++ (trail.chars ++ [')'])))

/-- A function that is written so fits between other characters, with spacing around it: without
parentheses, it stands between blanks, at the beginning of the text, or at the end of it or of a
form. -/
structure Fits (φ : FluentForm) (front back : Spacing) (p r : List Char) : Prop where
  /-- No spacing stands at the beginning of the text, as none is skipped there. -/
  start : p = [] → front.chars = []
  /-- A blank ends what stands in front of a name. -/
  front : φ = .bare → p ≠ [] → (p ++ front.chars).getLast?.any isBlank = true
  /-- A name is delimited by what follows it. -/
  back : φ = .bare → Delimited (back.chars ++ r)

theorem isSolid_chars (φ : FluentForm) (f : FunctionSymbol) : IsSolid (φ.chars f) := by
  cases φ with
  | bare => exact (Rule.takesOn_symbol f 0).solid
  | enclosed lead trail => exact ⟨'(', _, rfl, by decide⟩

theorem getLast?_enclosed : ((enclosed lead trail).chars f).getLast? = some ')' := by
  rw [chars, ← List.cons_append, ← List.append_assoc, ← List.append_assoc, List.getLast?_concat]

namespace Fits

theorem setOff (h : φ.Fits front back p r) (hp : p ≠ []) {s : List Char} :
    SetOff (p ++ front.chars) (φ.chars f ++ s) := by
  cases φ with
  | bare => exact .inl (h.front rfl hp)
  | enclosed lead trail => exact .inr rfl

theorem parted (h : φ.Fits front back p r) : Parted (φ.chars f) (back.chars ++ r) := by
  cases φ with
  | bare => exact .inr ((h.back rfl).any_eq_false (by decide) endsAtSpacing_goesOn.blank)
  | enclosed lead trail => exact .inl getLast?_enclosed

theorem delimited (h : φ.Fits front back p r) :
    (φ.chars f).getLast? = some ')' ∨ Delimited (back.chars ++ r) := by
  cases φ with
  | bare => exact .inr (h.back rfl)
  | enclosed lead trail => exact .inl getLast?_enclosed

end Fits

end FluentForm

namespace Rule

open Grammar

variable {α β : Type} {levels k : Nat} {deep : Prop} {g : Rule α} {h : Rule β} {f : FunctionSymbol}
  {φ : FluentForm} {front back lead trail : Spacing} {u v w y : View} {a : α} {p : List Char}

/-! ### Rules that read a spelling -/

/-- On the given levels, the rule reads the function in this form as the construct, where nothing
goes on behind it. -/
def Spells (deep : Prop) (levels : Nat) (g : Rule α) (f : FunctionSymbol) (φ : FluentForm) (a : α) :
    Prop :=
  ∀ b r, Parted (φ.chars f) r →
    (g.look levels ⟨b, φ.chars f ++ r⟩).Reaches deep ⟨(φ.chars f).getLast?, r⟩ a

/-- What is spelled so may stand in the place of the construct where it fits. -/
theorem Spells.exchanges (h : Spells deep levels g f φ a) (hfits : φ.Fits front back p y.rest) :
    Exchanges deep levels g y a (φ.chars f ++ (back.chars ++ y.rest)) where
  solid := (φ.isSolid_chars f).append _
  look := ⟨⟨(φ.chars f).getLast?, back.chars ++ y.rest⟩, back, fun b => h b _ hfits.parted, rfl,
    hfits.delimited⟩

/-- Inside the parentheses stands the name of the function. -/
theorem exists_inside_enclosed (f : FunctionSymbol) (lead trail : Spacing) (b : Option Char)
    (r : List Char) : ∃ b',
      View.inside ⟨b, (FluentForm.enclosed lead trail).chars f ++ r⟩ =
        ⟨b', f.written.toList ++ (trail.chars ++ ')' :: r)⟩ ∧
      ∀ levels, look levels (symbol .function) ⟨b', f.written.toList ++ (trail.chars ++ ')' :: r)⟩ =
        .found ⟨f.written.toList.getLast?, trail.chars ++ ')' :: r⟩ f := by
  obtain ⟨b', hb'⟩ := lead.exists_skipBlanks (blankLength_of_isSolid
    ((takesOn_symbol f 0).solid.append (trail.chars ++ ')' :: r))) (some '(')
  refine ⟨b', ?_, fun levels => (takesOn_symbol f levels).look b' _
    (.inr (any_eq_false_close endsAtSpacing_goesOn (by decide) trail))⟩
  rw [← hb', View.inside, FluentForm.chars]
  simp

/-- In parentheses, the function is read without arguments, if none begins at the closing one. -/
theorem reaches_enclosed (hh : ∀ {v : View}, v.rest.head? = some ')' →
      h.look levels v = .missing ∨ deep ∧ h.look levels v = .tooDeep)
    (f : FunctionSymbol) (lead trail : Spacing) (b : Option Char) (r : List Char) :
    (look levels (Grammar.parens (pair (symbol .function) (many h)))
      ⟨b, (FluentForm.enclosed lead trail).chars f ++ r⟩).Reaches deep ⟨some ')', r⟩ (f, []) := by
  obtain ⟨b₁, hinside, hsymbol⟩ := exists_inside_enclosed f lead trail b r
  obtain ⟨b₂, hclose⟩ := exists_separated_close trail (look levels (closed (many h)))
    f.written.toList.getLast? r
  have hmany : (look levels (closed (many h)) ⟨b₂, ')' :: r⟩).Reaches deep ⟨some ')', r⟩ [] := by
    rw [look_closed_many, show look levels (.opt h) _ = Reader.opt (h.look levels) _ from rfl,
      Reader.opt]
    obtain hmissing | ⟨hdeep, htoo⟩ := hh (v := ⟨b₂, ')' :: r⟩) rfl
    · rw [hmissing]
      exact .inl (look_noElements_of_closes ⟨r, rfl, rfl⟩)
    · rw [htoo]
      exact .inr ⟨hdeep, rfl⟩
  rw [look_parens_closed rfl, hinside, look_closed_pair, hsymbol, Finding.andThen,
    look_closed_separated, hclose]
  exact hmany.andThen (Finding.reaches_found _ _)

/-- A function in parentheses is no number and no arithmetic, just as its name is none. -/
theorem look_number_spelled (f : FunctionSymbol) (φ : FluentForm) (b : Option Char)
    (r : List Char) : look levels number ⟨b, φ.chars f ++ r⟩ = .missing := by
  refine look_number_missing ?_
  cases φ with
  | bare => exact (head?_function f r).1
  | enclosed lead trail => rfl

theorem look_arithmetic_spelled {ρ : Type} {operand : Rule (Expression ρ)} (f : FunctionSymbol)
    (φ : FluentForm) (b : Option Char) (r : List Char) :
    (arithmetic operand).look levels ⟨b, φ.chars f ++ r⟩ = .missing := by
  cases φ with
  | bare => exact look_arithmetic_missing (head?_function f r).2
  | enclosed lead trail =>
    by_contra hne
    obtain ⟨op, hop⟩ := exists_operator hne
    obtain ⟨b', hinside, hsymbol⟩ := exists_inside_enclosed f lead trail b r
    have hmissing : look levels (symbol .function) _ = .missing := look_symbol_missing hop rfl
    rw [hinside, hsymbol] at hmissing
    cases hmissing

/-- Where no name begins, there is no symbol without a sigil. -/
theorem look_symbol_missing_of_head {kind : SymbolKind} (hk : kind.sigil = "")
    (hv : v.rest.head?.any isNameStart = false) : look levels (symbol kind) v = .missing := by
  rw [look_symbol, Terminal.symbolLexeme?_eq_none hk hv]
  rfl

/-- No term begins at a closing parenthesis. -/
theorem look_term_close (hv : v.rest.head? = some ')') :
    term.look levels v = .missing ∨ levels = 0 ∧ term.look levels v = .tooDeep := by
  cases levels with
  | zero => exact .inr ⟨rfl, rfl⟩
  | succ levels =>
    left
    have hstart : v.rest.head?.any isNameStart = false := by rw [hv]; rfl
    have hopen : v.rest.head? ≠ some '(' := by rw [hv]; decide
    have hvar : Terminal.symbolLexeme? .var v.rest = none :=
      Terminal.symbolLexeme?_var_eq_none (by rw [hv]; decide)
    show look levels termForms v = .missing
    rw [termForms, look_orElse_eq_missing, look_orElse_eq_missing, look_map_eq_missing,
      look_map_eq_missing, look_map_eq_missing, functionTerm, look_map_eq_missing]
    exact ⟨by rw [look_symbol, hvar]; rfl, look_parens_missing hopen,
      look_symbol_missing_of_head rfl hstart⟩

/-- A fluent without arguments is read in both forms. -/
theorem spells_fluent (hdeep : φ ≠ .bare → levels = 0 → deep) :
    Spells deep levels fluent f φ ⟨f, []⟩ := by
  intro b r hr
  cases φ with
  | bare => exact .inl (((takesOn_symbol f levels).map _).left.look b r hr)
  | enclosed lead trail =>
    rw [FluentForm.getLast?_enclosed, fluent, look_orElse]
    refine .of_missing (look_map_eq_missing.2 (look_symbol_missing_of_head rfl rfl)) ?_
    refine reaches_map (reaches_enclosed (fun hv => ?_) f lead trail b r)
    exact (look_term_close hv).imp_right fun hzero =>
      ⟨hdeep FluentForm.noConfusion hzero.1, hzero.2⟩

/-- An expression that is a fluent without arguments is read in both forms. -/
theorem spells_expression (hdeep : φ ≠ .bare → levels = 0 → deep) :
    Spells deep (levels + 1) expression f φ (.reference ⟨f, []⟩) := by
  intro b r hr
  show (look levels expressionForms _).Reaches deep _ _
  rw [expressionForms, look_orElse, look_orElse]
  refine .of_missing (look_map_eq_missing.2 (look_number_spelled f φ b r)) ?_
  refine .of_missing (look_arithmetic_spelled f φ b r) ?_
  exact reaches_map (spells_fluent hdeep b r hr)

/-- A name in parentheses is no form whose head word has something behind it. -/
theorem look_form_enclosed {c : String} (hc : IsWord c) (hn : isName c.toList = true)
    (hh : ∀ {v : View}, v.rest.head? = some ')' → h.look levels v = .missing)
    (f : FunctionSymbol) (lead trail : Spacing) (b : Option Char) (r : List Char) :
    look levels (form c h) ⟨b, (FluentForm.enclosed lead trail).chars f ++ r⟩ = .missing := by
  obtain ⟨b', hinside, hsymbol⟩ := exists_inside_enclosed f lead trail b r
  rw [form, look_parens_closed rfl, hinside, look_closed_word, look_word_eq]
  rcases hlength : keywordLength? c (f.written.toList ++ (trail.chars ++ ')' :: r)) with _ | n
  · rfl
  · -- then the function has this name
    have hword : Terminal.symbolLexeme? .function (f.written.toList ++ (trail.chars ++ ')' :: r)) =
        some (n, ⟨c, hn⟩) := Terminal.symbolLexeme?_of_keywordLength? rfl hc hn hlength
    obtain ⟨m, hm, hview⟩ := lexeme_eq_found.1 (look_symbol.symm.trans (hsymbol levels))
    obtain ⟨rfl, -⟩ := Prod.mk.inj (Option.some.inj (hm.symm.trans hword))
    have hclose : (View.skipBlanks ⟨f.written.toList.getLast?, trail.chars ++ ')' :: r⟩).rest =
        ')' :: r := trail.rest_skipBlanks rfl (blankLength_close r)
    rw [Option.map_some, Finding.lexeme, ← hview, Finding.andThen, look_closed,
      hh (by rw [hclose]; rfl)]
    rfl

/-- The expression of a metric that is a function of no objects is read in both forms, but the name
of the total time is no function. -/
theorem spells_metricExpression (hf : φ = .bare → f.text ≠ "total-time") :
    Spells deep (levels + 1) metricExpression f φ (.reference (.function f [])) := by
  intro b r hr
  cases φ with
  | bare => exact .inl ((takesOn_metricExpressionForms (hf rfl) levels).look b r hr)
  | enclosed lead trail =>
    have hstart : ∀ {v : View}, v.rest.head? = some ')' → v.rest.head?.any isNameStart = false :=
      fun hv => by rw [hv]; rfl
    have hforms : ∀ v, look (levels + 1) metricExpression v = look levels metricExpressionForms v :=
      fun _ => rfl
    rw [FluentForm.getLast?_enclosed, hforms, metricExpressionForms, look_orElse, look_orElse,
      look_orElse, look_orElse, look_orElse]
    refine .of_missing (look_map_eq_missing.2 (look_number_spelled f _ b r)) ?_
    refine .of_missing (look_arithmetic_spelled f _ b r) ?_
    refine .of_missing (look_map_eq_missing.2 (look_word_missing (by decide)
      (ne_of_beq_false rfl))) ?_
    refine .of_missing (look_map_eq_missing.2 (look_form_enclosed (by decide) (by decide)
      (h := symbol .preference)
      (fun hv => look_symbol_missing_of_head rfl (hstart hv)) f lead trail b r)) ?_
    exact (reaches_map (reaches_enclosed (h := symbol .name)
      (fun hv => .inl (look_symbol_missing_of_head rfl (hstart hv))) f lead trail b r)).orElse

/-- A function of no objects is read in both forms. -/
theorem spells_groundTerm : Spells deep levels groundTerm f φ ⟨f, []⟩ := by
  intro b r hr
  cases φ with
  | bare => exact .inl (((takesOn_symbol f levels).map _).left.look b r hr)
  | enclosed lead trail =>
    have hname : ∀ {v : View}, v.rest.head? = some ')' →
        look levels (symbol .name) v = .missing ∨ False ∧ look levels (symbol .name) v = .tooDeep :=
      fun hv => .inl (look_symbol_missing_of_head rfl (by rw [hv]; rfl))
    obtain ⟨hopen, u, hu, hclose⟩ := look_parens_eq_found.1
      (Finding.reaches_false.1 (reaches_enclosed hname f lead trail b r))
    rw [FluentForm.getLast?_enclosed]
    exact .inl (look_orElse_eq_found.2 (.inr ⟨look_map_eq_missing.2
      (look_symbol_missing_of_head rfl rfl), look_map_eq_found.2
        ⟨_, look_parens_eq_found.2 ⟨hopen, u, look_headed_of_pair hu, hclose⟩, rfl⟩⟩))

/-! ### Spellings that are read -/

/-- Where a function is read in parentheses without arguments, it is written so. -/
theorem exists_enclosed
    (hu : look levels (Grammar.parens (headed (symbol .function) (many h))) u = .found w (f, [])) :
    ∃ φ : FluentForm, u.rest = φ.chars f ++ w.rest := by
  obtain ⟨hopen, x, hx, r, hr, rfl⟩ := look_parens_eq_found.1 hu
  obtain ⟨y, hf, hmany⟩ := look_headed_eq_found.1 hx
  obtain ⟨s, hinside, rfl, -⟩ := exists_of_look_symbol hf
  have hinside : u.inside.rest = f.written.toList ++ s := congrArg View.rest hinside
  obtain ⟨lead, hlead, -⟩ := View.exists_inside hopen (takesOn_symbol f levels).solid hinside
  obtain ⟨-, rfl⟩ | ⟨_, _, _, hcons, -⟩ := look_many_eq_found hmany
  · rw [View.skipBlanks_skipBlanks] at hr
    obtain ⟨trail, htrail⟩ := View.exists_spacing (hr ▸ List.cons_ne_nil ')' r)
    rw [View.rest_advance, hinside, List.drop_left, hr] at htrail
    exact ⟨.enclosed lead trail, by rw [hlead, htrail]; simp [FluentForm.chars]⟩
  · cases hcons

theorem exists_bare (hu : look levels (symbol .function) u = .found w f) :
    ∃ φ : FluentForm, u.rest = φ.chars f ++ w.rest := by
  obtain ⟨r, hr, rfl, -⟩ := exists_of_look_symbol hu
  have hr : u.rest = f.written.toList ++ r := congrArg View.rest hr
  exact ⟨.bare, by rw [View.rest_advance, hr, List.drop_left, FluentForm.chars]⟩

theorem exists_form_of_fluent (hu : fluent.look levels u = .found w ⟨f, []⟩) :
    ∃ φ : FluentForm, u.rest = φ.chars f ++ w.rest := by
  obtain hu | ⟨-, hu⟩ := look_orElse_eq_found.1 hu
  · obtain ⟨f', hf, heq⟩ := look_map_eq_found.1 hu
    cases heq
    exact exists_bare hf
  · obtain ⟨⟨f', ts⟩, hf, heq⟩ := look_map_eq_found.1 hu
    cases heq
    obtain ⟨hopen, x, hx, hclose⟩ := look_parens_eq_found.1 hf
    exact exists_enclosed (look_parens_eq_found.2 ⟨hopen, x, look_headed_of_pair hx, hclose⟩)

theorem exists_form_of_groundTerm (hu : groundTerm.look levels u = .found w ⟨f, []⟩) :
    ∃ φ : FluentForm, u.rest = φ.chars f ++ w.rest := by
  obtain hu | ⟨-, hu⟩ := look_orElse_eq_found.1 hu
  · obtain ⟨f', hf, heq⟩ := look_map_eq_found.1 hu
    cases heq
    exact exists_bare hf
  · obtain ⟨⟨f', ns⟩, hf, heq⟩ := look_map_eq_found.1 hu
    cases heq
    exact exists_enclosed hf

/-- An expression is a number, arithmetic or a fluent. -/
theorem look_expression_cases {e : NumericExpression} (h : expression.look (k + 1) u = .found w e) :
    (∃ x, e = .number x) ∨ (arithmetic expression).look k u = .found w e ∨
      ∃ t, fluent.look k u = .found w t ∧ e = .reference t := by
  have h : expressionForms.look k u = .found w e := h
  obtain h | ⟨-, h⟩ := look_orElse_eq_found.1 h
  · obtain ⟨x, -, rfl⟩ := look_map_eq_found.1 h
    exact .inl ⟨x, rfl⟩
  obtain h | ⟨-, h⟩ := look_orElse_eq_found.1 h
  · exact .inr (.inl h)
  · obtain ⟨t, ht, rfl⟩ := look_map_eq_found.1 h
    exact .inr (.inr ⟨t, ht, rfl⟩)

/-- The expression of a metric is a number, arithmetic or a reference; a function without arguments
is written in one of the two forms. -/
theorem look_metricExpression_cases {e : MetricExpression}
    (h : metricExpression.look (k + 1) u = .found w e) :
    (∃ x, e = .number x) ∨ (arithmetic metricExpression).look k u = .found w e ∨
      ∃ t, e = .reference t ∧
        ∀ f, t = .function f [] → ∃ φ : FluentForm, u.rest = φ.chars f ++ w.rest := by
  have h : metricExpressionForms.look k u = .found w e := h
  obtain h | ⟨-, h⟩ := look_orElse_eq_found.1 h
  · obtain ⟨x, -, rfl⟩ := look_map_eq_found.1 h
    exact .inl ⟨x, rfl⟩
  obtain h | ⟨-, h⟩ := look_orElse_eq_found.1 h
  · exact .inr (.inl h)
  right; right
  obtain h | ⟨-, h⟩ := look_orElse_eq_found.1 h
  · obtain ⟨x, -, rfl⟩ := look_map_eq_found.1 h
    exact ⟨_, rfl, nofun⟩
  obtain h | ⟨-, h⟩ := look_orElse_eq_found.1 h
  · obtain ⟨x, -, rfl⟩ := look_map_eq_found.1 h
    exact ⟨_, rfl, nofun⟩
  obtain h | ⟨-, h⟩ := look_orElse_eq_found.1 h
  · obtain ⟨⟨f, ns⟩, hx, rfl⟩ := look_map_eq_found.1 h
    refine ⟨_, rfl, ?_⟩
    rintro f ⟨⟩
    obtain ⟨hopen, x, hx, hclose⟩ := look_parens_eq_found.1 hx
    exact exists_enclosed (look_parens_eq_found.2 ⟨hopen, x, look_headed_of_pair hx, hclose⟩)
  · obtain ⟨f, hf, rfl⟩ := look_map_eq_found.1 h
    refine ⟨_, rfl, ?_⟩
    rintro f ⟨⟩
    exact exists_bare hf

/-- Arithmetic is no reference. -/
theorem arithmetic_ne_reference {ρ : Type} {operand : Rule (Expression ρ)} {t : ρ} :
    (arithmetic operand).look levels u ≠ .found w (.reference t) := fun hu => by
  obtain ⟨-, op, -, e₁, es, -, -, he⟩ := exists_of_look_arithmetic hu
  cases Expression.applies_iff.2 he

theorem exists_form_of_expression (hu : expression.look k u = .found w (.reference ⟨f, []⟩)) :
    ∃ φ : FluentForm, u.rest = φ.chars f ++ w.rest := by
  obtain ⟨k, rfl, -⟩ := look_call_eq_found.1 hu
  obtain ⟨x, hx⟩ | h | ⟨t, ht, heq⟩ := look_expression_cases hu
  · cases hx
  · exact absurd h arithmetic_ne_reference
  · cases heq
    exact exists_form_of_fluent ht

theorem exists_form_of_metricExpression
    (hu : metricExpression.look k u = .found w (.reference (.function f []))) :
    ∃ φ : FluentForm, u.rest = φ.chars f ++ w.rest := by
  obtain ⟨k, rfl, -⟩ := look_call_eq_found.1 hu
  obtain ⟨x, hx⟩ | h | ⟨t, heq, ht⟩ := look_metricExpression_cases hu
  · cases hx
  · exact absurd h arithmetic_ne_reference
  · cases heq
    exact ht f rfl

/-! ### Elements -/

theorem isElement_number : IsElement levels number where
  takes := takesBetween_number
  close hv := look_number_missing (by rw [hv]; rfl)

/-- A function by its name or in parentheses is an element. -/
theorem isElement_function {F : FunctionSymbol → α} {G : β → α}
    (hnext : (F <$> symbol .function <|> G <$> Grammar.parens h).next .before = some .behind) :
    IsElement levels (F <$> symbol .function <|> G <$> Grammar.parens h) where
  takes {v _ _} ha := by
    by_cases hopen : v.rest.head? = some '('
    · exact takesBetween_of_opens hnext ha hopen
    · obtain ha | ⟨-, ha⟩ := look_orElse_eq_found.1 ha
      · obtain ⟨f, hf, rfl⟩ := look_map_eq_found.1 ha
        obtain ⟨r, hv, hw, -⟩ := exists_of_look_symbol hf
        exact .of_append hv hw ((takesOn_symbol f levels).map F).left
      · rw [look_map, look_parens_missing hopen] at ha
        cases ha
  close hv := look_orElse_eq_missing.2 ⟨look_map_eq_missing.2
    (look_symbol_missing_of_head rfl (by rw [hv]; rfl)),
      look_map_eq_missing.2 (look_parens_missing (by rw [hv]; decide))⟩

theorem isElement_fluent : IsElement levels fluent := isElement_function rfl

theorem isElement_groundTerm : IsElement levels groundTerm := isElement_function rfl

theorem isElement_expression : IsElement (levels + 1) expression where
  takes := takesBetween_operand .expression
  close {v} hv := by
    show look levels expressionForms v = .missing
    rw [expressionForms, look_orElse_eq_missing, look_orElse_eq_missing, look_map_eq_missing,
      look_map_eq_missing]
    exact ⟨isElement_number.close hv, look_arithmetic_missing (by rw [hv]; decide),
      isElement_fluent.close hv⟩

theorem isElement_metricExpression : IsElement (levels + 1) metricExpression where
  takes := takesBetween_operand .metricExpression
  close {v} hv := by
    have hopen : v.rest.head? ≠ some '(' := by rw [hv]; decide
    show look levels metricExpressionForms v = .missing
    rw [metricExpressionForms]
    simp only [look_orElse_eq_missing, look_map_eq_missing]
    exact ⟨isElement_number.close hv, look_arithmetic_missing hopen,
      look_word_missing (by decide) (by rw [hv]; decide), look_parens_missing hopen,
      look_parens_missing hopen, look_symbol_missing_of_head rfl (by rw [hv]; rfl)⟩

end Rule

end Pddl
