import Pddl.Proofs.DurativeExpressions

/-!
# Printed expressions are read back

Every expression tree has a text, not only those that were read.  Texts hold no signs of numbers;
zero is the only number not below zero that may have one, and it is equal to the zero that is read
back.

* `Node.Same` : nodes that are equal one by one.
* `Expression.IsPrintable` : numbers are not below zero, and operators of many operands have at
  least three.
* `Expression.unsigned` : the expression with the magnitudes of its numbers.
* `Rule.recovers_durativeExpression` : every regular expression of a durative action is read back.
* `Rule.parse_printed_durativeExpression` : **an equal expression is parsed from what is printed.**
-/

namespace Pddl

/-! ### Equal nodes -/

namespace Node

/-- One by one, the nodes are equal. -/
def Same (ms ns : List Node) : Prop := List.Forall₂ (fun m n => m.same n = true) ms ns

variable {ms ns : List Node}

theorem Same.allSame (h : Same ms ns) : allSame ms ns = true := by
  induction h with
  | nil => rfl
  | cons h _ ih =>
    rw [Node.allSame, h, ih]
    rfl

theorem Same.form (h : Same ms ns) (k : Kind) : (form k ms).same (.form k ns) = true := by
  simp [same, h.allSame]

theorem Same.tuple (h : Same ms ns) : (tuple ms).same (.tuple ns) = true := by
  simp [same, h.allSame]

theorem same_symbol {kind : SymbolKind} (s : Symbol kind) : (symbol s).same (symbol s) = true := by
  simp [same, sameLeaf]

theorem same_keyword {ω : Type} [Vocabulary ω] (a : ω) : (toNode a).same (toNode a) = true := by
  simp [toNode, same, sameLeaf, word?]

theorem same_map {α : Type} {f g : α → Node} {as : List α}
    (h : ∀ a ∈ as, (f a).same (g a) = true) : Same (as.map f) (as.map g) := by
  induction as with
  | nil => exact .nil
  | cons a as ih => exact .cons (h a (by simp)) (ih fun b hb => h b (by simp [hb]))

end Node

mutual

theorem Term.same_toNode : ∀ t : Term, (toNode t).same (toNode t) = true
  | .name n => Node.same_symbol n
  | .var v => Node.same_symbol v
  | .apply f ts =>
    Node.Same.form (.cons (Node.same_symbol f) (.cons (Term.same_toNodes ts).tuple .nil)) _

theorem Term.same_toNodes : ∀ ts : List Term, Node.Same (Term.toNodes ts) (Term.toNodes ts)
  | [] => .nil
  | t :: ts => .cons t.same_toNode (Term.same_toNodes ts)

end

theorem Fluent.same_toNode (f : Fluent) : (toNode f).same (toNode f) = true :=
  Node.Same.form (.cons (Node.same_symbol f.symbol)
    (.cons (Node.same_map fun t _ => Term.same_toNode t).tuple .nil)) _

theorem DurativeReference.same_toNode : ∀ r : DurativeReference, (toNode r).same (toNode r) = true
  | duration => rfl
  | fluent f => f.same_toNode

/-! ### Numbers without a sign -/

/-- The magnitude of a number. -/
def Number.unsigned (x : Number) : Number := { x with negative := false }

theorem Number.signedUnits_unsigned {x : Number} (hx : 0 ≤ x.signedUnits) :
    x.unsigned.signedUnits = x.signedUnits := by
  rcases x with ⟨_ | _, units, _⟩
  · rfl
  · simp only [signedUnits, unsigned] at hx ⊢
    simp at hx ⊢
    omega

/-- A number that is not below zero is written without a sign. -/
theorem Number.spelling_unsigned {x : Number} (hx : 0 ≤ x.signedUnits) :
    spelling x.unsigned = spelling x := by
  have hplain : x.unsigned.plain = x.plain := by
    rcases x with ⟨_ | _, units, _⟩
    · rfl
    · have hzero : units = 0 := by simpa [signedUnits] using hx
      subst hzero
      rfl
  show x.unsigned.written.toList = x.written.toList
  rw [written, written, signedUnits_unsigned hx, if_neg (by omega), if_neg (by omega), hplain]

namespace Expression

variable {ρ : Type}

/-- An expression whose text stands for it: its numbers are not below zero, and an operator of many
operands has at least three. -/
inductive IsPrintable : Expression ρ → Prop where
  | number {x : Number} (h : 0 ≤ x.signedUnits) : IsPrintable (.number x)
  | reference (r : ρ) : IsPrintable (.reference r)
  | binary (op : ArithmeticOp) {l r : Expression ρ} (hl : IsPrintable l) (hr : IsPrintable r) :
    IsPrintable (.binary op l r)
  | variadic (op : VariadicOp) {e : Expression ρ} {es : List (Expression ρ)} (h : IsPrintable e)
    (hes : ∀ e ∈ es, IsPrintable e) (hlen : 2 ≤ es.length) : IsPrintable (.variadic op e es)
  | negative {e : Expression ρ} (h : IsPrintable e) : IsPrintable (.negative e)

mutual

/-- The expression with the magnitudes of its numbers. -/
def unsigned : Expression ρ → Expression ρ
  | number x => number x.unsigned
  | reference r => reference r
  | binary op l r => binary op l.unsigned r.unsigned
  | variadic op e es => variadic op e.unsigned (unsignedAll es)
  | negative e => negative e.unsigned

/-- The expressions with the magnitudes of their numbers. -/
def unsignedAll : List (Expression ρ) → List (Expression ρ)
  | [] => []
  | e :: es => e.unsigned :: unsignedAll es

end

theorem unsignedAll_eq_map (es : List (Expression ρ)) : unsignedAll es = es.map unsigned := by
  induction es with
  | nil => rfl
  | cons e es ih => rw [unsignedAll, ih, List.map_cons]

theorem IsPrintable.isRegular {e : Expression ρ} (h : e.IsPrintable) :
    e.unsigned.IsRegular fun _ => True := by
  induction h with
  | number _ => exact .number rfl
  | reference _ => exact .reference trivial
  | binary op _ _ ihl ihr => exact .binary op ihl ihr
  | variadic op _ _ hlen ih ihs =>
    rw [unsigned, unsignedAll_eq_map]
    exact .variadic op ih (by simpa using ihs) (by simpa using hlen)
  | negative _ ih => exact .negative ih

theorem IsPrintable.spelling_unsigned [ToNode ρ] [Spelled ρ] {e : Expression ρ}
    (h : e.IsPrintable) : e.unsigned.spelling = e.spelling := by
  induction h with
  | number h => exact Number.spelling_unsigned h
  | reference _ => rfl
  | binary op _ _ ihl ihr => rw [unsigned, spelling, spelling, ihl, ihr]
  | @variadic op e es _ _ _ ih ihs =>
    have hes : (es.map unsigned).map spelling = es.map spelling := by
      rw [List.map_map]
      exact List.map_congr_left ihs
    rw [unsigned, spelling, spelling, ih, unsignedAll_eq_map, spellings_eq_map, spellings_eq_map,
      hes]
  | negative _ ih => rw [unsigned, spelling, spelling, ih]

/-- The magnitudes of numbers that are not below zero are equal to them. -/
theorem IsPrintable.same_unsigned [ToNode ρ] (hρ : ∀ r : ρ, (toNode r).same (toNode r) = true)
    {e : Expression ρ} (h : e.IsPrintable) : (toNode e.unsigned).same (toNode e) = true := by
  induction h with
  | number h =>
    show (Node.number _).same (.number _) = true
    simp [Node.same, Node.sameLeaf, Node.word?, Node.quantity?, Number.signedUnits_unsigned h]
  | reference r => exact hρ r
  | binary op _ _ ihl ihr =>
    exact Node.Same.form (.cons (Node.same_keyword op) (.cons ihl (.cons ihr .nil))) _
  | @variadic op e es _ _ _ ih ihs =>
    have hes : Node.Same (toNodes (unsignedAll es)) (toNodes es) := by
      rw [unsignedAll_eq_map, toNodes_eq_map, toNodes_eq_map, List.map_map]
      exact Node.same_map ihs
    exact Node.Same.form (.cons (Node.same_keyword op) (.cons ih (.cons hes.tuple .nil))) _
  | negative _ ih => exact Node.Same.form (.cons ih .nil) _

end Expression

mutual

theorem Expression.references_unsigned {ρ : Type} :
    ∀ e : Expression ρ, e.unsigned.references = e.references
  | .number _ => rfl
  | .reference _ => rfl
  | .binary _ l r => by
    rw [unsigned, references, references, references_unsigned l, references_unsigned r]
  | .variadic _ e es => by
    rw [unsigned, references, references, references_unsigned e, referencesOfAll_unsignedAll es]
  | .negative e => by rw [unsigned, references, references, references_unsigned e]

theorem Expression.referencesOfAll_unsignedAll {ρ : Type} :
    ∀ es : List (Expression ρ), referencesOfAll (unsignedAll es) = referencesOfAll es
  | [] => rfl
  | e :: es => by
    rw [unsignedAll, referencesOfAll, referencesOfAll, references_unsigned e,
      referencesOfAll_unsignedAll es]

end

/-! ### Printed expressions -/

instance : Spelled DurativeReference where
  spelling
    | .duration => "?duration".toList
    | .fluent f => spelling f
  render_toNode r := by
    cases r with
    | duration =>
      show (Node.form .durationVariable []).render = _
      rw [Node.render, Node.rendering, Kind.layout, Layout.rendering, text_inline, Node.display,
        String.ofList_toList]
      rfl
    | fluent f => exact Spelled.render_toNode f

namespace Rule

open Grammar

/-- What is neither the duration nor arithmetic is read back as a plain expression is. -/
theorem recovers_durative_of_plain {s : List Char} {e : NumericExpression}
    (hword : MissesText (word "?duration") s)
    (harith : MissesText (arithmetic durativeExpression) s) (he : Recovers expression s (· = e)) :
    Recovers durativeExpression s (· = e.toDurative) :=
  recovers_call (.behind hword.map (.behind harith (he.congr _)))

/-- **Every regular expression of a durative action is read back from its text.** -/
theorem recovers_durativeExpression {e : DurativeExpression} (he : e.IsRegular) :
    Recovers durativeExpression (spelling e) (· = e) := by
  have hword : ∀ {head parts}, MissesText (word "?duration") (oneLine head parts) :=
    fun _ _ => misses_word_of_head (by decide) (by simp [oneLine, enclose])
  refine recovers_of_isRegular (fun x hx => ?_)
    (fun h => recovers_call (.behind hword.map (.left h))) (fun r _ => ?_)
    misses_close_durativeExpression he
  · have hhead : ∀ c : Char, c.isDigit = false → ∀ r, (spelling x ++ r).head? ≠ some c := by
      intro c hc r h
      obtain ⟨c', hc', hdigit⟩ := head?_number hx r
      obtain rfl := Option.some.inj (h.symm.trans hc')
      rw [hc] at hdigit
      cases hdigit
    exact recovers_durative_of_plain (e := .number x)
      (fun r _ => misses_word_of_head (by decide) (hhead '?' (by decide) r))
      (fun r _ => misses_arithmetic_of_head _ (hhead '(' (by decide) r))
      (recovers_expression (.number hx))
  · cases r with
    | duration => exact recovers_call (.left ((recovers_word (by decide)).map fun _ _ => rfl))
    | fluent f =>
      exact recovers_durative_of_plain (e := .reference f) hword
        (missesText_arithmetic_of_isName _ (isName_written rfl f.symbol) _)
        (recovers_expression (.reference trivial))

/-- **What is printed of an expression is read back.**  Every expression of a durative action can be
printed, if its numbers are not below zero and every operator of many operands has at least three;
and under a ceiling that is high enough for the text, an equal expression is parsed from it up to
its end, also as a plain expression if the duration does not occur. -/
theorem parse_printed_durativeExpression {e : DurativeExpression} (he : e.IsPrintable) :
    ∃ printed : String, (toNode e).render = .ok printed ∧
      ∀ ceiling, 2 * nesting false printed.toList + 1 < ceiling →
        (∃ d e', durativeExpression.parse (Cursor.ofText printed.toList ceiling) = .ok (d, e') ∧
          d.rest = [] ∧ (toNode e').same (toNode e) = true) ∧
        (.duration ∉ e.references →
          ∃ d e', expression.parse (Cursor.ofText printed.toList ceiling) = .ok (d, e') ∧
            d.rest = [] ∧ (toNode e').same (toNode e) = true) := by
  refine ⟨String.ofList (spelling e), Spelled.render_toNode e, fun ceiling hceiling => ?_⟩
  rw [String.toList_ofList] at hceiling ⊢
  have hsame := he.same_unsigned DurativeReference.same_toNode
  have hlook := (recovers_durativeExpression he.isRegular).reads .nil ceiling none
  rw [List.append_nil, show spelling e.unsigned = spelling e from he.spelling_unsigned] at hlook
  have hdeep := parse_ne_tooDeep .expression hceiling
  have hdeep' := parse_ne_tooDeep .durativeExpression hceiling
  have hsettled : expression.Settled := settled_of_named .expression
  have hsettled' : durativeExpression.Settled := settled_of_named .durativeExpression
  have hcalm := calm_ofText (spelling e) ceiling
  obtain ⟨d, _, hd, rfl, hrest⟩ := parse_of_leaves hsettled' hlook hdeep'
  refine ⟨⟨d, _, hd, hrest, hsame⟩, fun hduration => ?_⟩
  rw [← e.references_unsigned] at hduration
  have hne := look_ne_tooDeep_of_parse hsettled hcalm hdeep
  have hextends := extends_of_ne_tooDeep hne (look_ne_tooDeep_of_parse hsettled' hcalm hdeep')
  obtain ⟨e', he', heq⟩ := hextends.exists_found (look_of_parse hsettled' hcalm hd).2 hne
    (mem_range_toDurative.2 hduration)
  obtain ⟨d', hd', -, hview⟩ := parse_of_look hsettled hcalm he'
  refine ⟨d', e', hd', (congrArg View.rest hview).trans hrest, ?_⟩
  rwa [← e'.toNode_toDurative, heq]

/-- Negative zero comes back as an equal number. -/
theorem parse_printed_durativeExpression_zero :
    let e : DurativeExpression := .variadic .times (.number Number.zero.negate)
      [.negative (.reference .duration), .reference (.fluent ⟨⟨"f", by decide⟩, []⟩)]
    ∃ printed ceiling d e', (toNode e).render = .ok printed ∧
      durativeExpression.parse (Cursor.ofText printed.toList ceiling) = .ok (d, e') ∧
      d.rest = [] ∧ (toNode e').same (toNode e) = true := by
  intro e
  have hprintable : e.IsPrintable := .variadic .times (.number (by decide)) (by
    simp only [List.forall_mem_cons]
    exact ⟨.negative (.reference _), .reference _, List.forall_mem_nil _⟩) (by decide)
  obtain ⟨printed, hprinted, h⟩ := parse_printed_durativeExpression hprintable
  have hceiling : 2 * nesting false printed.toList + 1 < 2 * printed.toList.length + 2 := by
    have := nesting_le_length false printed.toList
    omega
  obtain ⟨⟨d, e', hd, hrest, hsame⟩, -⟩ := h _ hceiling
  exact ⟨printed, _, d, e', hprinted, hd, hrest, hsame⟩

end Rule

end Pddl
