import Pddl.Proofs.Expressions

/-!
# Goals as a text can hold them

A keyword form and a formula may have the same shape, because the name of a predicate may be a
keyword and applied functions look like goals.  The keyword form is tried first; so a formula with a
keyword for a predicate is read only where its arguments are no operands of that keyword.

* `FitsKeyword` : some arguments look like the operands of a keyword.
* `Goal.IsRegular` : no formula of the goal looks like a keyword form.
* `Rule.Finds.goal` : **every goal that is found is regular.**
-/

namespace Pddl

/-! ### Regular goals -/

/-- The term is a function applied to terms. -/
def Term.IsApplied : Term → Prop
  | apply _ _ => True
  | _ => False

instance : DecidablePred Term.IsApplied
  | .name _ => .isFalse id
  | .var _ => .isFalse id
  | .apply _ _ => .isTrue trivial

/-- The terms look like the operands of a keyword of goals. -/
inductive FitsKeyword : String → List Term → Prop where
  | and {ts : List Term} (h : ∀ t ∈ ts, t.IsApplied) : FitsKeyword "and" ts
  | or {ts : List Term} (h : ∀ t ∈ ts, t.IsApplied) : FitsKeyword "or" ts
  | not {t : Term} (h : t.IsApplied) : FitsKeyword "not" [t]
  | imply {s t : Term} (hs : s.IsApplied) (ht : t.IsApplied) : FitsKeyword "imply" [s, t]

/-- The expression stands for a reference. -/
def Expression.IsReference {ρ : Type} (e : Expression ρ) : Prop := ∃ r, e = .reference r

/-- A comparison as a text can hold it: an equality of two references is one of terms. -/
structure Comparison.IsRegular (c : Comparison) : Prop where
  left : c.left.IsRegular
  right : c.right.IsRegular
  noEquality : c.comparator = .equal → ¬(c.left.IsReference ∧ c.right.IsReference)

/-- A goal as a text can hold it: its formulas do not look like keyword forms. -/
inductive Goal.IsRegular : Goal → Prop where
  | equality (l r : Term) : IsRegular (.atom (.equality l r))
  | predicate {p : Predicate} {ts : List Term} (h : ¬FitsKeyword p.text ts) :
    IsRegular (.atom (.predicate p ts))
  | conj {gs : List Goal} (h : ∀ g ∈ gs, IsRegular g) : IsRegular (.conj gs)
  | disj {gs : List Goal} (h : ∀ g ∈ gs, IsRegular g) : IsRegular (.disj gs)
  | neg {g : Goal} (h : IsRegular g) : IsRegular (.neg g)
  | imply {p c : Goal} (hp : IsRegular p) (hc : IsRegular c) : IsRegular (.imply p c)
  | existential {vs : TypedList Variable} {g : Goal} (hvs : vs.IsWritable) (h : IsRegular g) :
    IsRegular (.existential vs g)
  | universal {vs : TypedList Variable} {g : Goal} (hvs : vs.IsWritable) (h : IsRegular g) :
    IsRegular (.universal vs g)
  | compare {c : Comparison} (h : c.IsRegular) : IsRegular (.compare c)

namespace Rule

open Grammar

variable {text : List Char} {levels : Nat} {u v w : View}

/-! ### Terms that look like goals -/

/-- A goal that is missing is no formula either. -/
theorem look_atomicFormula_eq_missing (h : goalForms.look levels v = .missing) :
    atomicFormula.look levels v = .missing := by
  have h := (look_orElse_eq_missing.1 h).2
  have h := (look_orElse_eq_missing.1 h).2
  have h := (look_orElse_eq_missing.1 h).2
  have h := (look_orElse_eq_missing.1 h).2
  have h := (look_orElse_eq_missing.1 h).2
  have h := (look_orElse_eq_missing.1 h).2
  exact look_map_eq_missing.1 (look_orElse_eq_missing.1 h).1

/-- A function applied to something may also be a predicate, and the other way round. -/
theorem look_headed_of_kind {kind kind' : SymbolKind} (hk : kind'.sigil = kind.sigil) {β : Type}
    {h : Rule β} {x : Symbol kind} {b : β}
    (hf : look levels (parens (headed (symbol kind) h)) v = .found w (x, b)) :
    look levels (parens (headed (symbol kind') h)) v = .found w (⟨x.text, x.valid⟩, b) := by
  obtain ⟨hv, u, hu, hc⟩ := look_parens_eq_found.1 hf
  obtain ⟨x, hx, hb⟩ := look_headed_eq_found.1 hu
  exact look_parens_eq_found.2
    ⟨hv, u, look_headed_eq_found.2 ⟨x, look_symbol_of_kind hk hx, hb⟩, hc⟩

/-- A term that is applied is found as such. -/
theorem look_functionTerm_of_term {t : Term} (h : term.look levels v = .found w t)
    (ht : t.IsApplied) : ∃ k f, levels = k + 1 ∧ functionTerm.look k v = .found w f ∧
      t = f.toTerm := by
  obtain ⟨k, hk, h⟩ := look_call_eq_found.1 h
  obtain h | ⟨-, h⟩ := look_orElse_eq_found.1 h
  · obtain ⟨x, -, rfl⟩ := look_map_eq_found.1 h
    exact ht.elim
  obtain h | ⟨-, h⟩ := look_orElse_eq_found.1 h
  · obtain ⟨f, hf, rfl⟩ := look_map_eq_found.1 h
    exact ⟨k, f, hk, hf, rfl⟩
  · obtain ⟨x, -, rfl⟩ := look_map_eq_found.1 h
    exact ht.elim

theorem head?_of_functionTerm {f : FunctionTerm} (h : functionTerm.look levels v = .found w f) :
    v.rest.head? = some '(' := by
  obtain ⟨p, h, -⟩ := look_map_eq_found.1 h
  exact (look_parens_eq_found.1 h).1

/-- **A goal is there wherever an applied term is found.** -/
theorem shadows_goal (levels : Nat) :
    Shadows text (goal.look levels) (term.look levels) Term.IsApplied := by
  intro v w t _ h ht
  obtain ⟨k, f, rfl, hf, -⟩ := look_functionTerm_of_term h ht
  refine attains_of_ne_missing (h := functionTerm) rfl (by decide) hf (head?_of_functionTerm hf) ?_
  intro hm
  have hm := look_map_eq_missing.1 (look_orElse_eq_missing.1 (look_atomicFormula_eq_missing hm)).2
  obtain ⟨⟨x, ts⟩, hf, -⟩ := look_map_eq_found.1 hf
  rw [look_headed_of_kind (by rfl) hf] at hm
  simp at hm

/-- A goal is there wherever a formula is found. -/
theorem attains_goal_of_atomicFormula {f : AtomicFormula Term}
    (h : atomicFormula.look levels v = .found w f) : (goal.look levels v).Attains w := by
  have hv : v.rest.head? = some '(' := by
    obtain h | ⟨-, h⟩ := look_orElse_eq_found.1 h <;> obtain ⟨p, h, -⟩ := look_map_eq_found.1 h <;>
      exact (look_parens_eq_found.1 h).1
  refine attains_of_ne_missing (h := atomicFormula) rfl (by decide) h hv ?_
  cases levels with
  | zero => exact nofun
  | succ k =>
    -- the formula is not missing with fewer levels
    intro hm
    have hm := look_atomicFormula_eq_missing hm
    have hsucc : atomicFormula.look (k + 1) v = atomicFormula.look k v :=
      look_succ atomicFormula (by simp [hm])
    rw [h, hm] at hsucc
    simp at hsucc

/-- Operands of a keyword are read as such. -/
theorem not_fitsKeyword {p : Predicate} {ts : List Term}
    (h : look levels (parens (headed (symbol .predicate) (many term))) v = .found w (p, ts))
    (hand : look levels (form "and" (many goal)) v = .missing)
    (hor : look levels (form "or" (many goal)) v = .missing)
    (hnot : look levels (form "not" goal) v = .missing)
    (himply : look levels (form "imply" (pair goal goal)) v = .missing) :
    ¬FitsKeyword p.text ts := by
  have hmany : (∀ t ∈ ts, t.IsApplied) → ∀ u u' : View, u.skipBlanks = u →
      look levels (many term) u = .found u' ts → u'.skipBlanks.rest.head? = some ')' →
      (look levels (many goal) u).Attains u' := fun hts u u' hu h hc =>
    attains_many (shadows_goal levels) (fun _ => misses_close rfl) (List.suffix_refl _) h hts hu hc
  intro hfits
  generalize hp : p.text = x at hfits
  cases hfits with
  | and hts => exact (attains_form rfl hp (by decide) h (hmany hts)).ne_missing hand
  | or hts => exact (attains_form rfl hp (by decide) h (hmany hts)).ne_missing hor
  | not ht =>
    refine (attains_form rfl hp (by decide) h fun u u' _ hu _ => ?_).ne_missing hnot
    exact shadows_goal levels _ _ _ (List.suffix_refl _) (look_of_many_singleton hu) ht
  | imply hs ht =>
    refine (attains_form rfl hp (by decide) h fun u u' _ hu _ => ?_).ne_missing himply
    obtain ⟨x, hx, hy⟩ := look_pair_eq_found.1 (look_pair_of_many hu)
    exact attains_pair (shadows_goal levels _ _ _ (List.suffix_refl _) hx hs)
      (attains_separated (shadows_goal levels) (List.suffix_refl _) hy ht)

/-! ### Comparisons that look like equalities -/

theorem head?_of_look_symbol {kind : SymbolKind} (hk : kind.sigil = "") {x : Symbol kind}
    (h : look levels (symbol kind) v = .found w x) :
    ∃ c, v.rest.head? = some c ∧ isNameStart c = true := by
  rw [look_symbol, lexeme_eq_found] at h
  obtain ⟨n, hn, -⟩ := h
  obtain ⟨rest, hrest, -, -⟩ := symbolLexeme?_eq_some hn
  obtain ⟨c, hc, hs⟩ := head?_written hk x rest
  refine ⟨c, ?_, hs⟩
  rw [hrest, ← hc, Symbol.written, String.toList_append]

/-- A term is there wherever an expression is a reference. -/
theorem shadows_term (levels : Nat) :
    Shadows text (term.look levels) (Rule.expression.look levels) Expression.IsReference := by
  rintro v w e - h ⟨f, rfl⟩
  obtain ⟨k, rfl, h⟩ := look_call_eq_found.1 h
  obtain h | ⟨-, h⟩ := look_orElse_eq_found.1 h
  · obtain ⟨x, -, hx⟩ := look_map_eq_found.1 h
    cases hx
  obtain h | ⟨-, h⟩ := look_orElse_eq_found.1 h
  · obtain ⟨⟨op, l, rs⟩, -, he⟩ := Reader.refine_eq_found.1 h
    unfold Expression.ofOperands at he
    split at he <;> try cases he
    split at he <;> cases he
  obtain ⟨f', hf, hff⟩ := look_map_eq_found.1 h
  cases hff
  show (termForms.look k v).Attains w
  obtain h | ⟨-, h⟩ := look_orElse_eq_found.1 hf
  · -- the name of a function is a term
    obtain ⟨x, hx, -⟩ := look_map_eq_found.1 h
    obtain ⟨c, hc, hs⟩ := head?_of_look_symbol rfl hx
    have hvar : v.rest.head? ≠ some '?' := by
      rw [hc]
      rintro ⟨⟩
      exact absurd hs (by decide)
    have hparens : v.rest.head? ≠ some '(' := by
      rw [hc]
      rintro ⟨⟩
      exact absurd hs (by decide)
    refine Finding.Misses.orElse_attains (Misses.map (misses_var hvar) k v.before) ?_
    refine Finding.Misses.orElse_attains (Misses.map (Misses.map (misses_parens hparens)) k v.before) ?_
    exact Finding.attains_of_found
      (look_map_eq_found.2 ⟨_, look_symbol_of_kind (by rfl) hx, rfl⟩)
  · -- a function applied to terms is one
    obtain ⟨⟨x, ts⟩, hx, -⟩ := look_map_eq_found.1 h
    obtain ⟨hv, u, hu, hc⟩ := look_parens_eq_found.1 hx
    have hvar : v.rest.head? ≠ some '?' := by simp [hv]
    refine Finding.Misses.orElse_attains (Misses.map (misses_var hvar) k v.before) ?_
    refine Finding.Attains.orElse (Finding.attains_of_found (look_map_eq_found.2
      ⟨⟨x, ts⟩, look_map_eq_found.2 ⟨(x, ts), look_parens_eq_found.2
        ⟨hv, u, look_headed_of_pair hu, hc⟩, rfl⟩, rfl⟩))

/-- A comparison that is found where no formula is. -/
theorem isRegular_of_look_comparison {c : Comparison} (h : comparison.look levels v = .found w c)
    (hv : v.rest <:+ text) (hmiss : atomicFormula.look levels v = .missing) : c.IsRegular := by
  have hf : Finds comparison text levels c := ⟨v, w, hv, h⟩
  obtain ⟨⟨op, l, r⟩, hp, rfl⟩ := look_map_eq_found.1 h
  obtain ⟨⟨op, l, r⟩, hlr, hc⟩ := hf.map
  cases hc
  obtain ⟨hl, hr⟩ := hlr.parens.pair.2.pair
  refine ⟨hl.expression, hr.expression, ?_⟩
  rintro rfl ⟨hl, hr⟩
  obtain ⟨hopen, u, hu, hclose⟩ := look_parens_eq_found.1 hp
  obtain ⟨x, hx, hpair⟩ := look_pair_eq_found.1 hu
  obtain ⟨n, hn, rfl⟩ := keywordLength?_of_look_keyword hx
  obtain ⟨-, hpair⟩ := Reader.separated_eq_found.1 hpair
  obtain ⟨y, hy, hz⟩ := look_pair_eq_found.1 hpair
  have hpair := attains_pair (shadows_term levels _ _ _ (List.suffix_refl _) hy hl)
    (attains_separated (shadows_term levels) (List.suffix_refl _) hz hr)
  exact (attains_form_of_word hopen hn hpair hclose).ne_missing
    (look_map_eq_missing.1 (look_orElse_eq_missing.1 hmiss).1)

/-! ### Goals -/

/-- **Every goal that is found is regular.** -/
theorem Finds.goal {g : Goal} (h : Finds Rule.goal text levels g) : g.IsRegular := by
  refine Finds.call_induction (fun levels ih g h => ?_) h
  obtain ⟨v, w, hv, h⟩ := h
  have hmany : ∀ {gs : List Goal} {x : String},
      look levels (Grammar.form x (Grammar.many Rule.goal)) v = .found w gs →
        ∀ g ∈ gs, g.IsRegular := fun hgs g hg =>
    ih (Finds.many (Finds.form ⟨v, w, hv, hgs⟩) g hg)
  obtain h | ⟨hand, h⟩ := look_orElse_eq_found.1 h
  · obtain ⟨gs, hgs, rfl⟩ := look_map_eq_found.1 h
    exact .conj (hmany hgs)
  obtain h | ⟨hor, h⟩ := look_orElse_eq_found.1 h
  · obtain ⟨gs, hgs, rfl⟩ := look_map_eq_found.1 h
    exact .disj (hmany hgs)
  obtain h | ⟨hnot, h⟩ := look_orElse_eq_found.1 h
  · obtain ⟨g, hg, rfl⟩ := look_map_eq_found.1 h
    exact .neg (ih (Finds.form ⟨v, w, hv, hg⟩))
  obtain h | ⟨himply, h⟩ := look_orElse_eq_found.1 h
  · obtain ⟨⟨p, c⟩, hpc, rfl⟩ := look_map_eq_found.1 h
    obtain ⟨hp, hc⟩ := (Finds.form ⟨v, w, hv, hpc⟩).pair
    exact .imply (ih hp) (ih hc)
  obtain h | ⟨-, h⟩ := look_orElse_eq_found.1 h
  · obtain ⟨⟨vs, g⟩, hvg, rfl⟩ := look_map_eq_found.1 h
    obtain ⟨hvs, hg⟩ := Finds.quantified ⟨v, w, hv, hvg⟩
    exact .existential hvs.parameters (ih hg)
  obtain h | ⟨-, h⟩ := look_orElse_eq_found.1 h
  · obtain ⟨⟨vs, g⟩, hvg, rfl⟩ := look_map_eq_found.1 h
    obtain ⟨hvs, hg⟩ := Finds.quantified ⟨v, w, hv, hvg⟩
    exact .universal hvs.parameters (ih hg)
  have hnot := look_map_eq_missing.1 hnot
  obtain h | ⟨hatom, h⟩ := look_orElse_eq_found.1 h
  · obtain ⟨f, hf, rfl⟩ := look_map_eq_found.1 h
    obtain hf | ⟨-, hf⟩ := look_orElse_eq_found.1 hf
    · obtain ⟨⟨l, r⟩, -, rfl⟩ := look_map_eq_found.1 hf
      exact .equality l r
    · obtain ⟨⟨p, ts⟩, hp, rfl⟩ := look_map_eq_found.1 hf
      exact .predicate (not_fitsKeyword hp (look_map_eq_missing.1 hand)
        (look_map_eq_missing.1 hor) hnot (look_map_eq_missing.1 himply))
  have hatom := look_map_eq_missing.1 hatom
  obtain h | ⟨-, h⟩ := look_orElse_eq_found.1 h
  · -- a literal would be a negation or a formula
    obtain ⟨l, hl, -⟩ := look_map_eq_found.1 h
    obtain hl | ⟨-, hl⟩ := look_orElse_eq_found.1 hl
    · obtain ⟨f, hf, -⟩ := look_map_eq_found.1 hl
      obtain ⟨hopen, n, u, hn, hf, hclose⟩ := look_form_eq_found.1 hf
      exact absurd hnot (attains_form_of_word hopen hn (attains_goal_of_atomicFormula hf)
        hclose).ne_missing
    · obtain ⟨f, hf, -⟩ := look_map_eq_found.1 hl
      rw [show atomicFormulaOf term = atomicFormula from rfl, hatom] at hf
      simp at hf
  · obtain ⟨c, hc, rfl⟩ := look_map_eq_found.1 h
    exact .compare (isRegular_of_look_comparison hc hv hatom)

end Rule

end Pddl
