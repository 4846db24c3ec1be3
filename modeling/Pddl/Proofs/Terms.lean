import Pddl.Proofs.Spelling

/-!
# Terms and formulas are read back

* `Term.spelling` : the text of a term; the texts of formulas, literals and ground terms are
  instances.
* `Rule.recovers_term` : **every term is read back from its text.**
* `Rule.recovers_functionTerm`, `Rule.recovers_groundTerm`, `Rule.recovers_atomicFormulaOf` : so are
  function terms, ground terms and formulas.
-/

namespace Pddl

/-! ### Texts -/

namespace Term

mutual

/-- The text of a term. -/
def spelling : Term → List Char
  | name n => n.written.toList
  | var v => v.written.toList
  | apply f ts => oneLine f.written (spellings ts)

/-- The texts of several terms. -/
def spellings : List Term → List (List Char)
  | [] => []
  | t :: ts => t.spelling :: spellings ts

end

theorem spellings_eq_map (ts : List Term) : spellings ts = ts.map spelling := by
  induction ts with
  | nil => rfl
  | cons t ts ih => rw [spellings, ih, List.map_cons]

mutual

theorem render_toNode : ∀ t : Term, (toNode t).render = .ok (String.ofList t.spelling)
  | name n => Spelled.render_toNode n
  | var v => Spelled.render_toNode v
  | apply f ts => by
    have hwords := words_members (f := [.symbol f, .tuple (toNodes ts)]) (i := 1) rfl
      (render_toNodes ts)
    have h := Node.render_form (k := .functionTerm) rfl (.cons hwords .nil)
    rw [head_symbol rfl rfl, List.flatten_singleton] at h
    exact h

theorem render_toNodes : ∀ ts : List Term,
    List.Forall₂ (fun n w => n.render = .ok (String.ofList w)) (Term.toNodes ts) (spellings ts)
  | [] => .nil
  | t :: ts => .cons (render_toNode t) (render_toNodes ts)

end

instance : Spelled Term := ⟨spelling, render_toNode⟩

end Term

theorem Term.spelling_apply (f : FunctionSymbol) (ts : List Term) :
    Pddl.spelling (Term.apply f ts) = oneLine f.written (ts.map Pddl.spelling) := by
  rw [← show Term.spellings ts = ts.map Pddl.spelling from Term.spellings_eq_map ts]
  rfl

instance : Spelled FunctionTerm := ⟨fun t => spelling t.toTerm, fun t => Spelled.render_toNode t.toTerm⟩

instance : Spelled GroundTerm where
  spelling t := oneLine t.symbol.written (t.arguments.map spelling)
  render_toNode t := by
    have hwords := words_members_toNode (f := [toNode t.symbol, toNode t.arguments]) (i := 1) rfl
    have h := Node.render_form (k := .groundTerm) rfl (.cons hwords .nil)
    rw [head_symbol rfl rfl, List.flatten_singleton] at h
    exact h

section

variable {τ : Type} [ToNode τ] [Spelled τ]

instance : Spelled (AtomicFormula τ) where
  spelling
    | .equality l r => oneLine "=" [spelling l, spelling r]
    | .predicate p ts => oneLine p.written (ts.map spelling)
  render_toNode f := by
    cases f with
    | equality l r =>
      have h := Node.render_form (k := .equality) (f := [toNode l, toNode r]) rfl
        (.cons (words_field_toNode rfl) (.cons (words_field_toNode rfl) .nil))
      exact h
    | predicate p ts =>
      have hwords := words_members_toNode (f := [toNode p, toNode ts]) (i := 1) rfl
      have h := Node.render_form (k := .predicateFormula) rfl (.cons hwords .nil)
      rw [head_symbol rfl rfl, List.flatten_singleton] at h
      exact h

theorem AtomicFormula.spelling_predicate (p : Predicate) (ts : List τ) :
    spelling (AtomicFormula.predicate p ts) = oneLine p.text (ts.map spelling) := by
  show oneLine p.written (ts.map spelling) = _
  rw [Symbol.written_of_sigil rfl]

instance : Spelled (Literal τ) where
  spelling l := if l.negated then oneLine "not" [spelling l.formula] else spelling l.formula
  render_toNode l := by
    obtain ⟨f, negated⟩ := l
    cases negated with
    | true =>
      have hwords := words_field_toNode (f := [toNode f, toNode true]) (i := 0) rfl
      show (Node.form .literal [toNode f, toNode true]).render = _
      rw [Node.render, Node.rendering, Node.renderings_eq_map, Kind.layout, Layout.rendering,
        text_inline]
      exact formText_eq _ (.cons hwords .nil)
    | false =>
      show (Node.form .literal [toNode f, toNode false]).render = _
      rw [Node.render, Node.rendering, Node.renderings_eq_map, Kind.layout, Layout.rendering,
        text_inline]
      exact Spelled.render_toNode f

end

/-! ### Reading terms -/

/-- What holds of names, of variables and of applications whose arguments have it, holds of every
term. -/
@[elab_as_elim]
theorem Term.induction {motive : Term → Prop} (name : ∀ n, motive (.name n))
    (var : ∀ v, motive (.var v))
    (apply : ∀ f ts, (∀ t ∈ ts, motive t) → motive (.apply f ts)) (t : Term) : motive t :=
  @Term.rec motive (fun ts => ∀ t ∈ ts, motive t) name var apply (by simp)
    (fun _ _ ht hts => List.forall_mem_cons.2 ⟨ht, hts⟩) t

namespace Rule

variable {kind : SymbolKind} {s r : List Char}

/-- A written symbol without a sigil begins like a name. -/
theorem head?_written (hk : kind.sigil = "") (x : Symbol kind) (r : List Char) :
    ∃ c, (x.written.toList ++ r).head? = some c ∧ isNameStart c = true := by
  have hv := x.valid
  rw [Symbol.written_of_sigil hk]
  rcases hx : x.text.toList with _ | ⟨c, cs⟩ <;> rw [hx] at hv
  · simp [isName] at hv
  · simp only [isName, Bool.and_eq_true] at hv
    exact ⟨c, rfl, hv.1⟩

theorem misses_var_written (hk : kind.sigil = "") (x : Symbol kind) :
    Misses (Grammar.symbol .var) (x.written.toList ++ r) := by
  obtain ⟨c, hc, hs⟩ := head?_written hk x r
  refine misses_var ?_
  rw [hc]
  rintro ⟨⟩
  exact absurd hs (by decide)

theorem isName_written (hk : kind.sigil = "") (x : Symbol kind) : isName x.written.toList = true := by
  rw [Symbol.written_of_sigil hk]
  exact x.valid

/-- A form with a fixed head is missing where the head is another symbol. -/
theorem misses_form_written {α : Type} {g : Rule α} {w : String} (hk : kind.sigil = "")
    (x : Symbol kind) (hw : IsWord w) (hne : x.text ≠ w) (parts : List (List Char)) :
    Misses (Grammar.form w g) (oneLine x.written parts ++ r) := by
  have hx : x.written.toList ≠ w.toList := by
    rwa [Ne, String.toList_inj, Symbol.written_of_sigil hk]
  exact misses_form (apart_of_isName hw (isName_written hk x) hx) hw.1 (recovers_symbol x).solid
    isGap_blank parts

/-- An operator is no name. -/
theorem misses_form_of_not_isName {α : Type} {g : Rule α} {w : String} (hk : kind.sigil = "")
    (x : Symbol kind) (hw : IsWord w) (hn : isName w.toList = false) (parts : List (List Char)) :
    Misses (Grammar.form w g) (oneLine x.written parts ++ r) := by
  refine misses_form_written hk x hw ?_ parts
  rintro rfl
  have hv := x.valid
  rw [hn] at hv
  exact Bool.false_ne_true hv

theorem misses_parens_written {α : Type} {g : Rule α} (hk : kind.sigil = "") (x : Symbol kind) :
    Misses (Grammar.parens g) (x.written.toList ++ r) := by
  obtain ⟨c, hc, hs⟩ := head?_written hk x r
  refine misses_parens ?_
  rw [hc]
  rintro ⟨⟩
  exact absurd hs (by decide)

theorem misses_close_symbol (hk : kind.sigil = "") : Misses (Grammar.symbol kind) (')' :: r) :=
  misses_symbol hk (by simp [isNameStart])

theorem misses_close_parens {α : Type} {g : Rule α} : Misses (Grammar.parens g) (')' :: r) :=
  misses_parens (by simp)

theorem misses_close_term : Misses term (')' :: r) :=
  misses_call (.orElse (.map (misses_var (by simp)))
    (.orElse (.map (.map misses_close_parens)) (.map (misses_close_symbol rfl))))

/-- Every term is read back from its text. -/
theorem recovers_term (t : Term) : Recovers term (spelling t) (· = t) := by
  refine recovers_call ?_
  induction t using Term.induction with
  | name n =>
    exact .right (fun _ => .map (misses_var_written rfl n))
      (.right (fun _ => .map (.map (misses_parens_written rfl n))) ((recovers_symbol n).congr _))
  | var v => exact .left ((recovers_symbol v).congr _)
  | apply f ts ih =>
    have hargs := readsParts_many_eq (g := term) isGap_blank (fun t ht => recovers_call (ih t ht))
      fun _ => misses_close_term
    rw [Term.spelling_apply]
    exact .right (fun _ => .map (misses_var (by simp [oneLine, enclose])))
      (.left (((recovers_headed_eq (recovers_symbol f) hargs).congr _).congr FunctionTerm.toTerm))

theorem recovers_functionTerm (t : FunctionTerm) : Recovers functionTerm (spelling t) (· = t) := by
  have hargs := readsParts_many_eq (g := term) isGap_blank (l := t.arguments)
    (fun t _ => recovers_term t) fun _ => misses_close_term
  rw [show spelling t = oneLine t.symbol.written (t.arguments.map spelling) from
    Term.spelling_apply t.symbol t.arguments]
  exact (recovers_headed_eq (recovers_symbol t.symbol) hargs).congr _

/-- Ground terms are written in parentheses. -/
theorem recovers_groundTerm (t : GroundTerm) : Recovers groundTerm (spelling t) (· = t) := by
  have hargs := readsParts_many_eq (g := Grammar.symbol .name) isGap_blank (l := t.arguments)
    (fun n _ => recovers_symbol n) fun _ => misses_close_symbol rfl
  exact .right (fun _ => .map (misses_symbol rfl (by simp [spelling, oneLine, enclose, isNameStart])))
    ((recovers_headed_eq (recovers_symbol t.symbol) hargs).congr _)

/-! ### Reading formulas -/

variable {τ : Type} [ToNode τ] [Spelled τ] {g : Rule τ}

theorem isHead_equality : IsHead "=" := isHead_of_isWord (by decide)

theorem isHead_not : IsHead "not" := isHead_of_isWord (by decide)

/-- Formulas are read back if their arguments are. -/
theorem recovers_atomicFormulaOf (hg : ∀ t, g.Recovers (spelling t) (· = t))
    (hclose : ∀ r, g.Misses (')' :: r)) (f : AtomicFormula τ) :
    Recovers (atomicFormulaOf g) (spelling f) (· = f) := by
  cases f with
  | equality l r =>
    exact .left ((recovers_form isHead_equality
      (.pair_eq (hg l) (.one isGap_blank (hg r)))).congr _)
  | predicate p ts =>
    have hargs := readsParts_many_eq (g := g) isGap_blank (l := ts) (fun t _ => hg t) hclose
    exact .right (fun _ => .map (misses_form_of_not_isName rfl p (by decide) (by decide) _))
      ((recovers_headed_eq (recovers_symbol p) hargs).congr _)

end Rule

end Pddl
