import Pddl.Proofs.DurativeExpressions
import Pddl.Proofs.Effects

/-!
# Other constructs in the place of applied terms

A name with terms in parentheses may be a term, and also a formula, a numeric fluent or an operator
with operands: which of them is read depends on the rules that are tried.  Where terms are read up
to a closing parenthesis, another rule either finds one construct for each term, up to the same
parenthesis, or it finds nothing.

* `Rule.Along` : where a term is read, the rule finds something as long, or nothing.
* `Rule.Along.closed_pair`, `Rule.Along.closed_many` : **what is found for all the terms.**
* `Rule.meets_form`, `Rule.meets_operation` : forms and operators in the place of a name with terms.
* `Rule.along_expression`, `Rule.along_durativeExpression` : a term is an operand only if it is a
  numeric fluent, or the variable with the name of the duration.
-/

namespace Pddl

/-- The term as a numeric fluent: a function by its name, or applied to terms. -/
def Term.toFluent? : Term → Option Fluent
  | name x => some ⟨⟨x.text, x.valid⟩, []⟩
  | var _ => none
  | apply f ts => some ⟨f, ts⟩

/-- The variable with the name of the duration. -/
def durationVariable : Variable := ⟨"duration", by decide⟩

/-! ### Terms that follow one another -/

namespace Finding

variable {α β : Type} {u w : View} {P : α → Prop} {Q : β → Prop} {o o' : Finding α}

/-- A construct with the property is found up to the view, or nothing is, unless the levels are used
up. -/
def Meets (w : View) (P : α → Prop) (o : Finding α) : Prop :=
  o.Misses ∨ ∃ a, o = .found w a ∧ P a

theorem meets_found {a : α} (h : P a) : (found w a).Meets w P := .inr ⟨a, rfl, h⟩

theorem Meets.andThen {k : View → α → Finding β} (h : o.Meets u P)
    (hk : ∀ a, P a → (k u a).Meets w Q) : (o.andThen k).Meets w Q := by
  obtain h | ⟨a, rfl, ha⟩ := h
  · exact .inl h.andThen
  · exact hk a ha

theorem Meets.mono {P' : α → Prop} (h : o.Meets w P) (hP : ∀ a, P a → P' a) : o.Meets w P' :=
  h.imp id fun ⟨a, ho, ha⟩ => ⟨a, ho, hP a ha⟩

theorem Meets.orElse (h : o.Meets w P) (h' : o'.Meets w P) : (o.orElse o').Meets w P := by
  obtain (rfl | rfl) | ⟨a, rfl, ha⟩ := h
  · exact .inl (.inl rfl)
  · exact h'
  · exact meets_found ha

end Finding

namespace Rule

open Grammar

variable {α β : Type} {g : Rule α} {h : Rule β} {levels : Nat} {u v w : View} {t : Term}
  {ts : List Term} {R : Term → α → Prop} {S : Term → β → Prop} {P : α → Prop}

/-- Further terms follow, up to a closing parenthesis with the other view behind it. -/
inductive MoreTerms (levels : Nat) : View → View → List Term → Prop where
  | nil {v w : View} (hclose : v.Closes w) : MoreTerms levels v w []
  | cons {v u w : View} {t : Term} {ts : List Term}
    (ht : Reader.separated (term.look levels) v = .found u t) (hts : MoreTerms levels u w ts) :
    MoreTerms levels v w (t :: ts)

/-- Terms follow one another, up to a closing parenthesis with the other view behind it. -/
inductive Terms (levels : Nat) (v w : View) : List Term → Prop where
  | nil (hv : v.skipBlanks = v) (hclose : v.Closes w) : Terms levels v w []
  | cons {u : View} {t : Term} {ts : List Term} (hv : v.skipBlanks = v)
    (ht : term.look levels v = .found u t) (hts : MoreTerms levels u w ts) :
    Terms levels v w (t :: ts)

/-- Where a term is read, the rule finds something that is related to the term and as long, or it
finds nothing. -/
structure Along (levels : Nat) (g : Rule α) (R : Term → α → Prop) : Prop where
  close : ∀ r, g.Misses (')' :: r)
  term : ∀ {v w t}, Rule.term.look levels v = .found w t → (g.look levels v).Meets w (R t)

theorem moreTerms_of_look (h : Reader.more (term.look levels) v = .found u ts)
    (hclose : u.Closes w) : MoreTerms levels v w ts := by
  induction ts generalizing v with
  | nil =>
    obtain ⟨-, rfl⟩ | ⟨_, _, _, hcons, -⟩ := more_eq_found (forward_look term levels) h
    · exact .nil hclose
    · cases hcons
  | cons t ts ih =>
    obtain ⟨hnil, -⟩ | ⟨_, _, x, hcons, hx, hmore⟩ := more_eq_found (forward_look term levels) h
    · cases hnil
    · obtain ⟨rfl, rfl⟩ := List.cons.inj hcons
      exact .cons hx (ih hmore)

theorem terms_of_look (hv : v.skipBlanks = v) (h : look levels (many term) v = .found u ts)
    (hclose : u.Closes w) : Terms levels v w ts := by
  obtain ⟨rfl, rfl⟩ | ⟨t, ts', x, rfl, hx, hmore⟩ := look_many_eq_found h
  · exact .nil hv hclose
  · exact .cons hv hx (moreTerms_of_look hmore hclose)

theorem look_close_of_closes (h : v.Closes w) :
    look levels (terminal (.char ')')) v.skipBlanks = .found w () := by
  obtain ⟨r, hr, rfl⟩ := h
  rcases hv : v.skipBlanks with ⟨b, s⟩
  rw [hv] at hr
  obtain rfl : s = ')' :: r := hr
  exact look_close levels b r

theorem look_noElements_of_closes (h : v.Closes w) :
    look levels (noElements α) v = .found w [] := by
  rw [look_noElements, look_close_of_closes h]
  rfl

theorem head?_ne_close_of_term (h : term.look levels v = .found w t) : v.rest.head? ≠ some ')' :=
  head?_ne_close (fun _ => misses_close_term) fun hmiss => by
    rw [h] at hmiss
    obtain hmiss | hmiss := hmiss <;> cases hmiss

/-- The parenthesis is closed if no further term follows. -/
theorem MoreTerms.close (h : MoreTerms levels v w ts) (a : α) :
    ((look levels (terminal (.char ')')) v.skipBlanks).andThen fun w' _ => .found w' a).Meets w
      fun x => x = a ∧ ts = [] := by
  cases h with
  | nil hclose =>
    rw [look_close_of_closes hclose]
    exact Finding.meets_found ⟨rfl, rfl⟩
  | cons ht hts =>
    have hhead := head?_ne_close_of_term (Reader.separated_eq_found.1 ht).2
    refine .inl (.inr ?_)
    simp [look, Grammar.denote, Terminal.lexeme?, Finding.lexeme, Finding.andThen, hhead]

namespace Along

variable (hg : Along levels g R)

include hg

theorem misses (hv : v.Closes w) : (g.look levels v.skipBlanks).Misses :=
  misses_look_close hg.close hv.head?

theorem misses_here (hv : v.skipBlanks = v) (hclose : v.Closes w) : (g.look levels v).Misses := by
  have h := hg.misses hclose
  rwa [hv] at h

/-- One construct in the place of all the terms. -/
theorem closed (hts : Terms levels v w ts) :
    (look levels (closed g) v).Meets w fun a => ∃ t, ts = [t] ∧ R t a := by
  rw [look_closed]
  cases hts with
  | nil hv hclose => exact .inl (hg.misses_here hv hclose).andThen
  | @cons _ t _ hv ht hts =>
    refine (hg.term ht).andThen fun a ha => (hts.close a).mono ?_
    rintro _ ⟨rfl, rfl⟩
    exact ⟨t, rfl, ha⟩

/-- One construct in the place of all the further terms. -/
theorem closed_separated (hts : MoreTerms levels v w ts) :
    (look levels (Rule.closed (separated g)) v).Meets w fun a => ∃ t, ts = [t] ∧ R t a := by
  rw [look_closed_separated, Reader.separated]
  split
  · rw [look_closed]
    cases hts with
    | nil hclose => exact .inl (hg.misses hclose).andThen
    | @cons _ _ _ t _ ht hts =>
      refine (hg.term (Reader.separated_eq_found.1 ht).2).andThen fun a ha => (hts.close a).mono ?_
      rintro _ ⟨rfl, rfl⟩
      exact ⟨t, rfl, ha⟩
  · exact .inl (.inr rfl)

/-- Two constructs in the place of all the terms. -/
theorem closed_pair (hh : Along levels h S) (hts : Terms levels v w ts) :
    (look levels (Rule.closed (pair g h)) v).Meets w fun x =>
      ∃ t t', ts = [t, t'] ∧ R t x.1 ∧ S t' x.2 := by
  rw [look_closed_pair]
  cases hts with
  | nil hv hclose => exact .inl (hg.misses_here hv hclose).andThen
  | @cons _ t _ hv ht hts =>
    refine (hg.term ht).andThen fun a ha => (hh.closed_separated hts).andThen ?_
    rintro b ⟨t', rfl, hb⟩
    exact Finding.meets_found ⟨t, t', rfl, ha, hb⟩

theorem closed_more (hts : MoreTerms levels v w ts) :
    (look levels (Rule.closed (.more g)) v).Meets w (List.Forall₂ R ts) := by
  induction hts with
  | @nil v w hclose =>
    have hsep : (Reader.separated (g.look levels) v).Misses := by
      rw [Reader.separated]
      split
      · exact hg.misses hclose
      · exact .inr rfl
    rw [look_closed_more, look_optional, Reader.opt]
    obtain h | h := hsep <;> rw [h]
    · exact .inl (.inl rfl)
    · exact .inr ⟨[], look_noElements_of_closes hclose, .nil⟩
  | @cons v u w t ts ht hts ih =>
    obtain ⟨hsep, ht⟩ := Reader.separated_eq_found.1 ht
    have hnone : look levels (noElements α) v = .missing :=
      look_noElements_missing (head?_ne_close_of_term ht)
    -- without a construct the list ends, but no closing parenthesis stands in front of a term
    rw [look_closed_more, look_optional, Reader.opt, Reader.separated, if_pos hsep]
    obtain (h | h) | ⟨a, h, ha⟩ := hg.term ht <;> rw [h]
    · exact .inl (.inl rfl)
    · exact .inl (.inr hnone)
    · simp only [Finding.andThen, Finding.orElse]
      split
      · exact .inl (.inr hnone)
      · exact ih.andThen fun as has => Finding.meets_found (.cons ha has)

/-- As many constructs in the place of all the terms. -/
theorem closed_many (hts : Terms levels v w ts) :
    (look levels (Rule.closed (many g)) v).Meets w (List.Forall₂ R ts) := by
  rw [look_closed_many, show look levels (.opt g) v = Reader.opt (g.look levels) v from rfl,
    Reader.opt]
  cases hts with
  | nil hv hclose =>
    obtain h | h := hg.misses_here hv hclose <;> rw [h]
    · exact .inl (.inl rfl)
    · exact .inr ⟨[], look_noElements_of_closes hclose, .nil⟩
  | cons hv ht hts =>
    obtain (h | h) | ⟨a, h, ha⟩ := hg.term ht <;> rw [h]
    · exact .inl (.inl rfl)
    · refine .inl (.inr (look_noElements_missing ?_))
      rw [hv]
      exact head?_ne_close_of_term ht
    · exact (hg.closed_more hts).andThen fun as has => Finding.meets_found (.cons ha has)

end Along

/-! ### Names with terms -/

/-- A name and terms stand in parentheses. -/
inductive Applied (levels : Nat) (v w : View) (p : Predicate) (ts : List Term) : Prop where
  | intro (hopen : v.rest.head? = some '(') {n : Nat}
    (hname : Terminal.symbolLexeme? .predicate v.inside.rest = some (n, p))
    (hts : Terms levels (v.inside.advance n).skipBlanks w ts)

theorem applied_of_look {p : Predicate}
    (h : look levels (Grammar.parens (headed (symbol .predicate) (many term))) v =
      .found w (p, ts)) : Applied levels v w p ts := by
  obtain ⟨hv, u, hu, hclose⟩ := look_parens_eq_found.1 h
  obtain ⟨u₁, hsymbol, hts⟩ := look_headed_eq_found.1 hu
  obtain ⟨n, hn, rfl⟩ := lexeme_eq_found.1 (look_symbol.symm.trans hsymbol)
  exact .intro hv hn (terms_of_look (View.skipBlanks_skipBlanks _) hts hclose)

theorem look_closed_word {x : String} :
    look levels (closed (word x *> blanks *> g)) v =
      (look levels (word x) v).andThen fun w _ => look levels (closed g) w.skipBlanks := by
  simp only [look_closed, look_seqRight, look_blanks]
  rcases look levels (word x) v with ⟨w, a⟩ | _ | _ | _ | _ <;> rfl

/-- A terminal is there or missing. -/
theorem look_terminal (t : Terminal α) (levels : Nat) (v : View) :
    look levels (terminal t) v = .missing ∨ ∃ w a, look levels (terminal t) v = .found w a := by
  have h : look levels (terminal t) v = .lexeme v (t.lexeme? v) := rfl
  rw [h]
  rcases t.lexeme? v with _ | ⟨n, a⟩
  · exact .inl rfl
  · exact .inr ⟨_, a, rfl⟩

section

variable {p : Predicate} (hv : Applied levels v w p ts)
  (hg : ∀ {v}, Terms levels v w ts → (look levels (closed g) v).Meets w P)

include hv hg

/-- A form in the place of a name with terms. -/
theorem meets_form {x : String} (hx : IsWord x) (hn : isName x.toList = true) :
    (look levels (form x g) v).Meets w fun a => p.text = x ∧ P a := by
  obtain @⟨hopen, n, hname, hts⟩ := hv
  rw [form, look_parens_closed hopen, look_closed_word, look_word_eq]
  rcases hlength : keywordLength? x v.inside.rest with _ | m
  · exact .inl (.inr rfl)
  · have hsymbol : Terminal.symbolLexeme? .predicate v.inside.rest = some (m, ⟨x, hn⟩) :=
      Terminal.symbolLexeme?_of_keywordLength? rfl hx hn hlength
    obtain ⟨rfl, rfl⟩ := Prod.mk.inj (Option.some.inj (hname.symm.trans hsymbol))
    exact (hg hts).mono fun _ ha => ⟨rfl, ha⟩

/-- An operator with operands in the place of a name with terms. -/
theorem meets_operation {ω : Type} [Vocabulary ω] [PlainVocabulary ω]
    (hω : ∀ a : ω, isName (Vocabulary.keyword a).toList = true) :
    (look levels (Grammar.parens (pair (keyword ω) g)) v).Meets w
      fun x => p.text = Vocabulary.keyword x.1 ∧ P x.2 := by
  obtain @⟨hopen, n, hname, hts⟩ := hv
  rw [look_parens_closed hopen, look_closed_pair]
  obtain h | ⟨u, a, h⟩ := look_terminal (.oneOf (Vocabulary.entries ω)) levels v.inside
  · exact .inl (.inr (by rw [keyword, h]; rfl))
  · obtain ⟨m, hlength, rfl⟩ := keywordLength?_of_look_keyword h
    have hsymbol : Terminal.symbolLexeme? .predicate v.inside.rest =
        some (m, ⟨Vocabulary.keyword a, hω a⟩) :=
      Terminal.symbolLexeme?_of_keywordLength? rfl (PlainVocabulary.isWord a) (hω a) hlength
    obtain ⟨rfl, rfl⟩ := Prod.mk.inj (Option.some.inj (hname.symm.trans hsymbol))
    rw [keyword, h, Finding.andThen, look_closed_separated, Reader.separated]
    split
    · exact (hg hts).andThen fun b hb => Finding.meets_found ⟨rfl, hb⟩
    · exact .inl (.inr rfl)

end

/-! ### Rules along terms -/

/-- How a term is read. -/
theorem look_term_eq_found (h : term.look levels v = .found w t) :
    (∃ x, look levels (symbol .var) v = .found w x ∧ t = .var x) ∨
    (∃ k f, levels = k + 1 ∧ functionTerm.look k v = .found w f ∧ t = f.toTerm) ∨
    ∃ x, look levels (symbol .name) v = .found w x ∧ t = .name x := by
  obtain ⟨k, rfl, h⟩ := look_call_eq_found.1 h
  obtain h | ⟨-, h⟩ := look_orElse_eq_found.1 h
  · obtain ⟨x, hx, rfl⟩ := look_map_eq_found.1 h
    exact .inl ⟨x, hx, rfl⟩
  obtain h | ⟨-, h⟩ := look_orElse_eq_found.1 h
  · obtain ⟨f, hf, rfl⟩ := look_map_eq_found.1 h
    exact .inr (.inl ⟨k, f, rfl, hf, rfl⟩)
  · obtain ⟨x, hx, rfl⟩ := look_map_eq_found.1 h
    exact .inr (.inr ⟨x, hx, rfl⟩)

/-- A variable begins with its sigil. -/
theorem head?_of_look_var {x : Variable} (h : look levels (symbol .var) v = .found w x) :
    v.rest.head? = some '?' := by
  by_contra hne
  rw [look_symbol, Terminal.symbolLexeme?_var_eq_none hne] at h
  cases h

/-- A construct in parentheses is not there where a term is not applied. -/
theorem misses_of_not_isApplied (hg : g.opens = true) (h : term.look levels v = .found w t)
    (ht : ¬t.IsApplied) : (g.look levels v).Misses := by
  have hopen : v.rest.head? ≠ some '(' := by
    obtain ⟨x, hx, rfl⟩ | ⟨k, f, -, -, rfl⟩ | ⟨x, hx, rfl⟩ := look_term_eq_found h
    · rw [head?_of_look_var hx]
      decide
    · exact absurd trivial ht
    · obtain ⟨c, hc, hstart⟩ := head?_of_look_symbol rfl hx
      rw [hc]
      rintro ⟨⟩
      exact absurd hstart (by decide)
  exact misses_of_opens hg hopen levels v.before

theorem along_term (levels : Nat) : Along levels term fun t a => a = t where
  close _ := misses_close_term
  term h := h ▸ Finding.meets_found rfl

theorem along_functionTerm (levels : Nat) : Along levels functionTerm fun t f => t = f.toTerm where
  close _ := misses_close rfl
  term {v w t} h := by
    by_cases ht : t.IsApplied
    · obtain ⟨k, f, rfl, hf, rfl⟩ := look_functionTerm_of_term h ht
      exact .inr ⟨f, look_of_le (Nat.le_succ k) hf, rfl⟩
    · exact .inl (misses_of_not_isApplied rfl h ht)

/-- A word that is a name is a symbol where it is there. -/
theorem look_name_of_word {x : String} (hx : IsWord x) (hn : isName x.toList = true)
    (h : look levels (word x) v ≠ .missing) :
    ∃ w, look levels (word x) v = .found w () ∧
      look levels (symbol .name) v = .found w ⟨x, hn⟩ := by
  rcases hlength : keywordLength? x v.rest with _ | n
  · rw [look_word_eq, hlength] at h
    exact absurd rfl h
  · refine ⟨v.advance n, by rw [look_word_eq, hlength]; rfl, ?_⟩
    rw [look_symbol, Terminal.symbolLexeme?_of_keywordLength? rfl hx hn hlength]
    rfl

/-- Where there is a name, the term is the name. -/
theorem eq_of_look_name {x : Name} (hx : look levels (symbol .name) v = .found u x)
    (h : term.look levels v = .found w t) : u = w ∧ t = .name x := by
  obtain ⟨c, hc, hstart⟩ := head?_of_look_symbol rfl hx
  obtain ⟨y, hy, rfl⟩ | ⟨k, f, -, hf, rfl⟩ | ⟨y, hy, rfl⟩ := look_term_eq_found h
  · rw [head?_of_look_var hy] at hc
    cases hc
    exact absurd hstart (by decide)
  · rw [head?_of_functionTerm hf] at hc
    cases hc
    exact absurd hstart (by decide)
  · obtain ⟨rfl, rfl⟩ := Finding.found.inj (hx.symm.trans hy)
    exact ⟨rfl, rfl⟩

theorem along_word {x : String} (hx : IsWord x) (hn : isName x.toList = true) (levels : Nat) :
    Along levels (word x) fun _ _ => True where
  close r levels b := by
    by_contra hne
    obtain ⟨w, -, hw⟩ := look_name_of_word hx hn fun hm => hne (.inr hm)
    obtain ⟨c, hc, hstart⟩ := head?_of_look_symbol rfl hw
    cases hc
    exact absurd hstart (by decide)
  term {v w t} h := by
    by_cases hm : look levels (word x) v = .missing
    · exact .inl (.inr hm)
    · obtain ⟨u, hu, hname⟩ := look_name_of_word hx hn hm
      obtain ⟨rfl, -⟩ := eq_of_look_name hname h
      exact .inr ⟨(), hu, trivial⟩

/-- What is read without a separation is also read with one, or it is missing. -/
theorem meets_parens_pair {a : α} {b : β}
    (hv : look levels (Grammar.parens (headed g h)) v = .found w (a, b)) :
    (look levels (Grammar.parens (pair g h)) v).Meets w (· = (a, b)) := by
  obtain ⟨hopen, u, hu, hclose⟩ := look_parens_eq_found.1 hv
  obtain ⟨u₁, ha, hb⟩ := look_headed_eq_found.1 hu
  have hbehind : (look levels (closed (separated h)) u₁).Meets w (· = b) := by
    rw [look_closed_separated, Reader.separated]
    split
    · rw [look_closed, hb, Finding.andThen, look_close_of_closes hclose]
      exact Finding.meets_found rfl
    · exact .inl (.inr rfl)
  rw [look_parens_closed hopen, look_closed_pair, ha, Finding.andThen]
  refine hbehind.andThen ?_
  rintro _ rfl
  exact Finding.meets_found rfl

theorem along_fluent (levels : Nat) : Along levels fluent fun t f => t.toFluent? = some f where
  close _ := .orElse (.map (misses_close_symbol rfl)) (.map misses_close_parens)
  term {v w t} h := by
    obtain ⟨x, hx, rfl⟩ | ⟨k, f, rfl, hf, rfl⟩ | ⟨x, hx, rfl⟩ := look_term_eq_found h
    · have hhead := head?_of_look_var hx
      have hmiss : Misses fluent v.rest := .orElse (misses_symbol rfl (by rw [hhead]; rfl)).map
        (misses_parens (by rw [hhead]; decide)).map
      exact .inl (hmiss levels v.before)
    · obtain ⟨⟨x, ts⟩, hx, rfl⟩ := look_map_eq_found.1 (look_of_le (Nat.le_succ k) hf)
      -- the parenthesis is no name, and the terms are the same if they are separated
      have hname : look (k + 1) (symbol .function) v = .missing := by
        rw [look_symbol,
          Terminal.symbolLexeme?_eq_none rfl (by rw [(look_parens_eq_found.1 hx).1]; rfl)]
        rfl
      rw [fluent, look_orElse, look_map, hname, look_map]
      refine (meets_parens_pair hx).andThen ?_
      rintro _ rfl
      exact Finding.meets_found rfl
    · exact .inr ⟨⟨⟨x.text, x.valid⟩, []⟩, look_orElse_eq_found.2 (.inl (look_map_eq_found.2
        ⟨_, look_symbol_of_kind (by rfl) hx, rfl⟩)), rfl⟩

/-- What holds of a reading on some levels, and of one that is too deep, holds on fewer. -/
theorem of_look_le {Q : Finding α → Prop} {j k : Nat} (hQ : Q .tooDeep) (hjk : j ≤ k)
    (h : Q (g.look k v)) : Q (g.look j v) := by
  by_cases htoo : g.look j v = .tooDeep
  · rwa [htoo]
  · rwa [look_eq_of_le hjk htoo] at h

theorem meets_of_le {j k : Nat} (hjk : j ≤ k) (h : (g.look k v).Meets w P) :
    (g.look j v).Meets w P := of_look_le (.inl (.inl rfl)) hjk h

theorem any_isDigit_of_term (h : term.look levels v = .found w t) :
    v.rest.head?.any Char.isDigit = false := by
  obtain ⟨x, hx, -⟩ | ⟨k, f, -, hf, -⟩ | ⟨x, hx, -⟩ := look_term_eq_found h
  · rw [head?_of_look_var hx]
    rfl
  · rw [head?_of_functionTerm hf]
    rfl
  · obtain ⟨c, hc, hstart⟩ := head?_of_look_symbol rfl hx
    rw [hc]
    exact isDigit_eq_false_of_isNameStart hstart

/-- A term is no arithmetic: a function is no operator. -/
theorem look_arithmetic_missing_of_term {ρ : Type} {operand : Rule (Expression ρ)} {j : Nat}
    (h : term.look levels v = .found w t) : (arithmetic operand).look j v = .missing := by
  by_contra hne
  obtain ⟨op, hop⟩ := exists_operator hne
  obtain ⟨x, hx, -⟩ | ⟨k, f, -, hf, -⟩ | ⟨x, hx, -⟩ := look_term_eq_found h
  · cases (head?_of_look_var hx).symm.trans hop.1
  · obtain ⟨p, hp, -⟩ := look_map_eq_found.1 hf
    obtain ⟨-, u, hu, -⟩ := look_parens_eq_found.1 hp
    obtain ⟨u₁, hsymbol, -⟩ := look_headed_eq_found.1 hu
    obtain ⟨c, hc, hstart⟩ := head?_of_look_symbol rfl hsymbol
    have hno := any_isNameStart_of_operator hop
    rw [hc, Option.any_some, hstart] at hno
    cases hno
  · obtain ⟨c, hc, hstart⟩ := head?_of_look_symbol rfl hx
    cases hc.symm.trans hop.1
    exact absurd hstart (by decide)

theorem along_expression (levels : Nat) :
    Along levels expression fun t e => ∃ f, t.toFluent? = some f ∧ e = .reference f where
  close _ := misses_close_expression
  term {v w t} h := by
    cases levels with
    | zero => cases h
    | succ k =>
      have hfluent := meets_of_le (Nat.le_succ k) ((along_fluent (k + 1)).term h)
      show Finding.Meets w _ (expressionForms.look k v)
      rw [expressionForms, look_orElse, look_map, look_number_missing (any_isDigit_of_term h),
        look_orElse, look_arithmetic_missing_of_term h]
      exact hfluent.andThen fun f hf => Finding.meets_found ⟨f, hf, rfl⟩

/-- Where there is the word of the duration, the term is the variable. -/
theorem eq_of_look_duration {n : Nat} (hlength : keywordLength? "?duration" v.rest = some n)
    (h : term.look levels v = .found w t) : v.advance n = w ∧ t = .var durationVariable := by
  have hvar : look levels (symbol .var) v = .found (v.advance n) durationVariable := by
    rw [look_symbol, Terminal.symbolLexeme?_of_written durationVariable (by decide) hlength]
    rfl
  have hhead := head?_of_look_var hvar
  obtain ⟨y, hy, rfl⟩ | ⟨k, f, -, hf, rfl⟩ | ⟨y, hy, rfl⟩ := look_term_eq_found h
  · obtain ⟨rfl, rfl⟩ := Finding.found.inj (hvar.symm.trans hy)
    exact ⟨rfl, rfl⟩
  · cases hhead.symm.trans (head?_of_functionTerm hf)
  · obtain ⟨c, hc, hstart⟩ := head?_of_look_symbol rfl hy
    cases hhead.symm.trans hc
    exact absurd hstart (by decide)

theorem along_durativeExpression (levels : Nat) :
    Along levels durativeExpression fun t d =>
      t = .var durationVariable ∧ d = .reference .duration ∨
        ∃ f, t.toFluent? = some f ∧ d = .reference (.fluent f) where
  close := misses_close_durativeExpression
  term {v w t} h := by
    cases levels with
    | zero => cases h
    | succ k =>
      have hexpression := meets_of_le (Nat.le_succ k) ((along_expression (k + 1)).term h)
      show Finding.Meets w _ (durativeExpressionForms.look k v)
      rw [durativeExpressionForms, look_orElse, look_map, look_word_eq, look_orElse,
        look_arithmetic_missing_of_term h]
      refine .orElse ?_ (hexpression.andThen fun e he => ?_)
      · rcases hlength : keywordLength? "?duration" v.rest with _ | n
        · exact .inl (.inr rfl)
        · obtain ⟨rfl, rfl⟩ := eq_of_look_duration hlength h
          exact Finding.meets_found (.inl ⟨rfl, rfl⟩)
      · obtain ⟨f, hf, rfl⟩ := he
        exact Finding.meets_found (.inr ⟨f, hf, rfl⟩)

/-- A name with terms is a formula. -/
theorem look_atomicFormula_of_predicate {p : Predicate}
    (hv : look levels (Grammar.parens (headed (symbol .predicate) (many term))) v =
      .found w (p, ts)) : atomicFormula.look levels v = .found w (.predicate p ts) := by
  obtain ⟨-, hname, -⟩ := applied_of_look hv
  have hequality : look levels (form "=" (pair term term)) v = .missing := by
    refine headedBy_form "=" _ levels v fun x hx hopens => ?_
    obtain rfl := List.mem_singleton.1 hx
    obtain ⟨r, hr⟩ := prefix_of_keywordLength? (by decide) hopens.2
    have hnone : Terminal.symbolLexeme? .predicate v.inside.rest = none :=
      Terminal.symbolLexeme?_eq_none rfl (by rw [← hr]; rfl)
    cases hname.symm.trans hnone
  rw [atomicFormula, atomicFormulaOf, look_orElse, look_map, hequality, look_map, hv]
  rfl

theorem along_atomicFormula (levels : Nat) :
    Along levels atomicFormula fun t _ => t.IsApplied where
  close := misses_close_atomicFormula
  term {v w t} h := by
    by_cases ht : t.IsApplied
    · obtain ⟨p, ts, hv⟩ := look_predicate_of_term h ht
      exact .inr ⟨_, look_atomicFormula_of_predicate hv, ht⟩
    · exact .inl (misses_of_not_isApplied rfl h ht)

end Rule

end Pddl
