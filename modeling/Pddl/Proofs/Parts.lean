import Pddl.Proofs.Comments
import Pddl.Proofs.Nesting
import Pddl.Proofs.Preconditions

/-!
# Texts made of parts

A whole text is put together from parts, each of which a rule of its own reads completely, with
blanks and comments between them.  A part in parentheses is read in the whole text as it is on its
own, and the head word behind its parenthesis decides which rules read it.

* `Part` : a text that a rule reads completely.
* `Part.look` : **a part is read wherever it stands.**
* `Rule.HeadedBy` : the rule reads nothing but forms with one of the given head words.
* `View.OpensWith.unique` : a form has one head word only.
-/

namespace Pddl

theorem blankLength_open (s : List Char) : blankLength false ('(' :: s) = 0 := by
  simp [blankLength, isBlank]

/-! ### Parts -/

/-- A text that a rule reads completely, under a ceiling. -/
structure Part {α : Type} (g : Rule α) (ceiling : Nat) where
  /-- The text. -/
  text : List Char
  /-- What the rule reads. -/
  value : α
  whole : ∃ d, g.parse (Cursor.ofText text ceiling) = .ok (d, value) ∧ d.rest = []

/-- What the rule reads from a text, if it reads it completely. -/
def Rule.whole? {α : Type} (g : Rule α) (text : List Char) (ceiling : Nat) : Option α :=
  match g.parse (Cursor.ofText text ceiling) with
  | .ok (d, a) => if d.rest = [] then some a else none
  | .error _ => none

theorem Rule.whole?_eq_some {α : Type} {g : Rule α} {text : List Char} {ceiling : Nat} {a : α} :
    g.whole? text ceiling = some a ↔
      ∃ d, g.parse (Cursor.ofText text ceiling) = .ok (d, a) ∧ d.rest = [] := by
  unfold whole?
  rcases g.parse (Cursor.ofText text ceiling) with e | ⟨d, b⟩
  · simp
  · by_cases hd : d.rest = [] <;> simp [hd]

/-- A text that is read completely is a part. -/
def Part.ofText {α : Type} (g : Rule α) (text : List Char) (ceiling : Nat)
    (h : (g.whole? text ceiling).isSome) : Part g ceiling where
  text := text
  value := (g.whole? text ceiling).get h
  whole := Rule.whole?_eq_some.1 (Option.some_get h).symm

/-- What the rule reads begins and ends with a parenthesis. -/
structure Rule.IsEnclosed {α : Type} (g : Rule α) : Prop where
  settled : g.Settled
  next : g.next .before = some .behind
  opens : g.opens = true

namespace Part

variable {α : Type} {g : Rule α} {ceiling : Nat}

/-- A part is found in its own text. -/
theorem look_text (hg : g.IsEnclosed) (p : Part g ceiling) :
    g.look ceiling ⟨none, p.text⟩ = .found ⟨some ')', []⟩ p.value := by
  obtain ⟨d, hd, hrest⟩ := p.whole
  obtain ⟨-, h⟩ := Rule.look_of_parse hg.settled (Rule.calm_ofText _ _) hd
  obtain ⟨-, -, -, hb⟩ :=
    (Rule.covers_of_look hg.next h).exists_span (Rule.head?_of_opens hg.opens h)
  have hview : d.view = ⟨some ')', []⟩ := by
    rcases hv : d.view with ⟨b, r⟩
    rw [hv] at hb
    obtain rfl : b = some ')' := hb
    obtain rfl : r = [] := (congrArg View.rest hv).symm.trans hrest
    rfl
  rw [hview] at h
  exact h

/-- **A part is read wherever it stands.** -/
theorem look (hg : g.IsEnclosed) (p : Part g ceiling) {v : View} {y : List Char}
    (hv : v.rest = p.text ++ y) : g.look ceiling v = .found ⟨some ')', y⟩ p.value := by
  obtain ⟨x, hx, -, hlook⟩ := Rule.look_in_context hg.next (p.look_text hg) rfl
  obtain rfl : p.text = x := by simpa using hx
  obtain ⟨b, rest⟩ := v
  obtain rfl : rest = p.text ++ y := hv
  exact hlook b y

theorem exists_text (hg : g.IsEnclosed) (p : Part g ceiling) : ∃ t, p.text = '(' :: t := by
  have h : p.text.head? = some '(' := Rule.head?_of_opens hg.opens (p.look_text hg)
  rcases ht : p.text with _ | ⟨c, t⟩
  · simp [ht] at h
  · obtain rfl : c = '(' := by simpa [ht] using h
    exact ⟨t, rfl⟩

end Part

/-- The text of a form with a head word and a name. -/
def namedText (x : String) (n : Name) : List Char :=
  '(' :: (x.toList ++ ' ' :: (n.written.toList ++ [')']))

/-- A form with a head word and a name is found. -/
theorem Rule.look_namedText {x : String} (hx : IsWord x) (n : Name) (levels : Nat)
    (b : Option Char) : look levels (Grammar.form x (Grammar.symbol .name)) ⟨b, namedText x n⟩ =
      .found ⟨some ')', []⟩ n := by
  have hinside : View.inside ⟨b, namedText x n⟩ =
      ⟨some '(', x.toList ++ ' ' :: (n.written.toList ++ [')'])⟩ :=
    View.skipBlanks_of_isSolid ((isHead_of_isWord hx).solid.append _)
  let v := (View.inside ⟨b, namedText x n⟩).advance x.toList.length
  have hname : v.skipBlanks.rest = n.written.toList ++ [')'] := by
    refine Spacing.one.rest_skipBlanks ?_
      (blankLength_of_isSolid ((recovers_symbol n).solid.append _))
    rw [View.rest_advance, hinside, List.drop_left]
    rfl
  have hsymbol : look levels (Grammar.symbol .name) v.skipBlanks =
      .found (v.skipBlanks.advance n.written.toList.length) n := by
    rw [look_symbol, hname, Terminal.symbolLexeme?_written n (by rfl)]
    rfl
  have hclose : (v.skipBlanks.advance n.written.toList.length).rest = [')'] := by
    rw [View.rest_advance, hname, List.drop_left]
  refine look_form_eq_found.2 ⟨rfl, x.toList.length, _, ?_, hsymbol, [], ?_, rfl⟩
  · rw [hinside]
    exact keywordLength?_append_self hx (by rfl)
  · exact Spacing.none.rest_skipBlanks hclose (by rfl)

/-- A form with a head word and a name, as a part. -/
def Part.named (x : String) (hx : IsWord x) (n : Name) (ceiling : Nat) :
    Part (Grammar.form x (Grammar.symbol .name)) ceiling where
  text := namedText x n
  value := n
  whole := by
    obtain ⟨d, hd, -, hv⟩ := Rule.parse_of_look (c := Cursor.ofText (namedText x n) ceiling)
      (by simp) (Rule.calm_ofText _ _) (Rule.look_namedText hx n ceiling none)
    exact ⟨d, hd, congrArg View.rest hv⟩

/-! ### What stands ahead -/

/-- The text begins with a parenthesis. -/
def AtParenthesis (t : List Char) : Prop := t.head? = some '(' ∨ t.head? = some ')'

theorem AtParenthesis.blankLength_eq {t : List Char} (h : AtParenthesis t) :
    blankLength false t = 0 := by
  obtain h | h := h <;> obtain ⟨r, rfl⟩ := List.head?_eq_some_iff.1 h
  · exact blankLength_open r
  · exact blankLength_close r

theorem Part.atParenthesis {α : Type} {g : Rule α} {ceiling : Nat} (hg : g.IsEnclosed)
    (p : Part g ceiling) (y : List Char) : AtParenthesis (p.text ++ y) := by
  obtain ⟨t, ht⟩ := p.exists_text hg
  exact .inl (by rw [ht]; rfl)

/-- A parenthesis stands ahead of the view, with the text that it begins, behind blanks and comments
and separated from what is in front of it. -/
structure View.Faces (v : View) (t : List Char) : Prop where
  rest : v.skipBlanks.rest = t
  atParenthesis : AtParenthesis t
  separates : v.separates = true

namespace View

variable {v : View} {t : List Char}

/-- Behind a parenthesis, everything is separated. -/
theorem faces_close (s : Spacing) (ht : AtParenthesis t) : Faces ⟨some ')', s.chars ++ t⟩ t where
  rest := s.rest_skipBlanks rfl ht.blankLength_eq
  atParenthesis := ht
  separates := by simp [View.separates]

theorem Faces.skipBlanks_eq (h : v.Faces t) : v.skipBlanks = ⟨v.skipBlanks.before, t⟩ := by
  rw [← h.rest]

/-- The parenthesis also stands ahead behind the blanks. -/
theorem Faces.skipBlanks (h : v.Faces t) : v.skipBlanks.Faces t where
  rest := by rw [skipBlanks_skipBlanks, h.rest]
  atParenthesis := h.atParenthesis
  separates := by
    obtain ht | ht := h.atParenthesis <;> simp [View.separates, h.rest, ht]

end View

namespace Rule

variable {α : Type} {g : Rule α} {levels ceiling : Nat} {v : View} {t y : List Char}

/-- What is missing at the view of a cursor is a mismatch there, and not a final one. -/
theorem parse_of_look_missing (hg : g.Settled) {c : Cursor} (hc : c.Calm)
    (h : g.look (c.ceiling - c.depth) c.view = .missing) :
    ∃ m, g.parse c = .error (.mismatch m) ∧ m.committed = false := by
  obtain ⟨e, he, hfinding⟩ | ⟨d, a, -, -, hfinding⟩ := (parse_agrees hg hc).cases
  · rw [h] at hfinding
    rcases e with m | _ | _
    · refine ⟨m, he, ?_⟩
      by_contra hm
      simp [Failure.finding, hm] at hfinding
    all_goals cases hfinding
  · rw [h] at hfinding
    cases hfinding

theorem look_optional :
    look levels (Grammar.optional g) v = Reader.opt (Reader.separated (g.look levels)) v :=
  congrArg (Reader.opt · v) (funext fun _ => look_separated)

theorem look_separated_ahead (h : v.Faces t) :
    Reader.separated (g.look levels) v = g.look levels v.skipBlanks := by
  rw [Reader.separated, if_pos h.separates]

theorem look_optional_missing (h : v.Faces t) (hg : g.look levels v.skipBlanks = .missing) :
    look levels (Grammar.optional g) v = .found v none := by
  rw [look_optional, Reader.opt, look_separated_ahead h, hg]
  rfl

theorem look_optional_part (hg : g.IsEnclosed) (p : Part g ceiling) (h : v.Faces (p.text ++ y)) :
    look ceiling (Grammar.optional g) v = .found ⟨some ')', y⟩ (some p.value) := by
  rw [look_optional, Reader.opt, look_separated_ahead h, p.look hg h.rest]
  rfl

end Rule

/-! ### Head words -/

/-- Behind an opening parenthesis, the word is in front. -/
def View.OpensWith (v : View) (x : String) : Prop :=
  v.rest.head? = some '(' ∧ (keywordLength? x v.inside.rest).isSome

/-- A word that begins with a colon and goes on as a name. -/
def IsFlag (x : String) : Prop := IsWord x ∧ markedLexeme? ':' x.toList = some x.toList

instance (x : String) : Decidable (IsFlag x) := inferInstanceAs (Decidable (_ ∧ _))

theorem IsFlag.exists_name {x : String} (hx : IsFlag x) :
    ∃ name, x.toList = ':' :: name ∧ isName name = true := by
  have hmark := hx.2
  rcases hc : x.toList with _ | ⟨c, cs⟩
  · simp [hc, markedLexeme?] at hmark
  · simp only [hc, markedLexeme?] at hmark
    split at hmark
    · rename_i hcolon
      obtain ⟨name, hname, heq⟩ := Option.map_eq_some_iff.1 hmark
      obtain rfl : name = cs := by simpa using heq
      exact ⟨name, by rw [beq_iff_eq.1 hcolon], isName_of_nameLexeme? hname⟩
    · cases hmark

/-- A flag that is in front is the keyword there. -/
theorem IsFlag.lexeme?_eq {x : String} (hx : IsFlag x) {cs : List Char}
    (h : (keywordLength? x cs).isSome) : Token.keyword.lexeme? cs = some x.toList := by
  obtain ⟨n, hn⟩ := Option.isSome_iff_exists.1 h
  obtain ⟨hwords, hend⟩ := keywordLength?_eq_some.1 hn
  rw [hx.1.2] at hwords
  obtain ⟨name, hname, hvalid⟩ := hx.exists_name
  have hlast : x.toList.getLast?.any isNameChar = true := by
    have hne : name ≠ [] := by
      rintro rfl
      cases hvalid
    rw [hname, List.getLast?_cons, List.getLast?_eq_some_getLast hne]
    simpa using isNameChar_of_mem_name hvalid _ (List.getLast_mem hne)
  obtain ⟨rest, rfl, ⟨-, rfl⟩ | ⟨hne, -⟩⟩ := wordsLength?_cons.1 hwords
  · have hrest : rest.head?.any isNameChar = false := by simpa [hlast] using hend
    simp [hname, Token.lexeme?, markedLexeme?, nameLexeme?_written hvalid hrest]
  · exact absurd rfl hne

/-- A flag in front, which runs into no longer name, is the keyword there. -/
theorem IsFlag.lexeme?_append {x : String} (hx : IsFlag x) {r : List Char}
    (hr : r.head?.any isNameChar = false) :
    Token.keyword.lexeme? (x.toList ++ r) = some x.toList :=
  hx.lexeme?_eq (by rw [keywordLength?_append_self hx.1 hr]; rfl)

/-- **A form has one head word only.** -/
theorem View.OpensWith.unique {v : View} {x y : String} (hx : v.OpensWith x) (hy : v.OpensWith y)
    (hfx : IsFlag x) (hfy : IsFlag y) : x = y := by
  have h := (hfx.lexeme?_eq hx.2).symm.trans (hfy.lexeme?_eq hy.2)
  exact String.toList_injective (Option.some.inj h)

namespace Rule

variable {α β : Type} {g h : Rule α} {words words' : List String}

/-- The rule reads nothing but forms with one of the given head words. -/
def HeadedBy (words : List String) (g : Rule α) : Prop :=
  ∀ levels v, (∀ x ∈ words, ¬v.OpensWith x) → g.look levels v = .missing

theorem headedBy_form (x : String) (g : Rule α) : HeadedBy [x] (Grammar.form x g) := by
  intro levels v hv
  have hx := hv x (by simp)
  obtain ⟨b, rest⟩ := v
  by_cases hopen : rest.head? = some '('
  · obtain ⟨s, rfl⟩ := List.head?_eq_some_iff.1 hopen
    -- the parenthesis is there, so the word is not
    have hword : keywordLength? x (View.skipBlanks ⟨some '(', s⟩).rest = none := by
      simpa [View.OpensWith, View.inside] using hx
    rw [Grammar.form, look_parens, look_seqRight, look_seqRight, look_word_eq, hword]
    rfl
  · have hmissing : look levels (Grammar.terminal (.char '(')) ⟨b, rest⟩ = .missing := by
      simp [look, Grammar.denote, Terminal.lexeme?, Finding.lexeme, hopen]
    rw [Grammar.form, Grammar.parens, look_seqLeft, look_seqRight, hmissing]
    rfl

theorem HeadedBy.map (f : α → β) (hg : HeadedBy words g) : HeadedBy words (f <$> g) :=
  fun levels v hv => look_map_eq_missing.2 (hg levels v hv)

theorem HeadedBy.orElse (hg : HeadedBy words g) (hh : HeadedBy words' h) :
    HeadedBy (words ++ words') (g <|> h) := fun levels v hv =>
  look_orElse_eq_missing.2 ⟨hg levels v fun x hx => hv x (by simp [hx]),
    hh levels v fun x hx => hv x (by simp [hx])⟩

/-- What the rule finds is a form with one of the head words. -/
theorem HeadedBy.exists_opensWith (hg : HeadedBy words g) {levels : Nat} {v w : View} {a : α}
    (h : g.look levels v = .found w a) : ∃ x ∈ words, v.OpensWith x := by
  by_contra hv
  push Not at hv
  rw [hg levels v hv] at h
  cases h

/-- The rule does not read a form with another head word. -/
theorem HeadedBy.missing (hg : HeadedBy words g) (hwords : ∀ y ∈ words, IsFlag y) {v : View}
    {x : String} (hv : v.OpensWith x) (hx : IsFlag x) (hne : x ∉ words) (levels : Nat) :
    g.look levels v = .missing :=
  hg levels v fun y hy hopens => hne (hv.unique hopens hx (hwords y hy) ▸ hy)

end Rule

/-! ### Openings -/

/-- How a whole text begins, up to the form that says what it is and how it is called. -/
structure Opening {α : Type} (title : Rule α) (ceiling : Nat) where
  /-- The spacing in front of the text. -/
  lead : Spacing
  /-- The spacing behind its parenthesis. -/
  inner : Spacing
  /-- The spacing behind its head word. -/
  gap : Spacing
  /-- The form with the name. -/
  title : Part title ceiling

namespace Opening

variable {α : Type} {title : Rule α} {ceiling : Nat} (o : Opening title ceiling)

/-- The characters. -/
def chars : List Char :=
  o.lead.chars ++ '(' :: (o.inner.chars ++ ("define".toList ++ (o.gap.chars ++ o.title.text)))

/-- Behind its parenthesis and its head word, a whole text holds its title. -/
theorem views (hg : title.IsEnclosed) {v : View} {y : List Char} (hv : v.rest = o.chars ++ y) :
    v.skipBlanks.rest.head? = some '(' ∧
      keywordLength? "define" v.skipBlanks.inside.rest = some 6 ∧
      (v.skipBlanks.inside.advance 6).skipBlanks.rest = o.title.text ++ y := by
  let titled := o.gap.chars ++ (o.title.text ++ y)
  have hlead : v.skipBlanks.rest = '(' :: (o.inner.chars ++ ("define".toList ++ titled)) := by
    refine o.lead.rest_skipBlanks ?_ (blankLength_open _)
    simp [hv, chars, titled]
  have hinner : v.skipBlanks.inside.rest = "define".toList ++ titled := by
    refine o.inner.rest_skipBlanks ?_ (by simp [blankLength, isBlank])
    rw [hlead, List.tail_cons]
  refine ⟨by rw [hlead]; rfl, ?_, ?_⟩
  · rw [hinner]
    refine keywordLength?_append_self (w := "define") (by decide) (o.gap.any_isNameChar ?_)
    obtain ⟨t, ht⟩ := o.title.exists_text hg
    rw [ht]
    rfl
  · refine o.gap.rest_skipBlanks ?_ (o.title.atParenthesis hg y).blankLength_eq
    rw [View.rest_advance, hinner]
    rfl

end Opening

/-- Behind what is found in a form stands the last parenthesis, or the form is not there. -/
theorem Rule.look_form_behind {α : Type} {g : Rule α} {levels : Nat} {v u : View} {a : α}
    {x : String} {n : Nat} (hv : v.rest.head? = some '(')
    (hx : keywordLength? x v.inside.rest = some n)
    (hg : g.look levels (v.inside.advance n).skipBlanks = .found u a) :
    look levels (Grammar.form x g) v =
      (look levels (.terminal (.char ')')) u.skipBlanks).andThen fun w _ => .found w a := by
  obtain ⟨b, rest⟩ := v
  obtain ⟨s, rfl⟩ := List.head?_eq_some_iff.1 hv
  have hword : look levels (Grammar.word x *> Grammar.blanks *> g) (View.inside ⟨b, '(' :: s⟩) =
      .found u a := by
    rw [look_seqRight, look_seqRight, look_word_eq, hx]
    exact hg
  rw [Grammar.form, look_parens]
  exact congrArg (Finding.andThen · _) hword

/-- Behind its title, a whole text holds its sections, then the last parenthesis and blanks. -/
theorem Opening.look {α β : Type} {title : Rule α} {sections : Rule β} {ceiling : Nat}
    (hg : title.IsEnclosed) (o : Opening title ceiling) {v u : View} {y : List Char} {b : β}
    (hv : v.rest = o.chars ++ y)
    (h : sections.look ceiling (View.skipBlanks ⟨some ')', y⟩) = .found u b) :
    Rule.look ceiling (Grammar.padded (Grammar.form "define" (Grammar.pair title sections))) v =
      (Rule.look ceiling (.terminal (.char ')')) u.skipBlanks).andThen fun w _ =>
        .found w.skipBlanks (o.title.value, b) := by
  obtain ⟨hopen, hword, htitle⟩ := o.views hg hv
  have hpair : Rule.look ceiling (Grammar.pair title sections)
      (v.skipBlanks.inside.advance 6).skipBlanks = .found u (o.title.value, b) := by
    refine Rule.look_pair_eq_found.2 ⟨_, o.title.look hg htitle, ?_⟩
    exact Reader.separated_eq_found.2 ⟨by simp [View.separates], h⟩
  simp only [Grammar.padded, Rule.look_seqLeft, Rule.look_seqRight, Rule.look_blanks,
    Finding.andThen, Rule.look_form_behind hopen hword hpair]
  rcases Rule.look ceiling (.terminal (.char ')')) u.skipBlanks with _ | _ | _ | _ | _ <;> rfl

end Pddl
