import Pddl.Proofs.Delimited
import Pddl.Proofs.Forms

/-!
# Reading what is written

A written construct is a head word and its parts in parentheses, with a gap in front of every part.
What a rule makes of such a text is put together from what the rules of its parts make of theirs.
Every statement allows that the levels of nesting are used up.

* `enclose` : a head word and parts in parentheses.
* `Rule.Reads`, `Rule.Recovers` : the rule takes exactly the written construct, and what it finds
  has a property.
* `Rule.Misses` : the rule finds nothing in front of a text.
* `Rule.recovers_form`, `Rule.reads_pair`, `Rule.recovers_form_many`, … : how the shapes of rules
  read.
-/

namespace Pddl

/-! ### Written constructs -/

/-- Blanks, at least one of them. -/
def IsGap (gap : List Char) : Prop := gap ≠ [] ∧ ∀ c ∈ gap, isBlank c = true

/-- The parts, each behind a gap. -/
def spread (gap : List Char) (parts : List (List Char)) : List Char := parts.flatMap (gap ++ ·)

/-- A head word and parts in parentheses. -/
def enclose (gap : List Char) (head : String) (parts : List (List Char)) : List Char :=
  '(' :: (head.toList ++ (spread gap parts ++ [')']))

/-- The text begins with something other than a blank, a comment or a closing parenthesis. -/
def IsSolid (s : List Char) : Prop := ∃ c cs, s = c :: cs ∧ isBlank c = false ∧ c ≠ ';' ∧ c ≠ ')'

@[simp] theorem spread_nil (gap : List Char) : spread gap [] = [] := rfl

@[simp] theorem spread_cons (gap p : List Char) (ps : List (List Char)) :
    spread gap (p :: ps) = gap ++ (p ++ spread gap ps) := by
  simp [spread]

/-- Parts with gaps between them are a part and others, each behind a gap. -/
theorem intercalate_cons (gap p : List Char) (ps : List (List Char)) :
    gap.intercalate (p :: ps) = p ++ spread gap ps := by
  induction ps generalizing p with
  | nil => simp
  | cons q ps ih => simp [List.intercalate_cons_cons, ih]

theorem isGap_blank : IsGap [' '] := by simp [IsGap, isBlank]

theorem isSolid_enclose (gap : List Char) (head : String) (parts : List (List Char)) :
    IsSolid (enclose gap head parts) := ⟨_, _, rfl, by decide, by decide, by decide⟩

theorem IsSolid.append {s : List Char} (h : IsSolid s) (r : List Char) : IsSolid (s ++ r) := by
  obtain ⟨c, cs, rfl, hc⟩ := h
  exact ⟨c, cs ++ r, rfl, hc⟩

theorem IsGap.delimited {gap : List Char} (h : IsGap gap) (r : List Char) : Delimited (gap ++ r) := by
  obtain ⟨hne, hb⟩ := h
  cases gap with
  | nil => exact absurd rfl hne
  | cons c gap => exact .blank (hb c (by simp)) _

theorem IsGap.delimited_spread {gap : List Char} (h : IsGap gap) (parts : List (List Char))
    {r : List Char} (hr : Delimited r) : Delimited (spread gap parts ++ r) := by
  cases parts with
  | nil => exact hr
  | cons p ps =>
    rw [spread_cons, List.append_assoc]
    exact h.delimited _

theorem blankLength_of_isSolid {s : List Char} (h : IsSolid s) : blankLength false s = 0 := by
  obtain ⟨c, cs, rfl, hb, hc, -⟩ := h
  simp [blankLength, hb, hc]

theorem blankLength_close (r : List Char) : blankLength false (')' :: r) = 0 := by
  simp [blankLength, isBlank]

/-- A gap is skipped up to what follows it. -/
theorem blankLength_gap {gap s : List Char} (h : ∀ c ∈ gap, isBlank c = true)
    (hs : blankLength false s = 0) : blankLength false (gap ++ s) = gap.length := by
  induction gap with
  | nil => exact hs
  | cons c gap ih =>
    have ih := ih fun d hd => h d (List.mem_cons_of_mem _ hd)
    simp [blankLength, h c (by simp), ih, Nat.add_comm]

namespace View

theorem skipBlanks_of_isSolid {b : Option Char} {s : List Char} (h : IsSolid s) :
    skipBlanks ⟨b, s⟩ = ⟨b, s⟩ := by
  rw [skipBlanks, blankLength_of_isSolid h, advance_zero]

theorem exists_skipBlanks_gap {gap s : List Char} (hg : IsGap gap) (hs : IsSolid s)
    (b : Option Char) : ∃ b', skipBlanks ⟨b, gap ++ s⟩ = ⟨b', s⟩ := by
  have hl := blankLength_gap hg.2 (blankLength_of_isSolid hs)
  refine ⟨(skipBlanks ⟨b, gap ++ s⟩).before, ?_⟩
  rw [skipBlanks, hl]
  rcases hn : gap.length with _ | n
  · exact absurd (List.length_eq_zero_iff.1 hn) hg.1
  · simp [advance, ← hn]

theorem separates_gap {gap s : List Char} (hg : IsGap gap) (hs : IsSolid s) (b : Option Char) :
    separates ⟨b, gap ++ s⟩ = true := by
  have hl := blankLength_gap hg.2 (blankLength_of_isSolid hs)
  have hpos : 0 < gap.length := List.length_pos_of_ne_nil hg.1
  simp [separates, hl, hpos]

theorem skipBlanks_close (b : Option Char) (r : List Char) :
    skipBlanks ⟨b, ')' :: r⟩ = ⟨b, ')' :: r⟩ := by
  rw [skipBlanks, blankLength_close, advance_zero]

theorem separates_close (b : Option Char) (r : List Char) :
    separates ⟨b, ')' :: r⟩ = true := by
  simp [separates]

end View

/-! ### Findings -/

namespace Finding

variable {α β : Type} {r r' : List Char} {P : α → Prop} {Q : β → Prop}

/-- A construct with the property is found in front of the given characters, unless the levels are
used up. -/
def Leaves (r : List Char) (P : α → Prop) (o : Finding α) : Prop :=
  o = .tooDeep ∨ ∃ b a, o = .found ⟨b, r⟩ a ∧ P a

/-- Nothing is found, unless the levels are used up. -/
def Misses (o : Finding α) : Prop := o = .tooDeep ∨ o = .missing

theorem Leaves.andThen {o : Finding α} {k : View → α → Finding β} (h : o.Leaves r P)
    (hk : ∀ b a, P a → (k ⟨b, r⟩ a).Leaves r' Q) : (o.andThen k).Leaves r' Q := by
  obtain rfl | ⟨b, a, rfl, ha⟩ := h
  · exact .inl rfl
  · exact hk b a ha

theorem Leaves.andThen_misses {o : Finding α} {k : View → α → Finding β} (h : o.Leaves r P)
    (hk : ∀ b a, P a → (k ⟨b, r⟩ a).Misses) : (o.andThen k).Misses := by
  obtain rfl | ⟨b, a, rfl, ha⟩ := h
  · exact .inl rfl
  · exact hk b a ha

theorem Misses.andThen {o : Finding α} {k : View → α → Finding β} (h : o.Misses) :
    (o.andThen k).Misses := by
  obtain rfl | rfl := h
  · exact .inl rfl
  · exact .inr rfl

theorem leaves_found {b : Option Char} {a : α} (h : P a) : (found ⟨b, r⟩ a).Leaves r P :=
  .inr ⟨b, a, rfl, h⟩

theorem Leaves.mono {o : Finding α} {P' : α → Prop} (h : o.Leaves r P) (hP : ∀ a, P a → P' a) :
    o.Leaves r P' :=
  h.imp id fun ⟨b, a, ho, ha⟩ => ⟨b, a, ho, hP a ha⟩

theorem Leaves.orElse {o o' : Finding α} (h : o.Leaves r P) : (o.orElse o').Leaves r P := by
  obtain rfl | ⟨b, a, rfl, ha⟩ := h
  · exact .inl rfl
  · exact leaves_found ha

theorem Misses.orElse_leaves {o o' : Finding α} (h : o.Misses) (h' : o'.Leaves r P) :
    (o.orElse o').Leaves r P := by
  obtain rfl | rfl := h
  · exact .inl rfl
  · exact h'

theorem Misses.orElse {o o' : Finding α} (h : o.Misses) (h' : o'.Misses) : (o.orElse o').Misses := by
  obtain rfl | rfl := h
  · exact .inl rfl
  · exact h'

end Finding

/-! ### Rules that begin with a parenthesis -/

/-- What the terminal finds begins with an opening parenthesis. -/
def Terminal.opens {α : Type} : Terminal α → Bool
  | char c => c == '('
  | refuse _ => true
  | _ => false

/-- What the nonterminal stands for begins with an opening parenthesis. -/
def Nonterminal.opens : {α : Type} → Nonterminal α → Bool
  | _, term => false
  | _, expression => false
  | _, durativeExpression => false
  | _, metricExpression => false
  | _, _ => true

/-- What the rule finds begins with an opening parenthesis. -/
def Grammar.opens {α : Type} : Rule α → Bool
  | terminal t => t.opens
  | call n => n.opens
  | seq g _ => g.opens
  | refine _ g => g.opens
  | orElse g h => g.opens && h.opens
  | _ => false

theorem Nonterminal.opens_production {α : Type} (n : Nonterminal α) (h : n.opens = true) :
    n.production.opens = true := by
  cases n <;> first | rfl | exact absurd h (by decide)

/-! ### Rules -/

namespace Rule

variable {α β : Type} {g : Rule α} {h : Rule β} {s r : List Char} {P : α → Prop} {Q : β → Prop}

/-- From the text, which is followed by the given rest, the rule takes exactly the text, and what it
finds has the property. -/
def Reads (g : Rule α) (s r : List Char) (P : α → Prop) : Prop :=
  ∀ levels b, (g.look levels ⟨b, s ++ r⟩).Leaves r P

/-- The rule takes exactly the text, whatever may follow a written construct. -/
structure Recovers (g : Rule α) (s : List Char) (P : α → Prop) : Prop where
  solid : IsSolid s
  reads : ∀ {r}, Delimited r → g.Reads s r P

/-- The rule finds nothing in front of the text. -/
def Misses (g : Rule α) (s : List Char) : Prop := ∀ levels b, (g.look levels ⟨b, s⟩).Misses

theorem Reads.mono {P' : α → Prop} (hg : g.Reads s r P) (hP : ∀ a, P a → P' a) : g.Reads s r P' :=
  fun levels b => (hg levels b).mono hP

theorem Recovers.mono {P' : α → Prop} (hg : g.Recovers s P) (hP : ∀ a, P a → P' a) :
    g.Recovers s P' :=
  ⟨hg.solid, fun hr => (hg.reads hr).mono hP⟩

/-! ### Terminals -/

theorem reads_terminal {t : Terminal α} {a : α}
    (ht : ∀ b, t.lexeme? ⟨b, s ++ r⟩ = some (s.length, a)) : Reads (.terminal t) s r (· = a) := by
  intro levels b
  have hv : (View.advance ⟨b, s ++ r⟩ s.length).rest = r := by simp
  rcases hw : View.advance ⟨b, s ++ r⟩ s.length with ⟨b', r'⟩
  rw [hw] at hv
  obtain rfl : r' = r := hv
  exact .inr ⟨b', a, by simp [look, Grammar.denote, ht, Finding.lexeme, hw], rfl⟩

theorem misses_terminal {t : Terminal α} (ht : ∀ b, t.lexeme? ⟨b, s⟩ = none) :
    Misses (.terminal t) s :=
  fun levels b => .inr (by simp [look, Grammar.denote, ht, Finding.lexeme])

theorem reads_word {w : String} (hw : IsWord w) (hr : Delimited r) :
    Reads (Grammar.word w) w.toList r fun _ => True :=
  (reads_terminal (a := ()) fun b => by simp [Terminal.lexeme?, keywordLength?_self hw hr]).mono
    fun _ _ => trivial

theorem misses_word {w : String} {t : List Char} (hw : IsPlainWord w) (ha : Apart w t = true)
    (hr : Delimited r) : Misses (Grammar.word w) (t ++ r) :=
  misses_terminal fun b => by simp [Terminal.lexeme?, keywordLength?_of_apart ha hw hr]

theorem recovers_symbol {kind : SymbolKind} (x : Symbol kind) :
    Recovers (Grammar.symbol kind) x.written.toList (· = x) where
  solid := by
    rcases hk : kind.sigil.toList with _ | ⟨c, cs⟩
    · rcases ht : x.text.toList with _ | ⟨c, cs⟩
      · have := x.valid
        simp [ht, isName] at this
      · refine ⟨c, cs, by simp [Symbol.written, String.toList_append, hk, ht], ?_⟩
        have hv := isNameChar_of_mem_name x.valid c (by simp [ht])
        refine ⟨isBlank_eq_false_of_isNameChar hv, ?_, ?_⟩ <;> rintro rfl <;>
          exact absurd hv (by decide)
    · obtain rfl : '?' = c := by
        cases kind <;> simp [SymbolKind.sigil] at hk
        exact hk.1
      exact ⟨'?', cs ++ x.text.toList, by simp [Symbol.written, String.toList_append, hk],
        by decide, by decide, by decide⟩
  reads hr := reads_terminal fun b => Terminal.symbolLexeme?_written x hr.any_isNameChar

theorem misses_symbol {kind : SymbolKind} (hk : kind.sigil = "")
    (hs : s.head?.any isNameStart = false) :
    Misses (Grammar.symbol kind) s :=
  misses_terminal fun _ => Terminal.symbolLexeme?_eq_none hk hs

theorem misses_var (hs : s.head? ≠ some '?') : Misses (Grammar.symbol .var) s :=
  misses_terminal fun _ => Terminal.symbolLexeme?_var_eq_none hs

/-! ### Results and alternatives -/

theorem look_map {f : α → β} (levels : Nat) (v : View) :
    look levels (f <$> g) v = (g.look levels v).andThen fun w a => .found w (f a) := rfl

theorem look_orElse {g h : Rule α} (levels : Nat) (v : View) :
    look levels (g <|> h) v = (g.look levels v).orElse (h.look levels v) := rfl

theorem look_seq (levels : Nat) (v : View) :
    look levels (.seq g h) v =
      (g.look levels v).andThen fun w a => (h.look levels w).andThen fun w' b => .found w' (a, b) :=
  rfl

theorem look_seqLeft (levels : Nat) (v : View) :
    look levels (g <* h) v =
      (g.look levels v).andThen fun w a => (h.look levels w).andThen fun w' _ => .found w' a := by
  show Finding.andThen (look levels (.seq g h) v) _ = _
  rw [look_seq]
  rcases g.look levels v with ⟨w, a⟩ | _ | _ | _ | _ <;> try rfl
  simp only [Finding.andThen]
  rcases h.look levels w with ⟨w', b⟩ | _ | _ | _ | _ <;> rfl

theorem look_seqRight (levels : Nat) (v : View) :
    look levels (g *> h) v = (g.look levels v).andThen fun w _ => h.look levels w := by
  show Finding.andThen (look levels (.seq g h) v) _ = _
  rw [look_seq]
  rcases g.look levels v with ⟨w, a⟩ | _ | _ | _ | _ <;> try rfl
  simp only [Finding.andThen]
  rcases h.look levels w with ⟨w', b⟩ | _ | _ | _ | _ <;> rfl

theorem Reads.map {f : α → β} (hg : g.Reads s r P) (hf : ∀ a, P a → Q (f a)) :
    Reads (f <$> g) s r Q := fun levels b =>
  (hg levels b).andThen fun _ a ha => Finding.leaves_found (hf a ha)

theorem Recovers.map {f : α → β} (hg : g.Recovers s P) (hf : ∀ a, P a → Q (f a)) :
    Recovers (f <$> g) s Q :=
  ⟨hg.solid, fun hr => (hg.reads hr).map hf⟩

theorem Recovers.congr {a : α} (f : α → β) (hg : g.Recovers s (· = a)) :
    Recovers (f <$> g) s (· = f a) :=
  hg.map fun _ => congrArg f

theorem Reads.refine {f : α → Except Complaint β} (hg : g.Reads s r P)
    (hf : ∀ a, P a → ∃ b, f a = .ok b ∧ Q b) : Reads (.refine f g) s r Q := fun levels b =>
  (hg levels b).andThen fun b' a ha => by
    obtain ⟨x, hx, hQ⟩ := hf a ha
    rw [hx]
    exact Finding.leaves_found hQ

theorem Recovers.refine {f : α → Except Complaint β} (hg : g.Recovers s P)
    (hf : ∀ a, P a → ∃ b, f a = .ok b ∧ Q b) : Recovers (.refine f g) s Q :=
  ⟨hg.solid, fun hr => (hg.reads hr).refine hf⟩

theorem Misses.map {f : α → β} (hg : g.Misses s) : Misses (f <$> g) s := fun levels b =>
  (hg levels b).andThen

theorem Reads.left {h : Rule α} (hg : g.Reads s r P) : Reads (g <|> h) s r P := fun levels b =>
  (hg levels b).orElse

theorem Reads.right {h : Rule α} (hg : g.Misses (s ++ r)) (hh : h.Reads s r P) :
    Reads (g <|> h) s r P := fun levels b => (hg levels b).orElse_leaves (hh levels b)

theorem Recovers.left {h : Rule α} (hg : g.Recovers s P) : Recovers (g <|> h) s P :=
  ⟨hg.solid, fun hr => (hg.reads hr).left⟩

theorem Recovers.right {h : Rule α} (hg : ∀ {r}, Delimited r → g.Misses (s ++ r))
    (hh : h.Recovers s P) : Recovers (g <|> h) s P :=
  ⟨hh.solid, fun hr => .right (hg hr) (hh.reads hr)⟩

theorem Misses.orElse {h : Rule α} (hg : g.Misses s) (hh : h.Misses s) : Misses (g <|> h) s :=
  fun levels b => (hg levels b).orElse (hh levels b)

theorem Misses.refine {f : α → Except Complaint β} (hg : g.Misses s) : Misses (.refine f g) s :=
  fun levels b => (hg levels b).andThen

theorem reads_call {n : Nonterminal α} (h : n.production.Reads s r P) :
    Reads (.call n) s r P := by
  intro levels b
  cases levels with
  | zero => exact .inl rfl
  | succ levels => exact h levels b

theorem recovers_call {n : Nonterminal α} (h : n.production.Recovers s P) :
    Recovers (.call n) s P :=
  ⟨h.solid, fun hr => reads_call (h.reads hr)⟩

theorem misses_call {n : Nonterminal α} (h : n.production.Misses s) : Misses (.call n) s := by
  intro levels b
  cases levels with
  | zero => exact .inl rfl
  | succ levels => exact h levels b

theorem misses_denote_of_opens {read : {α : Type} → Nonterminal α → Reader α} {b : Option Char}
    (hread : ∀ {α : Type} (n : Nonterminal α), n.opens = true → (read n ⟨b, s⟩).Misses)
    (hg : g.opens = true) (hs : s.head? ≠ some '(') : (g.denote read ⟨b, s⟩).Misses := by
  induction g with
  | terminal t =>
    cases t <;> simp [Grammar.opens, Terminal.opens] at hg
    · exact .inr rfl
    · subst hg
      exact .inr (by simp [Grammar.denote, Terminal.lexeme?, Finding.lexeme, hs])
  | call n => exact hread n hg
  | seq g h ih _ => exact (ih hg).andThen
  | refine f g ih => exact (ih hg).andThen
  | orElse g h ihg ihh =>
    simp only [Grammar.opens, Bool.and_eq_true] at hg
    exact (ihg hg.1).orElse (ihh hg.2)
  | _ => simp [Grammar.opens] at hg

/-- A rule that begins with a parenthesis is missing where there is none. -/
theorem misses_of_opens (hg : g.opens = true) (hs : s.head? ≠ some '(') : g.Misses s := by
  intro levels b
  have hread : ∀ {α : Type} (n : Nonterminal α), n.opens = true →
      (n.denote levels ⟨b, s⟩).Misses := by
    induction levels with
    | zero => exact fun _ _ => .inl rfl
    | succ levels ih => exact fun n hn => misses_denote_of_opens ih (n.opens_production hn) hs
  exact misses_denote_of_opens hread hg hs

/-- In front of a closing parenthesis, a rule that begins with an opening one is missing. -/
theorem misses_close {r : List Char} (hg : g.opens = true) : g.Misses (')' :: r) :=
  misses_of_opens hg (by simp)

/-! ### Sequences -/

theorem Reads.seq {s' : List Char} (hg : g.Reads s (s' ++ r) P) (hh : h.Reads s' r Q) :
    Reads (.seq g h) (s ++ s') r fun ab => P ab.1 ∧ Q ab.2 := by
  intro levels b
  rw [look_seq, List.append_assoc]
  exact (hg levels b).andThen fun b' a ha =>
    (hh levels b').andThen fun _ _ hb => Finding.leaves_found ⟨ha, hb⟩

/-- Behind a gap, a rule is separated from what is in front. -/
theorem look_separated_gap {gap : List Char} (hgap : IsGap gap) (hs : IsSolid s) (levels : Nat)
    (b : Option Char) : ∃ b', look levels (Grammar.separated h) ⟨b, gap ++ s⟩ =
      h.look levels ⟨b', s⟩ := by
  obtain ⟨b', hb'⟩ := View.exists_skipBlanks_gap hgap hs b
  have hsep := View.separates_gap hgap hs b
  refine ⟨b', ?_⟩
  rw [Grammar.separated, look_seqRight, ← hb']
  simp only [look, Grammar.separator, Grammar.denote, Terminal.lexeme?, hsep, ↓reduceIte,
    Finding.lexeme, Finding.andThen]
  rfl

/-- In front of a closing parenthesis, a rule is separated from what is in front. -/
theorem look_separated_close (levels : Nat) (b : Option Char) (r : List Char) :
    look levels (Grammar.separated h) ⟨b, ')' :: r⟩ = h.look levels ⟨b, ')' :: r⟩ := by
  rw [Grammar.separated, look_seqRight]
  simp only [look, Grammar.separator, Grammar.denote, Terminal.lexeme?, View.separates_close,
    ↓reduceIte, Finding.lexeme, Finding.andThen]
  rw [show View.advance ⟨b, ')' :: r⟩ (blankLength false (')' :: r)) = ⟨b, ')' :: r⟩ from
    View.skipBlanks_close b r]

theorem Reads.separated {gap : List Char} (hgap : IsGap gap) (hs : IsSolid s)
    (hh : h.Reads s r Q) : Reads (Grammar.separated h) (gap ++ s) r Q := by
  intro levels b
  obtain ⟨b', hb'⟩ := look_separated_gap (h := h) hgap (hs.append r) levels b
  rw [List.append_assoc, hb']
  exact hh levels b'

theorem Reads.separated_close (hh : h.Reads [] (')' :: r) Q) :
    Reads (Grammar.separated h) [] (')' :: r) Q := by
  intro levels b
  rw [List.nil_append, look_separated_close]
  exact hh levels b

theorem look_blanks (levels : Nat) (v : View) :
    look levels Grammar.blanks v = .found v.skipBlanks () := rfl

theorem Reads.behindGap {gap : List Char} (hgap : IsGap gap) (hs : IsSolid s) (hh : h.Reads s r Q) :
    Reads (Grammar.blanks *> h) (gap ++ s) r Q := by
  intro levels b
  obtain ⟨b', hb'⟩ := View.exists_skipBlanks_gap hgap (hs.append r) b
  simp only [look_seqRight, List.append_assoc, look_blanks, hb', Finding.andThen]
  exact hh levels b'

theorem Reads.behindGap_close (hh : h.Reads [] (')' :: r) Q) :
    Reads (Grammar.blanks *> h) [] (')' :: r) Q := by
  intro levels b
  simp only [look_seqRight, List.nil_append, look_blanks, View.skipBlanks_close, Finding.andThen]
  exact hh levels b

/-! ### Parentheses -/

theorem look_open (levels : Nat) (b : Option Char) (s : List Char) :
    look levels (Grammar.terminal (.char '(')) ⟨b, '(' :: s⟩ = .found ⟨some '(', s⟩ () := by
  simp [look, Grammar.denote, Terminal.lexeme?, Finding.lexeme, View.advance]

theorem look_close (levels : Nat) (b : Option Char) (s : List Char) :
    look levels (Grammar.terminal (.char ')')) ⟨b, ')' :: s⟩ = .found ⟨some ')', s⟩ () := by
  simp [look, Grammar.denote, Terminal.lexeme?, Finding.lexeme, View.advance]

/-- Behind an opening parenthesis come the construct and the closing parenthesis. -/
theorem look_parens (levels : Nat) (b : Option Char) (s : List Char) :
    look levels (Grammar.parens g) ⟨b, '(' :: s⟩ =
      (g.look levels (View.skipBlanks ⟨some '(', s⟩)).andThen fun w a =>
        (look levels (Grammar.terminal (.char ')')) w.skipBlanks).andThen fun w' _ =>
          .found w' a := by
  simp only [Grammar.parens, Grammar.padded, look_seqLeft, look_seqRight, look_open, look_blanks,
    Finding.andThen]
  rcases g.look levels (View.skipBlanks ⟨some '(', s⟩) with ⟨w, a⟩ | _ | _ | _ | _ <;> rfl

/-- A construct in parentheses is read if the construct is read up to the closing one. -/
theorem Reads.parens (hs : blankLength false (s ++ ')' :: r) = 0)
    (hg : g.Reads s (')' :: r) P) : Reads (Grammar.parens g) ('(' :: (s ++ [')'])) r P := by
  intro levels b
  have hskip : View.skipBlanks ⟨some '(', s ++ ')' :: r⟩ = ⟨some '(', s ++ ')' :: r⟩ := by
    rw [View.skipBlanks, hs, View.advance_zero]
  have happ : '(' :: (s ++ [')']) ++ r = '(' :: (s ++ ')' :: r) := by simp
  rw [happ, look_parens, hskip]
  refine (hg levels (some '(')).andThen fun b' a ha => ?_
  rw [View.skipBlanks_close, look_close]
  exact Finding.leaves_found ha

/-- Where there is no parenthesis, there is nothing in parentheses. -/
theorem misses_parens (hs : s.head? ≠ some '(') : Misses (Grammar.parens g) s := by
  intro levels b
  rw [Grammar.parens, look_seqLeft, look_seqRight]
  have hopen : look levels (Grammar.terminal (.char '(')) ⟨b, s⟩ = .missing := by
    simp [look, Grammar.denote, Terminal.lexeme?, Finding.lexeme, hs]
  rw [hopen]
  exact .inr rfl

/-- In front of the text, the rule finds nothing or something that no parenthesis closes. -/
def Stalls (g : Rule α) (s : List Char) : Prop :=
  ∀ levels b, (g.look levels ⟨b, s⟩).Misses ∨
    ∃ v a, g.look levels ⟨b, s⟩ = .found v a ∧ v.skipBlanks.rest.head? ≠ some ')'

theorem Misses.stalls (hg : g.Misses s) : g.Stalls s := fun levels b => .inl (hg levels b)

/-- In parentheses there is nothing where the construct stalls. -/
theorem misses_parens_of_stalls (hs : blankLength false s = 0) (hg : g.Stalls s) :
    Misses (Grammar.parens g) ('(' :: s) := by
  intro levels b
  have hskip : View.skipBlanks ⟨some '(', s⟩ = ⟨some '(', s⟩ := by
    rw [View.skipBlanks, hs, View.advance_zero]
  rw [look_parens, hskip]
  rcases hg levels (some '(') with h | ⟨v, a, ho, hv⟩
  · exact h.andThen
  · refine .inr ?_
    have hclose : look levels (Grammar.terminal (.char ')')) v.skipBlanks = .missing := by
      simp [look, Grammar.denote, Terminal.lexeme?, Finding.lexeme, hv]
    rw [ho]
    simp only [Finding.andThen, hclose]

/-! ### Forms -/

/-- The word is recognised where it is written. -/
structure IsHead (w : String) : Prop where
  plain : IsPlainWord w
  solid : IsSolid w.toList
  self : ∀ {r}, Delimited r → keywordLength? w (w.toList ++ r) = some w.toList.length

theorem isHead_of_isWord {w : String} (hw : IsWord w) : IsHead w where
  plain := hw.1
  solid := by
    have hmem : w.toList ∈ wordsOf w.toList := by simp [hw.2]
    rcases hc : w.toList with _ | ⟨c, cs⟩
    · exact absurd hc (ne_nil_of_mem_wordsOf hmem)
    · have hplain := List.all_eq_true.1 hw.1.1 c (by simp [hc])
      have hb := isWideBlank_of_mem_wordsOf hmem (c := c) (by simp [hc])
      refine ⟨c, cs, rfl, ?_, ?_⟩
      · rw [Bool.eq_false_iff]
        intro h
        rw [isWideBlank_of_isBlank h] at hb
        exact Bool.false_ne_true hb.symm
      · constructor <;> rintro rfl <;> exact absurd hplain (by decide)
  self := keywordLength?_self hw

theorem look_word {w : String} (hw : IsHead w) (hr : Delimited r) (levels : Nat) (b : Option Char) :
    ∃ b', look levels (Grammar.word w) ⟨b, w.toList ++ r⟩ = .found ⟨b', r⟩ () := by
  have h : Reads (Grammar.word w) w.toList r (· = ()) :=
    reads_terminal fun b => by simp [Terminal.lexeme?, hw.self hr]
  obtain ht | ⟨b', a, ho, rfl⟩ := h levels b
  · simp [look, Grammar.word, Grammar.denote, Finding.lexeme] at ht
    split at ht <;> simp at ht
  · exact ⟨b', ho⟩

/-- Up to a closing parenthesis, the rule reads the parts with gaps between them. -/
structure ReadsParts (g : Rule α) (gap : List Char) (parts : List (List Char)) (P : α → Prop) :
    Prop where
  isGap : IsGap gap
  solid : ∀ p ∈ parts.head?, IsSolid p
  reads : ∀ r, g.Reads (gap.intercalate parts) (')' :: r) P

namespace ReadsParts

variable {gap p : List Char} {parts : List (List Char)}

theorem mono {P' : α → Prop} (hg : g.ReadsParts gap parts P) (hP : ∀ a, P a → P' a) :
    g.ReadsParts gap parts P' :=
  ⟨hg.isGap, hg.solid, fun r => (hg.reads r).mono hP⟩

theorem map {f : α → β} (hg : g.ReadsParts gap parts P) (hf : ∀ a, P a → Q (f a)) :
    ReadsParts (f <$> g) gap parts Q :=
  ⟨hg.isGap, hg.solid, fun r => (hg.reads r).map hf⟩

theorem separated (hg : g.ReadsParts gap parts P) (r : List Char) :
    Reads (Grammar.separated g) (spread gap parts) (')' :: r) P := by
  have hreads := hg.reads r
  cases parts with
  | nil => exact hreads.separated_close
  | cons p ps =>
    rw [intercalate_cons] at hreads
    rw [spread_cons]
    exact hreads.separated hg.isGap ((hg.solid p rfl).append _)

theorem blanks (hg : g.ReadsParts gap parts P) (r : List Char) :
    Reads (Grammar.blanks *> g) (spread gap parts) (')' :: r) P := by
  have hreads := hg.reads r
  cases parts with
  | nil => exact hreads.behindGap_close
  | cons p ps =>
    rw [intercalate_cons] at hreads
    rw [spread_cons]
    exact hreads.behindGap hg.isGap ((hg.solid p rfl).append _)

/-- A single part. -/
theorem one (hgap : IsGap gap) (hg : g.Recovers p P) : g.ReadsParts gap [p] P where
  isGap := hgap
  solid := by simpa using hg.solid
  reads r := by simpa using hg.reads (.close r)

/-- A part and others. -/
theorem pair (hg : g.Recovers p P) (hh : h.ReadsParts gap parts Q) :
    ReadsParts (Grammar.pair g h) gap (p :: parts) fun ab => P ab.1 ∧ Q ab.2 where
  isGap := hh.isGap
  solid := by simpa using hg.solid
  reads r := by
    rw [intercalate_cons]
    exact .seq (hg.reads (hh.isGap.delimited_spread _ (.close r))) (hh.separated r)

theorem pair_eq {a : α} {b : β} (hg : g.Recovers p (· = a)) (hh : h.ReadsParts gap parts (· = b)) :
    ReadsParts (Grammar.pair g h) gap (p :: parts) (· = (a, b)) :=
  (pair hg hh).mono fun _ h => Prod.ext h.1 h.2

theorem left {h : Rule α} (hg : g.ReadsParts gap parts P) : ReadsParts (g <|> h) gap parts P :=
  ⟨hg.isGap, hg.solid, fun r => (hg.reads r).left⟩

end ReadsParts

variable {gap : List Char} {parts : List (List Char)} {head w : String}

/-- A head and parts, with the parts just behind blanks, whatever follows. -/
theorem reads_headed (hg : g.Recovers head.toList P) (hh : h.ReadsParts gap parts Q)
    (r : List Char) : Reads (Grammar.parens (Grammar.headed g h)) (enclose gap head parts) r
      fun ab => P ab.1 ∧ Q ab.2 := by
  have hr := hh.isGap.delimited_spread parts (.close r)
  have h := Reads.parens (blankLength_of_isSolid ((hg.solid.append _).append _))
    (.seq (hg.reads hr) (hh.blanks r))
  simpa [enclose, Grammar.headed] using h

theorem recovers_headed (hg : g.Recovers head.toList P) (hh : h.ReadsParts gap parts Q) :
    Recovers (Grammar.parens (Grammar.headed g h)) (enclose gap head parts)
      fun ab => P ab.1 ∧ Q ab.2 where
  solid := isSolid_enclose _ _ _
  reads {r} _ := reads_headed hg hh r

/-- A head and parts, separated. -/
theorem recovers_pair (hg : g.Recovers head.toList P) (hh : h.ReadsParts gap parts Q) :
    Recovers (Grammar.parens (Grammar.pair g h)) (enclose gap head parts)
      fun ab => P ab.1 ∧ Q ab.2 where
  solid := isSolid_enclose _ _ _
  reads {r} _ := by
    have hr := hh.isGap.delimited_spread parts (.close r)
    have h := Reads.parens (blankLength_of_isSolid ((hg.solid.append _).append _))
      (.seq (hg.reads hr) (hh.separated r))
    simpa [enclose, Grammar.pair] using h

theorem recovers_headed_eq {a : α} {b : β} (hg : g.Recovers head.toList (· = a))
    (hh : h.ReadsParts gap parts (· = b)) :
    Recovers (Grammar.parens (Grammar.headed g h)) (enclose gap head parts) (· = (a, b)) :=
  (recovers_headed hg hh).mono fun _ h => Prod.ext h.1 h.2

theorem recovers_pair_eq {a : α} {b : β} (hg : g.Recovers head.toList (· = a))
    (hh : h.ReadsParts gap parts (· = b)) :
    Recovers (Grammar.parens (Grammar.pair g h)) (enclose gap head parts) (· = (a, b)) :=
  (recovers_pair hg hh).mono fun _ h => Prod.ext h.1 h.2

/-- A head word and parts. -/
theorem recovers_form (hw : IsHead w) (hg : g.ReadsParts gap parts P) :
    Recovers (Grammar.form w g) (enclose gap w parts) P where
  solid := isSolid_enclose _ _ _
  reads {r} _ := by
    have h : Reads (Grammar.word w *> Grammar.blanks *> g) (w.toList ++ spread gap parts)
        (')' :: r) P := by
      intro levels b
      have hr := hg.isGap.delimited_spread parts (.close r)
      obtain ⟨b', hb'⟩ := look_word hw hr levels b
      have h := hg.blanks r levels b'
      rw [look_seqRight] at h
      rw [look_seqRight, look_seqRight, List.append_assoc, hb']
      exact h
    have h := h.parens (blankLength_of_isSolid ((hw.solid.append _).append _))
    simpa [enclose, Grammar.form] using h

/-- A form is missing where what stands in its parentheses stalls. -/
theorem misses_parens_enclose {gap : List Char} {head : String} {parts : List (List Char)}
    (hh : IsSolid head.toList) (hg : g.Stalls (head.toList ++ (spread gap parts ++ ')' :: r))) :
    Misses (Grammar.parens g) (enclose gap head parts ++ r) := by
  have h := misses_parens_of_stalls (blankLength_of_isSolid (hh.append _)) hg
  simpa [enclose] using h

/-- A form is missing if its head word is. -/
theorem misses_form {w : String} {head : String} (ha : Apart w head.toList = true)
    (hw : IsPlainWord w) (hh : IsSolid head.toList) {gap : List Char} (hgap : IsGap gap)
    (parts : List (List Char)) :
    Misses (Grammar.form w g) (enclose gap head parts ++ r) := by
  have hd : Delimited (spread gap parts ++ (')' :: r)) := hgap.delimited_spread parts (.close r)
  have h : Misses (Grammar.word w *> Grammar.blanks *> g)
      (head.toList ++ (spread gap parts ++ (')' :: r))) := by
    intro levels b
    rw [look_seqRight, look_seqRight]
    exact (misses_word hw ha hd levels b).andThen.andThen
  exact misses_parens_enclose hh h.stalls

/-- A construct with blanks around it takes the blanks that follow it along. -/
theorem Recovers.look_padded {s r : List Char} (hg : g.Recovers s P) (hr : Delimited r) (levels : Nat)
    (b : Option Char) :
    (look levels (Grammar.padded g) ⟨b, s ++ r⟩).Leaves (r.drop (blankLength false r)) P := by
  simp only [Grammar.padded, look_seqLeft, look_seqRight, look_blanks, Finding.andThen,
    View.skipBlanks_of_isSolid (hg.solid.append r)]
  refine (hg.reads hr levels b).andThen fun b' a ha => ?_
  rcases hs : View.skipBlanks ⟨b', r⟩ with ⟨b'', r'⟩
  have hrest := congrArg View.rest hs
  obtain rfl : r.drop (blankLength false r) = r' := by simpa [View.skipBlanks] using hrest
  exact Finding.leaves_found ha

/-! ### Lists -/

/-- In front of the text, a list of such constructs ends. -/
def Stops (g : Rule α) (r : List Char) : Prop :=
  ∀ levels b, (Reader.separated (g.look levels) ⟨b, r⟩).Misses

theorem stops_close (hg : g.Misses (')' :: r)) : g.Stops (')' :: r) := by
  intro levels b
  rw [Reader.separated, View.skipBlanks_close, if_pos (View.separates_close b r)]
  exact hg levels b

variable {ι : Type} {text : ι → List Char} {R : ι → α → Prop} {x : ι} {xs : List ι}

/-- The further elements of a list, each behind a gap. -/
theorem reads_more (hgap : IsGap gap) (hg : ∀ x ∈ xs, g.Recovers (text x) (R x))
    (hr : Delimited r) (hstop : g.Stops r) :
    Reads (.more g) (spread gap (xs.map text)) r fun as => List.Forall₂ R xs as := by
  intro levels
  have hf : (g.look levels).Forward := Grammar.forward_denote (fun n => n.forward_denote levels) g
  show ∀ b, (Reader.more (g.look levels) ⟨b, spread gap (xs.map text) ++ r⟩).Leaves r _
  induction xs with
  | nil =>
    intro b
    rw [Reader.more_eq hf]
    obtain h | h := hstop levels b
    · exact .inl (by simp [Reader.opt, h, Finding.andThen, Finding.orElse])
    · exact .inr ⟨b, [], by simp [Reader.opt, h, Finding.andThen, Finding.orElse], .nil⟩
  | cons x xs ih =>
    intro b
    have hx := hg x (by simp)
    have ih := ih fun y hy => hg y (List.mem_cons_of_mem _ hy)
    have hsolid := hx.solid.append (spread gap (xs.map text) ++ r)
    obtain ⟨b', hb'⟩ := View.exists_skipBlanks_gap hgap hsolid b
    have hsep := View.separates_gap hgap hsolid b
    rw [Reader.more_eq hf, List.map_cons, spread_cons, List.append_assoc, List.append_assoc,
      Reader.opt, Reader.separated, if_pos hsep, hb']
    obtain h | ⟨b'', a, h, ha⟩ := hx.reads (hgap.delimited_spread _ hr) levels b'
    · exact .inl (by rw [h]; rfl)
    · rw [h]
      -- the gap makes the list go on
      have hlen : ¬(spread gap (xs.map text) ++ r).length =
          (gap ++ (text x ++ (spread gap (xs.map text) ++ r))).length := by
        have := List.length_pos_of_ne_nil hgap.1
        simp only [List.length_append]
        omega
      simp only [Finding.andThen, Finding.orElse, if_neg hlen]
      exact (ih b'').andThen fun _ as has => Finding.leaves_found (.cons ha has)

theorem reads_many1 (hgap : IsGap gap) (hg : ∀ y ∈ x :: xs, g.Recovers (text y) (R y))
    (hr : Delimited r) (hstop : g.Stops r) :
    Reads (Grammar.many1 g) (gap.intercalate ((x :: xs).map text)) r
      fun as => List.Forall₂ R (x :: xs) as := by
  have hfirst := (hg x (by simp)).reads (hgap.delimited_spread (xs.map text) hr)
  have hmore := reads_more hgap (fun y hy => hg y (List.mem_cons_of_mem _ hy)) hr hstop
  rw [List.map_cons, intercalate_cons]
  exact (hfirst.seq hmore).map fun _ h => .cons h.1 h.2

theorem reads_many (hgap : IsGap gap) (hg : ∀ x ∈ xs, g.Recovers (text x) (R x))
    (hr : Delimited r) (hmiss : g.Misses r) (hstop : g.Stops r) :
    Reads (Grammar.many g) (gap.intercalate (xs.map text)) r fun as => List.Forall₂ R xs as := by
  have hopt : Reads (.opt (Grammar.many1 g)) (gap.intercalate (xs.map text)) r
      fun as? => List.Forall₂ R xs (as?.getD []) := by
    intro levels b
    show (Reader.opt (look levels (Grammar.many1 g)) _).Leaves _ _
    rcases xs with _ | ⟨x, xs⟩
    · have hmany : (look levels (Grammar.many1 g) ⟨b, r⟩).Misses := by
        rw [Grammar.many1, look_map, look_seq]
        exact (hmiss levels b).andThen.andThen
      obtain h | h := hmany
      · exact .inl (by simp [Reader.opt, h, Finding.andThen, Finding.orElse])
      · exact .inr ⟨b, none, by simp [Reader.opt, h, Finding.andThen, Finding.orElse], .nil⟩
    · refine Finding.Leaves.orElse
        ((reads_many1 hgap hg hr hstop levels b).andThen fun _ as has => ?_)
      exact .inr ⟨_, some as, rfl, has⟩
  exact hopt.map fun _ h => h

theorem readsParts_many (hgap : IsGap gap) (hg : ∀ x ∈ xs, g.Recovers (text x) (R x))
    (hclose : ∀ r, g.Misses (')' :: r)) :
    ReadsParts (Grammar.many g) gap (xs.map text) fun as => List.Forall₂ R xs as where
  isGap := hgap
  solid p hp := by
    rcases xs with _ | ⟨x, xs⟩
    · simp at hp
    · obtain rfl : text x = p := by simpa using hp
      exact (hg x (by simp)).solid
  reads r := reads_many hgap hg (.close r) (hclose r) (stops_close (hclose r))

theorem readsParts_many1 (hgap : IsGap gap) (hg : ∀ x ∈ xs, g.Recovers (text x) (R x))
    (hne : xs ≠ []) (hclose : ∀ r, g.Misses (')' :: r)) :
    ReadsParts (Grammar.many1 g) gap (xs.map text) fun as => List.Forall₂ R xs as where
  isGap := hgap
  solid := (readsParts_many hgap hg hclose).solid
  reads r := by
    obtain ⟨x, xs, rfl⟩ := List.exists_cons_of_ne_nil hne
    exact reads_many1 hgap hg (.close r) (stops_close (hclose r))

theorem eq_of_forall₂ {xs as : List α} (h : List.Forall₂ (fun x a => a = x) xs as) : as = xs := by
  induction h with
  | nil => rfl
  | cons hx _ ih => rw [hx, ih]

theorem readsParts_many_eq {l : List α} {t : α → List Char} (hgap : IsGap gap)
    (hg : ∀ x ∈ l, g.Recovers (t x) (· = x)) (hclose : ∀ r, g.Misses (')' :: r)) :
    ReadsParts (Grammar.many g) gap (l.map t) (· = l) :=
  (readsParts_many hgap hg hclose).mono fun _ => eq_of_forall₂

theorem readsParts_many1_eq {l : List α} {t : α → List Char} (hgap : IsGap gap)
    (hg : ∀ x ∈ l, g.Recovers (t x) (· = x)) (hne : l ≠ []) (hclose : ∀ r, g.Misses (')' :: r)) :
    ReadsParts (Grammar.many1 g) gap (l.map t) (· = l) :=
  (readsParts_many1 hgap hg hne hclose).mono fun _ => eq_of_forall₂

/-! ### Parts that do not fit -/

theorem Stalls.map {f : α → β} (hg : g.Stalls s) : Stalls (f <$> g) s := by
  intro levels b
  rw [look_map]
  rcases hg levels b with h | ⟨v, a, ho, hv⟩
  · exact .inl h.andThen
  · exact .inr ⟨v, f a, by rw [ho]; rfl, hv⟩

/-- Up to a closing parenthesis, the rule does not read the parts. -/
structure StallsAt (g : Rule α) (gap : List Char) (parts : List (List Char)) : Prop where
  isGap : IsGap gap
  solid : ∀ p ∈ parts.head?, IsSolid p
  stalls : ∀ r, g.Stalls (gap.intercalate parts ++ ')' :: r)

/-- Behind blanks, the parts come next. -/
theorem StallsAt.exists_skipBlanks (hg : g.StallsAt gap parts) (b : Option Char) (r : List Char) :
    ∃ b', View.skipBlanks ⟨b, spread gap parts ++ ')' :: r⟩ =
      ⟨b', gap.intercalate parts ++ ')' :: r⟩ := by
  rcases parts with _ | ⟨p, ps⟩
  · exact ⟨b, View.skipBlanks_close b r⟩
  · rw [spread_cons, intercalate_cons, List.append_assoc]
    exact View.exists_skipBlanks_gap hg.isGap (((hg.solid p rfl).append _).append _) b

/-- A form is missing where its parts do not fit. -/
theorem misses_form_of_stallsAt (hw : IsHead w) (hg : g.StallsAt gap parts) :
    Misses (Grammar.form w g) (enclose gap w parts ++ r) := by
  have h : Stalls (Grammar.word w *> Grammar.blanks *> g)
      (w.toList ++ (spread gap parts ++ ')' :: r)) := by
    intro levels b
    obtain ⟨b', hb'⟩ := look_word hw (hg.isGap.delimited_spread parts (.close r)) levels b
    obtain ⟨b'', hb''⟩ := hg.exists_skipBlanks b' r
    rw [look_seqRight, look_seqRight, hb']
    simp only [Finding.andThen, look_blanks, hb'']
    exact hg.stalls r levels b''
  exact misses_parens_enclose hw.solid h

/-- In parentheses, a head and parts that do not fit are missing. -/
theorem misses_headed_of_stallsAt (hg : g.Recovers head.toList P) (hh : h.StallsAt gap parts) :
    Misses (Grammar.parens (Grammar.headed g h)) (enclose gap head parts ++ r) := by
  have hstalls : Stalls (Grammar.headed g h) (head.toList ++ (spread gap parts ++ ')' :: r)) := by
    intro levels b
    rw [Grammar.headed, look_seq]
    obtain ho | ⟨b', a, ho, -⟩ :=
      hg.reads (hh.isGap.delimited_spread parts (.close r)) levels b
    · exact .inl (.inl (by rw [ho]; rfl))
    · obtain ⟨b'', hb''⟩ := hh.exists_skipBlanks b' r
      rw [ho]
      simp only [Finding.andThen, look_seqRight, look_blanks, hb'']
      rcases hh.stalls r levels b'' with hm | ⟨v, c, ho', hv⟩
      · exact .inl hm.andThen
      · exact .inr ⟨v, (a, c), by rw [ho'], hv⟩
  exact misses_parens_enclose hg.solid hstalls

/-! ### Lists that do not fit -/

variable {ι : Type} {text : ι → List Char} {xs : List ι}

/-- Whatever may follow a written construct, the rule finds nothing in front of the text. -/
def MissesText (g : Rule α) (s : List Char) : Prop := ∀ r, Delimited r → g.Misses (s ++ r)

/-- The rule takes exactly the text, and only if the proposition holds, or it finds nothing. -/
def Decides (g : Rule α) (s : List Char) (p : Prop) : Prop :=
  g.Recovers s (fun _ => True) ∧ p ∨ IsSolid s ∧ g.MissesText s

theorem Decides.solid {p : Prop} (h : g.Decides s p) : IsSolid s :=
  h.elim (fun h => h.1.solid) And.left

theorem Decides.look {p : Prop} (h : g.Decides s p) (hr : Delimited r) (levels : Nat)
    (b : Option Char) : (g.look levels ⟨b, s ++ r⟩).Misses ∨
      ¬g.MissesText s ∧ ∃ b' a, g.look levels ⟨b, s ++ r⟩ = .found ⟨b', r⟩ a := by
  rcases h with ⟨h, -⟩ | ⟨-, h⟩
  · obtain ho | ⟨b', a, ho, -⟩ := h.reads hr levels b
    · exact .inl (.inl ho)
    · refine .inr ⟨fun hm => ?_, b', a, ho⟩
      have hm := hm r hr levels b
      rw [ho] at hm
      obtain hm | hm := hm <;> cases hm
  · exact .inl (h r hr levels b)

variable {p : ι → Prop}

/-- A list of which one element is missing does not reach the closing parenthesis. -/
theorem stalls_more (hgap : IsGap gap) (hg : ∀ x ∈ xs, g.Decides (text x) (p x))
    (hx : ∃ x ∈ xs, g.MissesText (text x)) (r : List Char) :
    Stalls (.more g) (spread gap (xs.map text) ++ ')' :: r) := by
  intro levels
  have hf : (g.look levels).Forward := Grammar.forward_denote (fun n => n.forward_denote levels) g
  show ∀ b, (Reader.more (g.look levels) ⟨b, _⟩).Misses ∨
    ∃ v a, Reader.more (g.look levels) ⟨b, _⟩ = .found v a ∧ _
  induction xs with
  | nil => obtain ⟨x, hx, -⟩ := hx; simp at hx
  | cons x xs ih =>
    intro b
    have hsolid := (hg x (by simp)).solid.append (spread gap (xs.map text) ++ ')' :: r)
    obtain ⟨b', hb'⟩ := View.exists_skipBlanks_gap hgap hsolid b
    have hsep := View.separates_gap hgap hsolid b
    rw [Reader.more_eq hf, List.map_cons, spread_cons, List.append_assoc, List.append_assoc,
      Reader.opt, Reader.separated, if_pos hsep, hb']
    obtain (h | h) | ⟨hx', b'', a, h⟩ :=
      (hg x (by simp)).look (hgap.delimited_spread (xs.map text) (.close r)) levels b'
    · exact .inl (.inl (by rw [h]; rfl))
    · rw [h]
      refine .inr ⟨_, _, rfl, ?_⟩
      rw [hb']
      obtain ⟨c, cs, hc, -, -, hne⟩ := hsolid
      simpa [hc] using hne
    · have hlen : ¬(spread gap (xs.map text) ++ ')' :: r).length =
          (gap ++ (text x ++ (spread gap (xs.map text) ++ ')' :: r))).length := by
        have := List.length_pos_of_ne_nil hgap.1
        simp only [List.length_append]
        omega
      -- the missing element comes later
      have hx : ∃ y ∈ xs, g.MissesText (text y) := by simpa [hx'] using hx
      rw [h]
      simp only [Finding.andThen, Finding.orElse, if_neg hlen]
      rcases ih (fun y hy => hg y (List.mem_cons_of_mem _ hy)) hx b'' with hm | ⟨v, as, ho, hv⟩
      · exact .inl hm.andThen
      · exact .inr ⟨v, a :: as, by rw [ho], hv⟩

theorem stallsAt_many (hgap : IsGap gap) (hg : ∀ x ∈ xs, g.Decides (text x) (p x))
    (hx : ∃ x ∈ xs, g.MissesText (text x)) : StallsAt (Grammar.many g) gap (xs.map text) where
  isGap := hgap
  solid p hp := by
    rcases xs with _ | ⟨x, xs⟩
    · simp at hp
    · obtain rfl : text x = p := by simpa using hp
      exact (hg x (by simp)).solid
  stalls r := by
    refine .map fun levels b => ?_
    rcases xs with _ | ⟨x, xs⟩
    · simp at hx
    have hsolid := (hg x (by simp)).solid.append (spread gap (xs.map text) ++ ')' :: r)
    show (Reader.opt (look levels (Grammar.many1 g)) _).Misses ∨
      ∃ v a, Reader.opt (look levels (Grammar.many1 g)) _ = .found v a ∧ _
    rw [List.map_cons, intercalate_cons, List.append_assoc, Reader.opt, Grammar.many1, look_map,
      look_seq]
    obtain (h | h) | ⟨hx', b', a, h⟩ :=
      (hg x (by simp)).look (hgap.delimited_spread (xs.map text) (.close r)) levels b
    · exact .inl (.inl (by rw [h]; rfl))
    · rw [h]
      refine .inr ⟨_, _, rfl, ?_⟩
      rw [View.skipBlanks_of_isSolid hsolid]
      obtain ⟨c, cs, hc, -, -, hne⟩ := hsolid
      simpa [hc] using hne
    · have hx : ∃ y ∈ xs, g.MissesText (text y) := by simpa [hx'] using hx
      rw [h]
      rcases stalls_more hgap (fun y hy => hg y (List.mem_cons_of_mem _ hy)) hx r levels b' with
        (hm | hm) | ⟨v, as, ho, hv⟩
      · exact .inl (.inl (by simp only [Finding.andThen, hm]; rfl))
      · refine .inr ⟨_, _, by simp only [Finding.andThen, hm]; rfl, ?_⟩
        rw [View.skipBlanks_of_isSolid hsolid]
        obtain ⟨c, cs, hc, -, -, hne⟩ := hsolid
        simpa [hc] using hne
      · exact .inr ⟨v, some (a :: as), by simp only [Finding.andThen, ho]; rfl, hv⟩

/-- A list of which the first element is missing does not reach the closing parenthesis. -/
theorem stallsAt_many_of_missesText {p : List Char} (hgap : IsGap gap) (hp : IsSolid p)
    (hg : g.MissesText p) (ps : List (List Char)) : StallsAt (Grammar.many g) gap (p :: ps) where
  isGap := hgap
  solid := by simpa using hp
  stalls r := by
    rw [intercalate_cons, List.append_assoc]
    have hsolid := hp.append (spread gap ps ++ ')' :: r)
    refine .map fun levels b => ?_
    have hmany1 : (look levels (Grammar.many1 g) ⟨b, p ++ (spread gap ps ++ ')' :: r)⟩).Misses := by
      rw [Grammar.many1, look_map, look_seq]
      exact (hg _ (hgap.delimited_spread ps (.close r)) levels b).andThen.andThen
    show (Reader.opt (look levels (Grammar.many1 g)) _).Misses ∨
      ∃ v a, Reader.opt (look levels (Grammar.many1 g)) _ = .found v a ∧ _
    rw [Reader.opt]
    obtain h | h := hmany1
    · exact .inl (.inl (by rw [h]; rfl))
    · refine .inr ⟨_, _, by rw [h]; rfl, ?_⟩
      rw [View.skipBlanks_of_isSolid hsolid]
      obtain ⟨c, cs, hc, -, -, hne⟩ := hsolid
      simpa [hc] using hne

/-! ### Pairs that do not fit -/

theorem Misses.pair (hg : g.Misses s) : Misses (Grammar.pair g h) s := fun levels b =>
  (hg levels b).andThen

theorem stallsAt_nil (hgap : IsGap gap) (hclose : ∀ r, g.Misses (')' :: r)) :
    StallsAt g gap [] where
  isGap := hgap
  solid := by simp
  stalls r := (hclose r).stalls

theorem stallsAt_of_missesText {p : List Char} (hgap : IsGap gap) (hp : IsSolid p)
    (hg : g.MissesText p) (ps : List (List Char)) : StallsAt g gap (p :: ps) where
  isGap := hgap
  solid := by simpa using hp
  stalls r := by
    rw [intercalate_cons, List.append_assoc]
    exact (hg _ (hgap.delimited_spread ps (.close r))).stalls

/-- A rule that reads one part does not read two. -/
theorem stallsAt_long {p q : List Char} {c : Prop} (hgap : IsGap gap) (hg : g.Decides p c)
    (hq : IsSolid q) (qs : List (List Char)) : StallsAt g gap (p :: q :: qs) where
  isGap := hgap
  solid := by simpa using hg.solid
  stalls r levels b := by
    have hd := hgap.delimited_spread (q :: qs) (.close r)
    rw [intercalate_cons, List.append_assoc]
    rcases hg.look hd levels b with hm | ⟨-, b', a, ho⟩
    · exact .inl hm
    · refine .inr ⟨_, a, ho, ?_⟩
      have hsolid : IsSolid ((q ++ spread gap qs) ++ ')' :: r) := (hq.append _).append _
      obtain ⟨b'', hb''⟩ := View.exists_skipBlanks_gap hgap hsolid b'
      rw [spread_cons, List.append_assoc, hb'']
      obtain ⟨c, cs, hc, -, -, hne⟩ := hsolid
      simpa [hc] using hne

theorem stallsAt_pair {p : List Char} {ps : List (List Char)} {c : Prop} (hg : g.Decides p c)
    (hh : h.StallsAt gap ps) : StallsAt (Grammar.pair g h) gap (p :: ps) where
  isGap := hh.isGap
  solid := by simpa using hg.solid
  stalls r levels b := by
    have hd := hh.isGap.delimited_spread ps (.close r)
    rw [intercalate_cons, List.append_assoc, Grammar.pair, look_seq]
    rcases hg.look hd levels b with hm | ⟨-, b', a, ho⟩
    · exact .inl hm.andThen
    · -- behind the first part and a gap, the others stall
      have hsep : ∃ b'', look levels (Grammar.separated h) ⟨b', spread gap ps ++ ')' :: r⟩ =
          h.look levels ⟨b'', gap.intercalate ps ++ ')' :: r⟩ := by
        rcases ps with _ | ⟨q, qs⟩
        · exact ⟨b', look_separated_close levels b' r⟩
        · have hsolid := ((hh.solid q rfl).append (spread gap qs)).append (')' :: r)
          obtain ⟨b'', hb''⟩ := look_separated_gap (h := h) hh.isGap hsolid levels b'
          exact ⟨b'', by simpa [intercalate_cons] using hb''⟩
      obtain ⟨b'', hb''⟩ := hsep
      rw [ho]
      simp only [Finding.andThen, hb'']
      rcases hh.stalls r levels b'' with hm | ⟨v, c, ho', hv⟩
      · exact .inl hm.andThen
      · exact .inr ⟨v, (a, c), by rw [ho'], hv⟩

end Rule

end Pddl
