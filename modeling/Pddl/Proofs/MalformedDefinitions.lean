import Pddl.Proofs.Assembly
import Pddl.Proofs.Confined
import Pddl.Proofs.Pending

/-!
# Reports of malformed definitions

Behind the definitions of a domain, the list of them tries one more.  If that one is malformed, the
list ends in front of it and remembers the mismatch, which is reported where the last parenthesis is
not there.  What was remembered before lies in the sections and definitions in front, so it neither
hides the mismatch nor is preferred to it.

* `Rule.parse_seq`, `Rule.parse_form_unclosed`, … : parsing one construct behind another.
* `Rule.MovesOn` : a rule goes on from its place and fails beyond it.
* `Part.parse_of_rest` : a part of a text is read, and nothing behind it is remembered.
* `DamagedDomain` : a domain that goes on with what is no definition.
* `AtParts`, `AtMismatch` : places in front of some parts and in front of the malformed definition.
* `AtParts.parse_section`, `AtParts.parse_definitions` : the sections and the definitions.
* `Rule.parse_damaged_domain` : **a malformed definition is reported as it is by itself.**
-/

namespace Pddl

/-! ### One construct behind another -/

namespace Cursor.Follows

variable {o c : Cursor} {n : Nat}

theorem advance (h : o.Follows c) (hn : n ≤ c.rest.length) : o.Follows (c.advance n) :=
  h.trans (follows_advance h.calm hn)

theorem advance_open (h : o.Follows c) (hopen : c.rest.head? = some '(') :
    o.Follows (c.advance 1) := by
  obtain ⟨s, hs⟩ := List.head?_eq_some_iff.1 hopen
  exact h.advance (by simp [hs])

theorem skipBlanks (h : o.Follows c) : o.Follows c.skipBlanks := h.trans (follows_skipBlanks h.calm)

theorem recovered (h : o.Follows c) {m : Mismatch} (hm : m.committed = false) :
    o.Follows (c.recovered m) := h.trans (follows_recovered h.calm hm).1

end Cursor.Follows

@[simp] theorem Cursor.furthest_advance (c : Cursor) (n : Nat) :
    (c.advance n).furthest = c.furthest := by
  cases n <;> rfl

@[simp] theorem Cursor.furthest_skipBlanks (c : Cursor) : c.skipBlanks.furthest = c.furthest :=
  c.furthest_advance _

theorem Cursor.offset_le_skipBlanks (c : Cursor) : c.offset ≤ c.skipBlanks.offset :=
  (leadsTo_advance (blankLength_le false c.rest)).offset_le

/-- Behind its parenthesis and the blanks there, a form goes on. -/
theorem Cursor.view_inside {c : Cursor} (h : c.rest.head? = some '(') :
    (c.advance 1).skipBlanks.view = c.view.inside := by
  obtain ⟨s, hs⟩ := List.head?_eq_some_iff.1 h
  rw [view_skipBlanks, view_advance, view, hs]
  rfl

theorem Cursor.furthest_recovered (c : Cursor) (m : Mismatch) :
    (c.recovered m).furthest = c.furthest ∨ (c.recovered m).furthest = some m := by
  unfold recovered
  split
  · exact .inl rfl
  · split
    · split
      · exact .inl rfl
      · exact .inr rfl
    · exact .inr rfl

/-- Of two mismatches, the one further on is remembered. -/
theorem Cursor.furthest_recovered_of_lt {c : Cursor} {m : Mismatch} (hc : c.offset < m.offset)
    (h : ∀ k, c.furthest = some k → k.offset < m.offset) : (c.recovered m).furthest = some m := by
  rw [recovered, if_neg (Nat.not_le.2 hc)]
  split
  · rename_i k hk
    rw [if_neg (Nat.not_le.2 (h k hk))]
  · rfl

namespace Rule

open Grammar

variable {α β : Type} {g : Rule α} {h : Rule β} {o c d d' : Cursor} {a : α} {b : β}

theorem parse_map (f : α → β) (c : Cursor) :
    Rule.parse (f <$> g) c = (g.parse c).map fun r => (r.1, f r.2) := by
  show Parser.refine (fun a => .ok (f a)) g.parse c = _
  unfold Parser.refine
  rcases g.parse c with e | ⟨d, a⟩ <;> rfl

theorem parse_map_error {f : α → β} {e : Failure} (h : g.parse c = .error e) :
    Rule.parse (f <$> g) c = .error e := by
  rw [parse_map, h]
  rfl

theorem parse_seq (hc : o.Follows c) (hd : o.Follows d) (hg : g.parse c = .ok (d, a)) :
    Rule.parse (.seq g h) c = (h.parse d).map fun r => (r.1, (a, r.2)) := by
  have hlevels : h.run (Nonterminal.parse (c.ceiling - c.depth)) d = h.parse d := by
    rw [hc.levels, ← hd.levels]
    rfl
  show Parser.seq g.parse _ c = _
  simp only [Parser.seq, hg, hlevels]
  rcases h.parse d with e | ⟨d', b⟩ <;> rfl

theorem parse_seq_error {e : Failure} (hg : g.parse c = .error e) :
    Rule.parse (.seq g h) c = .error e := by
  unfold Rule.parse at hg ⊢
  exact Parser.seq_eq_error.2 (.inl hg)

theorem parse_seq_ok (hc : o.Follows c) (hd : o.Follows d) (hg : g.parse c = .ok (d, a))
    (hh : h.parse d = .ok (d', b)) : Rule.parse (.seq g h) c = .ok (d', (a, b)) := by
  rw [parse_seq hc hd hg, hh]
  rfl

theorem parse_seqRight (hc : o.Follows c) (hd : o.Follows d) (hg : g.parse c = .ok (d, a)) :
    Rule.parse (g *> h) c = h.parse d := by
  show Rule.parse (Prod.snd <$> .seq g h) c = _
  rw [parse_map, parse_seq hc hd hg]
  rcases h.parse d with e | ⟨d', b⟩ <;> rfl

theorem parse_seqLeft (hc : o.Follows c) (hd : o.Follows d) (hg : g.parse c = .ok (d, a)) :
    Rule.parse (g <* h) c = (h.parse d).map fun r => (r.1, a) := by
  show Rule.parse (Prod.fst <$> .seq g h) c = _
  rw [parse_map, parse_seq hc hd hg]
  rcases h.parse d with e | ⟨d', b⟩ <;> rfl

theorem parse_blanks (c : Cursor) : Rule.parse blanks c = .ok (c.skipBlanks, ()) := rfl

theorem parse_terminal {t : Terminal α} {n : Nat} (h : t.lexeme? c.view = some (n, a)) :
    Rule.parse (.terminal t) c = .ok (c.advance n, a) :=
  show t.parse c = _ from Parser.terminal_eq_ok.2 ⟨n, h, rfl⟩

theorem parse_word {x : String} {n : Nat} (h : keywordLength? x c.rest = some n) :
    Rule.parse (word x) c = .ok (c.advance n, ()) := by
  refine parse_terminal (t := .word x) ?_
  show (keywordLength? x c.rest).map _ = _
  rw [h]
  rfl

theorem parse_separated (hc : o.Follows c) (hv : c.view.separates = true) :
    Rule.parse (separated g) c = g.parse c.skipBlanks :=
  parse_seqRight hc hc.skipBlanks (parse_terminal (if_pos hv))

theorem parse_padded (hc : o.Follows c) (hd : o.Follows d)
    (hg : g.parse c.skipBlanks = .ok (d, a)) :
    Rule.parse (padded g) c = .ok (d.skipBlanks, a) := by
  rw [padded, parse_seqLeft hc hd ((parse_seqRight hc hc.skipBlanks (parse_blanks c)).trans hg),
    parse_blanks]
  rfl

theorem parse_padded_error {e : Failure} (hc : o.Follows c) (hg : g.parse c.skipBlanks = .error e) :
    Rule.parse (padded g) c = .error e := by
  have hbehind : Rule.parse (blanks *> g) c = .error e :=
    (parse_seqRight hc hc.skipBlanks (parse_blanks c)).trans hg
  exact parse_map_error (parse_seq_error hbehind)

/-- A form whose last parenthesis is not there. -/
theorem parse_form_unclosed {x : String} {n : Nat} (hc : o.Follows c) (hd : o.Follows d)
    (hopen : c.rest.head? = some '(') (hx : keywordLength? x c.view.inside.rest = some n)
    (hg : g.parse ((c.advance 1).skipBlanks.advance n).skipBlanks = .ok (d, a))
    (hclose : d.skipBlanks.rest.head? ≠ some ')') :
    Rule.parse (form x g) c = .error (.mismatch (d.skipBlanks.mismatch (.word ")"))) := by
  rw [← Cursor.view_inside hopen] at hx
  have hinside : o.Follows (c.advance 1) := hc.advance_open hopen
  have hword := hinside.skipBlanks.advance (keywordLength?_le hx)
  have hhead : Rule.parse (word x *> blanks) (c.advance 1).skipBlanks =
      .ok (((c.advance 1).skipBlanks.advance n).skipBlanks, ()) := by
    rw [parse_seqRight hinside.skipBlanks hword (parse_word hx), parse_blanks]
  have hbody : Rule.parse (.terminal (.char '(') *> padded (word x *> blanks *> g)) c =
      .ok (d.skipBlanks, a) := by
    rw [parse_seqRight hc hinside (parse_terminal (t := .char '(') (if_pos hopen))]
    exact parse_padded hinside hd
      ((parse_seqRight hinside.skipBlanks hword.skipBlanks hhead).trans hg)
  rw [form, parens, parse_seqLeft hc hd.skipBlanks hbody]
  have hmissing : (Terminal.char ')').parse d.skipBlanks =
      .error (.mismatch (d.skipBlanks.mismatch (.word ")"))) := by
    simp only [Terminal.parse, Cursor.taken?, hclose]
    rfl
  show Except.map _ ((Terminal.char ')').parse d.skipBlanks) = _
  rw [hmissing]
  rfl

end Rule

/-! ### Mismatches behind the parenthesis -/

theorem Parser.separated_of_separates {α : Type} {p : Parser α} {c : Cursor}
    (h : c.view.separates = true) : separated p c = p c.skipBlanks := by
  rw [separated, Cursor.separated?_eq, if_pos h]

/-- Parsers go on, and mismatches lie no nearer than where the parser began. -/
def Invariant.onward : Invariant where
  step c d := c.offset ≤ d.offset
  fails c e := ∀ m, e = .mismatch m → c.offset ≤ m.offset
  trans := Nat.le_trans
  advance h := (Cursor.leadsTo_advance h).offset_le
  recovered _ := (Cursor.leadsTo_recovered _ _).offset_le
  nested h := h
  behind h k m hm := Nat.le_trans h (k m hm)
  inside h := h
  mismatch {c x} m hm := Failure.mismatch.inj hm ▸ (c.reaches_mismatch x).1
  complaint {c} x m hm := by
    cases x with
    | unmet x => exact Failure.mismatch.inj hm ▸ (c.reaches_mismatch x).1
    | unknownRequirement => exact Failure.mismatch.inj hm ▸ Nat.le_refl c.offset
    | infiniteNumber => cases hm
  tooDeep m hm := by cases hm

namespace Rule

open Grammar

variable {α β : Type} {g g' : Rule α} {c : Cursor}

/-- From the cursor, the rule goes on beyond its place; where it fails, the mismatch lies beyond. -/
structure MovesOn (g : Rule α) (c : Cursor) : Prop where
  found : ∀ {d a}, g.parse c = .ok (d, a) → c.offset < d.offset
  failed : ∀ {m}, g.parse c = .error (.mismatch m) → c.offset < m.offset

theorem movesOn_char {x : Char} (h : c.rest.head? = some x) : MovesOn (.terminal (.char x)) c := by
  have hx : Rule.parse (.terminal (.char x)) c = .ok (c.advance 1, ()) :=
    parse_terminal (t := .char x) (if_pos h)
  constructor
  · intro d a hd
    obtain ⟨rfl, -⟩ := Prod.mk.inj (Except.ok.inj (hx.symm.trans hd))
    exact Nat.lt_succ_self c.offset
  · intro m hm
    cases hx.symm.trans hm

theorem MovesOn.seq (hg : g.MovesOn c) (h : Rule β) : MovesOn (.seq g h) c := by
  have hh := Grammar.keeps_run (fun n => n.keeps_parse .onward (c.ceiling - c.depth)) h
  constructor
  · intro d a hd
    obtain ⟨u, hu, hd⟩ := Parser.seq_eq_ok.1 hd
    exact (hg.found hu).trans_le (hh.found hd)
  · intro m hm
    obtain hm | ⟨u, a, hu, hm⟩ := Parser.seq_eq_error.1 hm
    · exact hg.failed hm
    · exact (hg.found hu).trans_le (hh.failed hm _ rfl)

theorem MovesOn.map (f : α → β) (hg : g.MovesOn c) : MovesOn (f <$> g) c where
  found h := by
    rw [parse_map] at h
    rcases hp : g.parse c with e | ⟨d, a⟩
    · simp [hp, Except.map] at h
    · rw [hp] at h
      obtain ⟨rfl, -⟩ := Prod.mk.inj (Except.ok.inj h)
      exact hg.found hp
  failed h := by
    rw [parse_map] at h
    rcases hp : g.parse c with e | ⟨d, a⟩
    · rw [hp] at h
      obtain rfl := Except.error.inj h
      exact hg.failed hp
    · simp [hp, Except.map] at h

theorem MovesOn.orElse (hg : g.MovesOn c) (hg' : g'.MovesOn c) : MovesOn (g <|> g') c where
  found hd := by
    obtain hd | ⟨m, -, -, hd⟩ := Parser.orElse_eq_ok.1 hd
    · exact hg.found hd
    · exact hg'.found hd
  failed hm := (Parser.orElse_eq_error hm).elim hg.failed hg'.failed

/-- No mismatch is final where no flag is checked. -/
theorem committed_of_flagFree (hg : g.FlagFree) (hc : c.Calm) {m : Mismatch}
    (h : g.parse c = .error (.mismatch m)) : m.committed = false := by
  obtain ⟨e, he, hfinding⟩ | ⟨d, a, hd, -⟩ :=
    (parse_agrees (Grammar.settled_of_flagFree hg) hc).cases
  · obtain rfl := Except.error.inj (h.symm.trans he)
    by_contra hm
    rw [Failure.finding, if_pos (by simpa using hm)] at hfinding
    exact Grammar.flagless_denote (fun n => n.flagless_denote (c.ceiling - c.depth)) g hg c.view
      hfinding
  · cases h.symm.trans hd

/-- Where its parenthesis is there, a form moves on. -/
theorem movesOn_form (x : String) (g : Rule α) (h : c.rest.head? = some '(') :
    MovesOn (form x g) c :=
  ((((movesOn_char h).seq (padded (word x *> blanks *> g))).map Prod.snd).seq
    (.terminal (.char ')'))).map Prod.fst

/-- Where its parenthesis is there, a definition moves on. -/
theorem movesOn_definition (h : c.rest.head? = some '(') : definition.MovesOn c :=
  (((movesOn_form ":action" _ h).map _).map _).orElse
    ((((movesOn_form ":durative-action" _ h).map _).map _).orElse
      (((movesOn_form ":derived" _ h).map _).map _))

end Rule

/-! ### Parts in a text -/

variable {ceiling : Nat}

namespace Part

variable {α : Type} {g : Rule α} {text y : List Char} {c : Cursor}

/-- Where a part begins, it is what is left to read in front of what stands behind it. -/
theorem stands (hg : g.IsEnclosed) (p : Part g ceiling)
    (hfollows : (Cursor.ofText text ceiling).Follows c) (hrest : c.rest = p.text ++ y)
    (hremembers : ∀ m, c.furthest = some m → m.offset + y.length ≤ text.length) :
    c.Stands 0 .before y := by
  have hlook := p.look_text hg
  obtain ⟨x, hx, hspans, -⟩ :=
    (Rule.covers_of_look hg.next hlook).exists_span (Rule.head?_of_opens hg.opens hlook)
  obtain rfl : p.text = x := by simpa using hx
  refine ⟨⟨p.text, hspans, hrest, hrest, .inl rfl⟩, ?_, fun m hm => ?_⟩
  · rw [hfollows.offset, hfollows.text]
    exact Nat.zero_add _
  · rw [hfollows.text]
    exact hremembers m hm

/-- A part is read, and nothing behind it is remembered. -/
theorem parse_of_rest (hg : g.IsEnclosed) (p : Part g ceiling)
    (hfollows : (Cursor.ofText text ceiling).Follows c) (hrest : c.rest = p.text ++ y)
    (hremembers : ∀ m, c.furthest = some m → m.offset + y.length ≤ text.length) :
    ∃ d, g.parse c = .ok (d, p.value) ∧ (Cursor.ofText text ceiling).Follows d ∧
      d.view = ⟨some ')', y⟩ ∧ c.offset < d.offset ∧
      ∀ m, d.furthest = some m → m.offset + y.length ≤ text.length := by
  have hlook : g.look (c.ceiling - c.depth) c.view = .found ⟨some ')', y⟩ p.value := by
    rw [hfollows.levels]
    exact p.look hg hrest
  obtain ⟨d, hd, hd', hview⟩ := Rule.parse_of_look hg.settled hfollows.calm hlook
  obtain ⟨htext, hstands⟩ :=
    (Rule.confined_parse hg.next).found (p.stands hg hfollows hrest hremembers) hd
  refine ⟨d, hd, hfollows.trans hd', hview, ?_, fun m hm => ?_⟩
  · have hlt : d.rest.length < c.rest.length := Rule.length_lt_of_look hg.next
      (hview ▸ hlook) (Rule.head?_of_opens hg.opens hlook)
    have hoffset := hd'.offset
    omega
  · have hle := hstands.remembers m hm
    rwa [htext, hfollows.text] at hle

end Part

/-! ### A domain that ends in a malformed definition -/

/-- A domain with at least one definition, which goes on with something in parentheses. -/
structure DamagedDomain (ceiling : Nat) where
  /-- The beginning with the name. -/
  opening : Opening (Grammar.form "domain" (Grammar.symbol .name)) ceiling
  /-- The sections and definitions. -/
  parts : List (DomainPart ceiling)
  inOrder : InOrder parts
  hasDefinition : ∃ s ∈ parts, s.place = 8
  /-- The spacing behind them. -/
  gap : Spacing
  /-- What comes then. -/
  rest : List Char
  opens : rest.head? = some '('

namespace DamagedDomain

variable (t : DamagedDomain ceiling)

/-- The characters in front of what comes behind the definitions. -/
def front : List Char := t.opening.chars ++ (t.parts.flatMap DomainPart.chars ++ t.gap.chars)

/-- The characters. -/
def chars : List Char := t.front ++ t.rest

end DamagedDomain

/-- What stands behind the first of some parts. -/
def behindFirst (gap : Spacing) (r : List Char) : List (DomainPart ceiling) → List Char
  | [] => r
  | _ :: ss => ss.flatMap DomainPart.chars ++ (gap.chars ++ r)

/-- The parts as they stand ahead, then what comes behind them. -/
def facing (gap : Spacing) (r : List Char) : List (DomainPart ceiling) → List Char
  | [] => r
  | s :: ss => s.part.text ++ behindFirst gap r (s :: ss)

theorem length_le_facing (gap : Spacing) (r : List Char) (ss : List (DomainPart ceiling)) :
    ss.length ≤ (facing gap r ss).length := by
  have htext (s : DomainPart ceiling) : 1 ≤ s.part.text.length := by
    obtain ⟨t, ht⟩ := s.part.exists_text s.kind.isEnclosed_rule
    simp [ht]
  have hchars (ss : List (DomainPart ceiling)) : ss.length ≤ (ss.flatMap DomainPart.chars).length := by
    induction ss with
    | nil => exact Nat.le_refl _
    | cons s ss ih =>
      have hs := htext s
      simp only [List.length_cons, List.flatMap_cons, DomainPart.chars, List.length_append]
      omega
  rcases ss with _ | ⟨s, ss⟩
  · exact Nat.zero_le _
  · have hs := htext s
    have hss := hchars ss
    simp only [facing, behindFirst, List.length_cons, List.length_append]
    omega

theorem faces_facing (gap : Spacing) {r : List Char} (hr : r.head? = some '(')
    (ss : List (DomainPart ceiling)) :
    View.Faces ⟨some ')', ss.flatMap DomainPart.chars ++ (gap.chars ++ r)⟩ (facing gap r ss) := by
  rcases ss with _ | ⟨s, ss⟩
  · exact View.faces_close _ (.inl hr)
  · rw [List.flatMap_cons, DomainPart.chars, List.append_assoc, List.append_assoc]
    exact View.faces_close _ (s.part.atParenthesis s.kind.isEnclosed_rule _)

/-- The cursor is in front of some parts of a text, and remembers nothing behind the first of
them. -/
structure AtParts (text : List Char) (gap : Spacing) (r : List Char)
    (ss : List (DomainPart ceiling)) (c : Cursor) : Prop where
  follows : (Cursor.ofText text ceiling).Follows c
  faces : c.view.Faces (facing gap r ss)
  remembers : ∀ m, c.furthest = some m → m.offset + (behindFirst gap r ss).length ≤ text.length

namespace AtParts

variable {text r : List Char} {gap : Spacing} {s : DomainPart ceiling}
  {ss : List (DomainPart ceiling)} {c : Cursor}

theorem rest_skipBlanks (h : AtParts text gap r ss c) : c.skipBlanks.rest = facing gap r ss := by
  show c.skipBlanks.view.rest = _
  rw [Cursor.view_skipBlanks, h.faces.rest]

theorem skipBlanks (h : AtParts text gap r ss c) : AtParts text gap r ss c.skipBlanks where
  follows := h.follows.skipBlanks
  faces := c.view_skipBlanks ▸ h.faces.skipBlanks
  remembers m hm := h.remembers m (c.furthest_skipBlanks ▸ hm)

/-- Behind a parenthesis, the next parts stand. -/
theorem of_close {d : Cursor} (hr : r.head? = some '(')
    (hfollows : (Cursor.ofText text ceiling).Follows d)
    (hview : d.view = ⟨some ')', ss.flatMap DomainPart.chars ++ (gap.chars ++ r)⟩)
    (hremembers : ∀ m, d.furthest = some m →
      m.offset + (ss.flatMap DomainPart.chars ++ (gap.chars ++ r)).length ≤ text.length) :
    AtParts text gap r ss d where
  follows := hfollows
  faces := hview ▸ faces_facing gap hr ss
  remembers m hm := by
    refine (Nat.add_le_add_left ?_ _).trans (hremembers m hm)
    cases ss <;> simp only [behindFirst, List.flatMap_cons, List.length_append] <;> omega

/-- The first part is read. -/
theorem parse_first (hr : r.head? = some '(') (h : AtParts text gap r (s :: ss) c) :
    ∃ d, s.kind.rule.parse c.skipBlanks = .ok (d, s.part.value) ∧ AtParts text gap r ss d ∧
      c.offset < d.offset := by
  obtain ⟨d, hd, hfollows, hview, hlt, hremembers⟩ := s.part.parse_of_rest s.kind.isEnclosed_rule
    h.follows.skipBlanks h.rest_skipBlanks h.skipBlanks.remembers
  exact ⟨d, hd, .of_close hr hfollows hview hremembers, c.offset_le_skipBlanks.trans_lt hlt⟩

/-- A section of another sort is not read, and the mismatch lies in the first part. -/
theorem parse_missing {α : Type} {k : SectionKind α} (hk : s.place ≠ k.place)
    (h : AtParts text gap r (s :: ss) c) :
    ∃ m, k.rule.parse c.skipBlanks = .error (.mismatch m) ∧ m.committed = false ∧
      m.offset + (behindFirst gap r (s :: ss)).length ≤ text.length := by
  have hrule := k.isEnclosed_rule
  have hfollows := h.follows.skipBlanks
  have hlook : k.rule.look (c.skipBlanks.ceiling - c.skipBlanks.depth) c.skipBlanks.view =
      .missing := by
    rw [hfollows.levels]
    exact Rule.look_part_missing h.rest_skipBlanks hk
  obtain ⟨m, hm, hcommitted⟩ := Rule.parse_of_look_missing hrule.settled hfollows.calm hlook
  refine ⟨m, hm, hcommitted, ?_⟩
  have hle := (Rule.confined_parse hrule.next).failed (s.part.stands s.kind.isEnclosed_rule hfollows
    h.rest_skipBlanks h.skipBlanks.remembers) hm
  rwa [hfollows.text] at hle

theorem recovered (h : AtParts text gap r ss c) {m : Mismatch} (hm : m.committed = false)
    (hle : m.offset + (behindFirst gap r ss).length ≤ text.length) :
    AtParts text gap r ss (c.recovered m) where
  follows := h.follows.recovered hm
  faces := by
    rw [(Cursor.follows_recovered h.follows.calm hm).2]
    exact h.faces
  remembers k hk := by
    obtain heq | heq := c.furthest_recovered m
    · exact h.remembers k (heq ▸ hk)
    · obtain rfl := Option.some.inj (heq.symm.trans hk)
      exact hle

/-- A section is read if it is the first part, and left out otherwise. -/
theorem parse_section {α : Type} (k : SectionKind α) (hr : r.head? = some '(')
    (h : AtParts text gap r (s :: ss) c) :
    ∃ d x, Rule.parse (Grammar.optional k.rule) c = .ok (d, x) ∧
      AtParts text gap r (behind k.place (s :: ss)) d := by
  by_cases hk : s.place = k.place
  · obtain ⟨gap', p, rfl, -⟩ := DomainPart.exists_of_place hk
    obtain ⟨d, hd, hparts, -⟩ := h.parse_first hr
    refine ⟨d, some p.value, ?_, by rwa [behind, if_pos hk]⟩
    exact Parser.opt_eq_ok.2
      (.inl ⟨p.value, (Rule.parse_separated h.follows h.faces.separates).trans hd, rfl⟩)
  · obtain ⟨m, hm, hcommitted, hle⟩ := h.parse_missing hk
    refine ⟨c.recovered m, none, ?_, ?_⟩
    · exact Parser.opt_eq_ok.2 (.inr
        ⟨m, (Rule.parse_separated h.follows h.faces.separates).trans hm, hcommitted, rfl, rfl⟩)
    · rw [behind, if_neg hk]
      exact h.recovered hcommitted hle

end AtParts

/-! ### The malformed definition -/

/-- The cursor is in front of a malformed definition, and whatever is expected there instead, its
mismatch is reported. -/
structure AtMismatch (ceiling : Nat) (text : List Char) (m : Mismatch) (c : Cursor) : Prop where
  follows : (Cursor.ofText text ceiling).Follows c
  opens : c.skipBlanks.rest.head? = some '('
  reports : ∀ x, c.skipBlanks.mismatch x = m

section Malformed

variable {text r : List Char} {gap : Spacing} {s : DomainPart ceiling}
  {ss : List (DomainPart ceiling)} {c : Cursor} {p : Nat} {m : Mismatch}

theorem AtParts.separated_definition (h : AtParts text gap r ss c) :
    Parser.separated (Grammar.run (Nonterminal.parse ceiling) Rule.definition) c =
      Rule.definition.parse c.skipBlanks := by
  rw [Parser.separated_of_separates h.faces.separates, Rule.parse, h.follows.skipBlanks.levels]
  rfl

theorem offset_skipBlanks_of_rest (hfollows : (Cursor.ofText text ceiling).Follows c)
    (hrest : c.skipBlanks.rest = r) (hp : p + r.length = text.length) : c.skipBlanks.offset = p := by
  have hplace := hfollows.skipBlanks.offset
  rw [hrest] at hplace
  exact Nat.add_right_cancel (hplace.trans ((Nat.zero_add _).trans hp.symm))

variable (hp : p + r.length = text.length)
  (hm : Rule.definition.parse (Cursor.ofOffset text p 0 ceiling) = .error (.mismatch m))

include hp hm

/-- Behind the definitions, the malformed one is parsed as it is by itself. -/
theorem AtParts.parse_definition (h : AtParts text gap r ([] : List (DomainPart ceiling)) c) :
    Rule.definition.parse c.skipBlanks = .error (.mismatch m) := by
  have hfollows := h.follows.skipBlanks
  have hoffset := offset_skipBlanks_of_rest h.follows h.rest_skipBlanks hp
  -- what is remembered lies up to here, so it makes no difference
  have hresembles := Cursor.resembles_ofOffset (c := c.skipBlanks) fun m hm => by
    have hle := h.skipBlanks.remembers m hm
    rw [hoffset]
    exact Nat.le_of_add_le_add_right (hle.trans hp.ge)
  rw [hfollows.text, hfollows.depth, hfollows.ceiling, hoffset] at hresembles
  obtain ⟨e, he, he'⟩ | ⟨d, d', a, hd, hd', -⟩ := Rule.definition.parse_resembles hresembles
  · rw [he, ← he']
    exact hm
  · cases hm.symm.trans hd'

/-- Behind the definitions, the mismatch of the malformed one is remembered. -/
theorem AtParts.atMismatch (hr : r.head? = some '(')
    (h : AtParts text gap r ([] : List (DomainPart ceiling)) c) :
    m.committed = false ∧ AtMismatch ceiling text m (c.recovered m) := by
  have hparse := h.parse_definition hp hm
  have hopens : c.skipBlanks.rest.head? = some '(' := by rw [h.rest_skipBlanks]; exact hr
  have hlt := (Rule.movesOn_definition hopens).failed hparse
  have hcommitted :=
    Rule.committed_of_flagFree Rule.flagFree_definition h.follows.skipBlanks.calm hparse
  have hfollows := h.follows.recovered hcommitted
  have hrest : (c.recovered m).skipBlanks.rest = r := by
    show (c.recovered m).skipBlanks.view.rest = r
    rw [Cursor.view_skipBlanks, (Cursor.follows_recovered h.follows.calm hcommitted).2]
    exact h.faces.rest
  have hoffset := offset_skipBlanks_of_rest h.follows h.rest_skipBlanks hp
  have hfurthest : (c.recovered m).furthest = some m := by
    refine Cursor.furthest_recovered_of_lt (c.offset_le_skipBlanks.trans_lt hlt) fun k hk => ?_
    rw [hoffset] at hlt
    exact (Nat.le_of_add_le_add_right ((h.remembers k hk).trans hp.ge)).trans_lt hlt
  rw [hoffset, ← offset_skipBlanks_of_rest hfollows hrest hp] at hlt
  refine ⟨hcommitted, hfollows, by rw [hrest]; exact hr, fun x => ?_⟩
  rw [Cursor.mismatch, Cursor.furthest_skipBlanks, hfurthest]
  exact if_pos hlt

theorem AtParts.parse_moreDefinitions {fuel : List Char} (hr : r.head? = some '(')
    (hss : ∀ s ∈ ss, s.place = 8) (hfuel : ss.length ≤ fuel.length) (h : AtParts text gap r ss c) :
    ∃ d as, Parser.moreWithin (Grammar.run (Nonterminal.parse ceiling) Rule.definition) fuel c =
      .ok (d, as) ∧ AtMismatch ceiling text m d := by
  induction ss generalizing c fuel with
  | nil =>
    obtain ⟨hcommitted, hends⟩ := h.atMismatch hp hm hr
    refine ⟨c.recovered m, [], ?_, hends⟩
    have hseparated := h.separated_definition
    rw [h.parse_definition hp hm] at hseparated
    unfold Parser.moreWithin
    simp only [hseparated, Failure.recoverable?, hcommitted, Bool.false_eq_true, ↓reduceIte]
  | cons s ss ih =>
    obtain ⟨gap', p, rfl, -⟩ := DomainPart.exists_of_place (k := .definition) (hss s (by simp))
    obtain ⟨d, hd, hparts, hlt⟩ := h.parse_first hr
    rcases fuel with _ | ⟨x, fuel⟩
    · cases hfuel
    obtain ⟨d', as, hmore, hends⟩ := ih (fun s hs => hss s (by simp [hs]))
      (Nat.le_of_succ_le_succ hfuel) hparts
    refine ⟨d', p.value :: as, ?_, hends⟩
    have hseparated := h.separated_definition.trans hd
    simp only [Parser.moreWithin, hseparated, hlt.ne', hmore, ↓reduceIte]

theorem AtParts.parse_definitions (hr : r.head? = some '(') (hss : ∀ t ∈ s :: ss, t.place = 8)
    (h : AtParts text gap r (s :: ss) c) :
    ∃ d as, Rule.parse (Grammar.optional (Grammar.many Rule.definition)) c = .ok (d, as) ∧
      AtMismatch ceiling text m d := by
  obtain ⟨gap', p, rfl, -⟩ := DomainPart.exists_of_place (k := .definition) (hss s (by simp))
  obtain ⟨d, hd, hparts, -⟩ := h.parse_first hr
  have hfuel : ss.length ≤ d.rest.length := (length_le_facing gap r ss).trans
    (hparts.faces.rest ▸ d.view.rest_skipBlanks_suffix.length_le)
  obtain ⟨d', as, hmore, hends⟩ := hparts.parse_moreDefinitions hp hm hr
    (fun s hs => hss s (by simp [hs])) hfuel
  refine ⟨d', some (p.value :: as), ?_, hends⟩
  have hmore : Rule.parse (.more Rule.definition) d = .ok (d', as) := by
    rw [← hmore, Rule.parse, hparts.follows.levels]
    rfl
  have hseq := Rule.parse_seq_ok (g := Rule.definition) h.follows.skipBlanks hparts.follows hd hmore
  have hmany1 : Rule.parse (Grammar.many1 Rule.definition) c.skipBlanks = .ok (d', p.value :: as) := by
    rw [Grammar.many1, Rule.parse_map, hseq]
    rfl
  have hmany : Rule.parse (Grammar.many Rule.definition) c.skipBlanks = .ok (d', p.value :: as) := by
    have hopt : Rule.parse (.opt (Grammar.many1 Rule.definition)) c.skipBlanks =
      .ok (d', some (p.value :: as)) := Parser.opt_eq_ok.2 (.inl ⟨_, hmany1, rfl⟩)
    rw [Grammar.many, Rule.parse_map, hopt]
    rfl
  exact Parser.opt_eq_ok.2
    (.inl ⟨_, (Rule.parse_separated h.follows h.faces.separates).trans hmany, rfl⟩)

end Malformed

/-! ### Sections and definitions -/

section

variable {ss : List (DomainPart ceiling)} {n : Nat}

/-- A definition is not left behind sections. -/
theorem exists_definition_past (hn : n ≤ 8) (h : ∃ s ∈ ss, s.place = 8) :
    ∃ t ts, past n ss = t :: ts ∧ ∃ s ∈ t :: ts, s.place = 8 := by
  suffices hpast : ∃ s ∈ past n ss, s.place = 8 by
    obtain ⟨s, hs, hplace⟩ := hpast
    obtain ⟨t, ts, heq⟩ := List.exists_cons_of_ne_nil (List.ne_nil_of_mem hs)
    exact ⟨t, ts, heq, s, heq ▸ hs, hplace⟩
  induction n with
  | zero => exact h
  | succ n ih =>
    obtain ⟨s, hs, hplace⟩ := ih (by omega)
    rw [past]
    rcases hss : past n ss with _ | ⟨t, ts⟩
    · simp [hss] at hs
    · by_cases ht : t.place = n
      · refine ⟨s, ?_, hplace⟩
        rw [hss] at hs
        obtain rfl | hs := List.mem_cons.1 hs
        · omega
        · rwa [behind, if_pos ht]
      · exact ⟨s, by rwa [behind, if_neg ht, ← hss], hplace⟩

end

namespace DamagedDomain

variable (t : DamagedDomain ceiling) {m : Mismatch} {c : Cursor}

/-- A section is read if it is the first part that is left. -/
theorem parse_section_past {α : Type} (k : SectionKind α)
    (h : AtParts t.chars t.gap t.rest (past k.place t.parts) c) :
    ∃ d x, Rule.parse (Grammar.optional k.rule) c = .ok (d, x) ∧
      AtParts t.chars t.gap t.rest (past (k.place + 1) t.parts) d := by
  obtain ⟨s, ss, heq, -⟩ := exists_definition_past k.place_le t.hasDefinition
  rw [past, heq]
  rw [heq] at h
  exact h.parse_section k t.opens

theorem parse_definitions_past
    (hm : Rule.definition.parse (Cursor.ofOffset t.chars t.front.length 0 ceiling) =
      .error (.mismatch m))
    (h : AtParts t.chars t.gap t.rest (past 8 t.parts) c) :
    ∃ d as, Rule.parse (Grammar.optional (Grammar.many Rule.definition)) c = .ok (d, as) ∧
      AtMismatch ceiling t.chars m d := by
  obtain ⟨s, ss, heq, -⟩ := exists_definition_past (Nat.le_refl 8) t.hasDefinition
  have hplaces := InOrderFrom.eight_iff.1 ((InOrderFrom.past_iff (Nat.le_refl 8)).2 t.inOrder)
  rw [heq] at h hplaces
  exact h.parse_definitions (by simp [chars]) hm t.opens hplaces

end DamagedDomain

namespace Rule

open Grammar

/-- A text whose sections end in front of a malformed definition reports its mismatch. -/
theorem parse_opening_unclosed {α β : Type} {title : Rule α} {sections : Rule β}
    (hg : title.IsEnclosed) (o : Opening title ceiling) {text y : List Char} {m : Mismatch}
    (htext : text = o.chars ++ y)
    (h : ∀ d, (Cursor.ofText text ceiling).Follows d → d.view = ⟨some ')', y⟩ →
      (∀ m, d.furthest = some m → m.offset + y.length ≤ text.length) →
      ∃ d' b, Rule.parse (separated sections) d = .ok (d', b) ∧ AtMismatch ceiling text m d') :
    Rule.parse (padded (form "define" (pair title sections))) (Cursor.ofText text ceiling) =
      .error (.mismatch m) := by
  have h0 := Cursor.Follows.refl (calm_ofText text ceiling)
  obtain ⟨c, hc⟩ : ∃ c, c = (Cursor.ofText text ceiling).skipBlanks := ⟨_, rfl⟩
  have hfollows := hc ▸ h0.skipBlanks
  obtain ⟨hopen, hword, htitle⟩ := o.views hg (v := (Cursor.ofText text ceiling).view) htext
  rw [← Cursor.view_skipBlanks, ← hc] at hopen hword htitle
  have hinside := (hfollows.advance_open hopen).skipBlanks
  have hname : keywordLength? "define" (c.advance 1).skipBlanks.view.rest = some 6 := by
    rwa [Cursor.view_inside hopen]
  have hbegin := (hinside.advance (keywordLength?_le hname)).skipBlanks
  rw [← Cursor.view_inside hopen, ← Cursor.view_advance, ← Cursor.view_skipBlanks] at htitle
  obtain ⟨d, hd, hdfollows, hdview, -, hdremembers⟩ := o.title.parse_of_rest hg hbegin htitle
    (by simp [hc, Cursor.ofText, Cursor.ofOffset])
  obtain ⟨d', b, hsections, hends⟩ := h d hdfollows hdview hdremembers
  have hform := parse_form_unclosed hfollows hends.follows hopen hword
    (parse_seq_ok hbegin hdfollows hd hsections) (by simp [hends.opens])
  rw [hends.reports, hc] at hform
  exact parse_padded_error h0 hform

/-- **A malformed definition is reported as it is by itself.** -/
theorem parse_damaged_domain (t : DamagedDomain ceiling) {m : Mismatch}
    (h : definition.parse (Cursor.ofOffset t.chars t.front.length 0 ceiling) = .error (.mismatch m)) :
    domain.parse (Cursor.ofText t.chars ceiling) = .error (.mismatch m) := by
  have htext : t.chars = t.opening.chars ++
      (t.parts.flatMap DomainPart.chars ++ (t.gap.chars ++ t.rest)) := by
    simp [DamagedDomain.chars, DamagedDomain.front]
  refine parse_map_error (parse_opening_unclosed ⟨by simp, by decide, rfl⟩ t.opening htext
    fun d hfollows hview hremembers => ?_)
  have p0 := AtParts.of_close t.opens hfollows hview hremembers
  rw [parse_separated p0.follows p0.faces.separates]
  obtain ⟨d1, x1, e1, p1⟩ := t.parse_section_past .parents p0.skipBlanks
  obtain ⟨d2, x2, e2, p2⟩ := t.parse_section_past .requirements p1
  obtain ⟨d3, x3, e3, p3⟩ := t.parse_section_past .types p2
  obtain ⟨d4, x4, e4, p4⟩ := t.parse_section_past .constants p3
  obtain ⟨d5, x5, e5, p5⟩ := t.parse_section_past .predicates p4
  obtain ⟨d6, x6, e6, p6⟩ := t.parse_section_past .timeless p5
  obtain ⟨d7, x7, e7, p7⟩ := t.parse_section_past .functions p6
  obtain ⟨d8, x8, e8, p8⟩ := t.parse_section_past .constraints p7
  obtain ⟨d9, x9, e9, p9⟩ := t.parse_definitions_past h p8
  have hsections := parse_seq_ok p0.skipBlanks.follows p1.follows e1
    (parse_seq_ok p1.follows p2.follows e2 (parse_seq_ok p2.follows p3.follows e3
      (parse_seq_ok p3.follows p4.follows e4 (parse_seq_ok p4.follows p5.follows e5
        (parse_seq_ok p5.follows p6.follows e6 (parse_seq_ok p6.follows p7.follows e7
          (parse_seq_ok p7.follows p8.follows e8 e9)))))))
  exact ⟨d9, _, hsections, p9⟩

/-- A parameter without its question mark, in the second of two actions. -/
theorem parse_damaged_domain_parameter :
    domain.parse (Cursor.ofText
        "(define (domain d) (:action a :parameters ()) (:action b :parameters (x)))".toList 40) =
      .error (.mismatch ⟨.unmatched, .word ")", 70⟩) := by
  let action : DomainPart 40 :=
    ⟨.definition, .one, .ofText definition "(:action a :parameters ())".toList 40 (by decide +kernel)⟩
  let damaged : DamagedDomain 40 := {
    opening := ⟨.none, .none, .one, .named "domain" (by decide) ⟨"d", by decide⟩ 40⟩
    parts := [action]
    inOrder := List.pairwise_singleton _ action
    hasDefinition := ⟨action, by simp, rfl⟩
    gap := .one
    rest := "(:action b :parameters (x)))".toList
    opens := rfl }
  have hchars : damaged.chars =
      "(define (domain d) (:action a :parameters ()) (:action b :parameters (x)))".toList := by
    decide +kernel
  rw [← hchars]
  exact parse_damaged_domain damaged (failure?_eq_some.1 (by decide +kernel))

end Rule

end Pddl
