import Mathlib.Data.List.TakeWhile
import Pddl.Proofs.Comments
import Pddl.Proofs.TypedTexts

/-!
# Lexemes end at gaps

A gap is made of blanks and comments, and no lexeme goes on in one: what is recognised in front of a
gap is what would be recognised if the text ended there.  Two lexemes hold white space themselves,
empty parentheses and fixed words of several parts.  They see a gap in their middle, and a comment
is nothing that they know.

* `beginsGap` : a character with which a gap begins.
* `Between` : a place with two words around it and at most white space beside it.
* `keywordLength?_gap`, `emptyParensLength?_gap` : a gap ends fixed words and empty parentheses,
  unless it lies in the middle of one.
* `Recogniser.EndsAtGaps` : a gap ends what is recognised, shown for the other classes of lexemes.
-/

namespace Pddl

/-! ### Where a gap begins -/

/-- A gap begins with a blank or with the semicolon of a comment. -/
def beginsGap (c : Char) : Bool := isBlank c || c == ';'

theorem isNameChar_of_beginsGap {c : Char} (h : beginsGap c = true) : isNameChar c = false := by
  rw [Bool.eq_false_iff]
  intro hname
  simp only [beginsGap, Bool.or_eq_true, beq_iff_eq] at h
  rcases h with hblank | rfl
  · rw [isBlank_eq_false_of_isNameChar hname] at hblank
    cases hblank
  · exact absurd hname (by decide)

theorem isDigit_of_beginsGap {c : Char} (h : beginsGap c = true) : c.isDigit = false := by
  have hname := isNameChar_of_beginsGap h
  simp only [isNameChar, Char.isAlphanum, Bool.or_eq_false_iff] at hname
  exact hname.1.1.2

/-- A character that is neither white space nor a semicolon begins no gap. -/
theorem ne_of_beginsGap {c d : Char} (h : beginsGap c = true) (hd : isWideBlank d = false)
    (hs : d ≠ ';') : d ≠ c := by
  rintro rfl
  simp only [beginsGap, Bool.or_eq_true, beq_iff_eq] at h
  rcases h with hblank | hsemi
  · rw [isWideBlank_of_isBlank hblank] at hd
    cases hd
  · exact hs hsemi

theorem blankLength_pos_iff {cs : List Char} :
    0 < blankLength false cs ↔ cs.head?.any beginsGap = true := by
  rcases cs with _ | ⟨c, cs⟩
  · simp [blankLength]
  · cases hb : isBlank c <;> cases hs : c == ';' <;>
      simp [blankLength, beginsGap, hb, hs, Nat.add_comm 1]

/-- Blanks and comments that end within some characters end there whatever follows. -/
theorem blankLength_append_of_lt {b : Bool} {x : List Char} (y : List Char)
    (h : blankLength b x < x.length) : blankLength b (x ++ y) = blankLength b x := by
  induction x generalizing b with
  | nil => simp [blankLength] at h
  | cons c x ih =>
    have hrest {b' : Bool} (h : 1 + blankLength b' x < x.length + 1) :
        1 + blankLength b' (x ++ y) = 1 + blankLength b' x := by rw [ih (by omega)]
    simp only [blankLength, List.length_cons, List.cons_append] at h ⊢
    cases b with
    | true => exact hrest h
    | false =>
      simp only [Bool.false_eq_true, ↓reduceIte] at h ⊢
      split
      · rename_i hblank
        rw [if_pos hblank] at h
        exact hrest h
      · rename_i hblank
        rw [if_neg hblank] at h
        split
        · rename_i hsemi
          rw [if_pos hsemi] at h
          exact hrest h
        · rfl

namespace Gap

variable (s : Gap)

/-- A gap ends with a blank. -/
theorem isBlank_of_getLast? {c : Char} (hc : s.chars.getLast? = some c) : isBlank c = true := by
  obtain ⟨z, hz⟩ := List.getLast?_eq_some_iff.1 hc
  have hclosed := s.closed
  rw [hz, leavesComment_append] at hclosed
  by_contra hb
  cases hopen : leavesComment false z with
  | true =>
    have hnewline : c = '\n' := by simpa [hopen, leavesComment] using hclosed
    exact hb (by rw [hnewline]; decide)
  | false =>
    have hs : c ≠ ';' := by simpa [hopen, leavesComment] using hclosed
    have hle : blankLength false s.chars ≤ z.length :=
      blankLength_le_index (c := c) (by simpa [hz] using hopen) (by simp [hz]) (by simpa using hb) hs
    rw [s.blank, hz, List.length_append, List.length_singleton] at hle
    omega

theorem exists_beginsGap : ∃ c cs, s.chars = c :: cs ∧ beginsGap c = true := by
  obtain hs | ⟨c, cs, hs, hc⟩ := s.eq_nil_or_head
  · exact absurd hs s.nonempty
  · refine ⟨c, cs, hs, ?_⟩
    simpa [beginsGap] using hc

/-- The first character of a gap that is no white space begins a comment. -/
theorem eq_semicolon {z t : List Char} {c : Char} (hs : s.chars = z ++ c :: t)
    (hz : ∀ d ∈ z, isWideBlank d = true) (hc : isWideBlank c = false) : c = ';' := by
  by_contra hne
  have hopen : leavesComment false z = false :=
    leavesComment_of_forall_ne fun d hd => ne_semicolon_of_isPlain (isPlain_of_isWideBlank (hz d hd))
  have hb : isBlank c = false := by
    by_contra hb
    rw [isWideBlank_of_isBlank (by simpa using hb)] at hc
    cases hc
  have hle : blankLength false s.chars ≤ z.length := by
    refine blankLength_le_index (c := c) ?_ ?_ hb hne
    · simpa [hs] using hopen
    · simp [hs]
  rw [s.blank, hs, List.length_append, List.length_cons] at hle
  omega

end Gap

/-! ### Places between two words -/

/-- The place between two texts lies between two words, with at most white space beside it. -/
def Between (u v p q : List Char) : Prop :=
  ∃ w w', (∀ c ∈ w, isWideBlank c = true) ∧ (∀ c ∈ w', isWideBlank c = true) ∧
    u ++ w <:+ p ∧ w' ++ v <+: q

theorem Between.mono {u v x p q : List Char} (h : Between u v x q) (hx : x <:+ p) :
    Between u v p q := by
  obtain ⟨w, w', hw, hw', hp, hq⟩ := h
  exact ⟨w, w', hw, hw', hp.trans hx, hq⟩

/-- If only white space stands between two words with a gap between them, the gap lies between the
words. -/
theorem between_of_dropWhile {u v w q : List Char} {s : Gap} (hv : ∀ c ∈ v.head?, c ≠ ';')
    (hne : v ≠ []) (hw : ∀ c ∈ w, isWideBlank c = true)
    (h : v <+: (w ++ (s.chars ++ q)).dropWhile isWideBlank) : Between u v (u ++ w) q := by
  rw [List.dropWhile_append_of_pos hw] at h
  by_cases hs : ∀ c ∈ s.chars, isWideBlank c = true
  · rw [List.dropWhile_append_of_pos hs] at h
    refine ⟨w, q.takeWhile isWideBlank, hw, fun c hc => of_mem_takeWhile hc, List.suffix_rfl, ?_⟩
    obtain ⟨t, ht⟩ := h
    refine ⟨t, ?_⟩
    rw [List.append_assoc, ht, List.takeWhile_append_dropWhile]
  · -- otherwise a comment stands in front of the second word
    exfalso
    push Not at hs
    obtain ⟨c, hc, hb⟩ := hs
    have hb : isWideBlank c = false := by simpa using hb
    rw [dropWhile_append_of_mem q hc hb] at h
    obtain ⟨d, t, hd⟩ := List.exists_cons_of_ne_nil (List.ne_nil_of_mem (mem_dropWhile_of_mem hc hb))
    have hsplit := List.takeWhile_append_dropWhile (p := isWideBlank) (l := s.chars)
    rw [hd] at hsplit h
    have hdb : isWideBlank d = false := by
      have := List.head_dropWhile_not (p := isWideBlank) (l := s.chars) (by simp [hd])
      simpa [hd] using this
    obtain rfl := s.eq_semicolon hsplit.symm (fun c hc => of_mem_takeWhile hc) hdb
    obtain ⟨e, v, rfl⟩ := List.exists_cons_of_ne_nil hne
    obtain ⟨rfl, -⟩ := List.cons_prefix_cons.1 h
    exact hv ';' (by simp) rfl

/-! ### Empty parentheses -/

/-- A gap ends empty parentheses, unless it lies in the middle of them. -/
theorem emptyParensLength?_gap {x q : List Char} (s : Gap) (h : ¬Between ['('] [')'] x q) :
    emptyParensLength? (x ++ (s.chars ++ q)) = emptyParensLength? x := by
  rcases x with _ | ⟨c, y⟩
  · obtain ⟨c, cs, hs, hc⟩ := s.exists_beginsGap
    have hopen := ne_of_beginsGap hc (d := '(') (by decide) (by decide)
    simp [hs, emptyParensLength?, Ne.symm hopen]
  by_cases hc : c = '('
  · subst hc
    by_cases hy : ∀ c ∈ y, isWideBlank c = true
    · have hnone : emptyParensLength? ('(' :: y) = none := by
        simp [emptyParensLength?, List.dropWhile_eq_nil_iff.2 hy]
      rw [hnone, Option.eq_none_iff_forall_ne_some]
      intro n hn
      obtain ⟨blanks, rest, hcs, hb, -⟩ := emptyParensLength?_eq_some.1 hn
      obtain ⟨-, hcs⟩ := List.cons.inj hcs
      refine h (between_of_dropWhile (s := s) (by simp) (by simp) hy ?_)
      rw [show y ++ (s.chars ++ q) = _ from hcs, List.dropWhile_append_of_pos hb]
      exact ⟨rest, by simp [isWideBlank_close]⟩
    · push Not at hy
      obtain ⟨d, hd, hb⟩ := hy
      have hb : isWideBlank d = false := by simpa using hb
      simp only [List.cons_append, emptyParensLength?, takeWhile_append_of_mem _ hd hb,
        dropWhile_append_of_mem _ hd hb]
      obtain ⟨e, t, ht⟩ := List.exists_cons_of_ne_nil (List.ne_nil_of_mem (mem_dropWhile_of_mem hd hb))
      by_cases he : e = ')'
      · simp [ht, he]
      · simp [ht, he]
  · simp [emptyParensLength?, hc]

/-! ### Fixed words -/

theorem isPrefixOf?_gap {w : List Char} {c : Char} (hw : c ∉ w) (x cs : List Char) :
    w.isPrefixOf? (x ++ c :: cs) = (w.isPrefixOf? x).map (· ++ c :: cs) := by
  induction w generalizing x with
  | nil => simp [List.isPrefixOf?]
  | cons d w ih =>
    rw [List.mem_cons, not_or] at hw
    rcases x with _ | ⟨e, x⟩
    · simp [List.isPrefixOf?, Ne.symm hw.1]
    · by_cases hde : d = e
      · subst hde
        simpa [List.isPrefixOf?] using ih hw.2 x
      · simp [List.isPrefixOf?, hde]

/-- A gap ends several words, unless it lies between two of them. -/
theorem wordsLength?_gap {ws : List (List Char)} {x q : List Char} (s : Gap)
    (hne : ∀ w ∈ ws, w ≠ []) (hws : ∀ w ∈ ws, ∀ c ∈ w, isWideBlank c = false ∧ c ≠ ';')
    (h : ∀ u v, [u, v] <:+: ws → ¬Between u v x q) :
    wordsLength? ws (x ++ (s.chars ++ q)) = wordsLength? ws x := by
  obtain ⟨c, cs, hs, hc⟩ := s.exists_beginsGap
  induction ws generalizing x with
  | nil => rfl
  | cons u ws ih =>
    have hu : c ∉ u := fun hm =>
      ne_of_beginsGap hc (hws u (by simp) c hm).1 (hws u (by simp) c hm).2 rfl
    have hprefix := isPrefixOf?_gap hu x (cs ++ q)
    rw [← List.cons_append, ← hs] at hprefix
    rw [wordsLength?, wordsLength?, hprefix]
    rcases hp : u.isPrefixOf? x with _ | y
    · rfl
    obtain rfl := isPrefixOf?_eq_some.1 hp
    simp only [Option.map_some, Option.bind_eq_bind, Option.bind_some, drop_takeWhile_length]
    rcases ws with _ | ⟨v, ws⟩
    · rfl
    have hv : v ≠ [] := hne v (by simp)
    by_cases hy : ∀ c ∈ y, isWideBlank c = true
    · -- the gap stands behind the first word, and so not in front of the second
      have hbetween := h u v ⟨[], ws, rfl⟩
      have hsecond : wordsLength? (v :: ws) ((y ++ (s.chars ++ q)).dropWhile isWideBlank) = none := by
        rw [Option.eq_none_iff_forall_ne_some]
        intro n hn
        obtain ⟨rest, hrest, -⟩ := wordsLength?_cons.1 hn
        refine hbetween (between_of_dropWhile (s := s) (fun c hc => ?_) hv hy ⟨rest, hrest.symm⟩)
        exact (hws v (by simp) c (List.mem_of_mem_head? hc)).2
      have hnil : wordsLength? (v :: ws) (y.dropWhile isWideBlank) = none := by
        rw [List.dropWhile_eq_nil_iff.2 hy, Option.eq_none_iff_forall_ne_some]
        intro n hn
        obtain ⟨rest, hrest, -⟩ := wordsLength?_cons.1 hn
        exact hv (List.append_eq_nil_iff.1 hrest.symm).1
      simp [hsecond, hnil]
    · push Not at hy
      obtain ⟨d, hd, hb⟩ := hy
      have hb : isWideBlank d = false := by simpa using hb
      have hsuffix : y.dropWhile isWideBlank <:+ u ++ y :=
        (List.dropWhile_suffix _).trans (List.suffix_append u y)
      have ih := ih (x := y.dropWhile isWideBlank) (fun w hw => hne w (List.mem_cons_of_mem _ hw))
        (fun w hw => hws w (List.mem_cons_of_mem _ hw)) fun u' v' hin hbetween =>
          h u' v' (hin.trans (List.suffix_cons u _).isInfix) (hbetween.mono hsuffix)
      simp only [takeWhile_append_of_mem _ hd hb, dropWhile_append_of_mem _ hd hb, ih]

/-- A gap ends a fixed word, unless it lies between two parts of the word. -/
theorem keywordLength?_gap {w : String} (hw : IsPlainWord w) {x q : List Char} (s : Gap)
    (h : ∀ u v, [u, v] <:+: wordsOf w.toList → ¬Between u v x q) :
    keywordLength? w (x ++ (s.chars ++ q)) = keywordLength? w x := by
  obtain ⟨c, cs, hs, hc⟩ := s.exists_beginsGap
  have hwords := wordsLength?_gap s (fun _ => ne_nil_of_mem_wordsOf)
    (fun part hpart c hc => ⟨isWideBlank_of_mem_wordsOf hpart hc,
      ne_semicolon_of_isPlain (isPlain_of_mem_wordsOf hw part hpart c hc)⟩) h
  unfold keywordLength?
  rw [hwords]
  rcases hn : wordsLength? (wordsOf w.toList) x with _ | n
  · rfl
  have hle := wordsLength?_le hn
  simp only [Option.bind_eq_bind, Option.bind_some, List.drop_append_of_le_length hle]
  rcases x.drop n with _ | ⟨d, t⟩
  · simp [hs, isNameChar_of_beginsGap hc]
  · simp

/-- A fixed word of one part ends at every gap. -/
theorem keywordLength?_gap_of_isWord {w : String} (hw : IsWord w) {x q : List Char} (s : Gap) :
    keywordLength? w (x ++ (s.chars ++ q)) = keywordLength? w x := by
  refine keywordLength?_gap hw.1 s fun u v hin => ?_
  rw [hw.2] at hin
  have := hin.length_le
  simp at this

/-! ### Other lexemes -/

/-- A gap ends what is recognised. -/
def Recogniser.EndsAtGaps {α : Type} (f : Recogniser α) : Prop :=
  ∀ (x q : List Char) (s : Gap), f (x ++ (s.chars ++ q)) = f x

section

variable {p : Char → Bool} {c : Char}

theorem takeWhile_append_cons (hc : p c = false) (x cs : List Char) :
    (x ++ c :: cs).takeWhile p = x.takeWhile p := by
  induction x with
  | nil => simp [hc]
  | cons d x ih =>
    by_cases hd : p d = true
    · simp [hd, ih]
    · simp [hd]

theorem dropWhile_append_cons (hc : p c = false) (x cs : List Char) :
    (x ++ c :: cs).dropWhile p = x.dropWhile p ++ c :: cs := by
  induction x with
  | nil => simp [hc]
  | cons d x ih =>
    by_cases hd : p d = true
    · simp [hd, ih]
    · simp [hd]

end

theorem nameLexeme?_gap {c : Char} (hc : beginsGap c = true) (x cs : List Char) :
    nameLexeme? (x ++ c :: cs) = nameLexeme? x := by
  have hname := isNameChar_of_beginsGap hc
  rcases x with _ | ⟨d, x⟩
  · have hstart : isNameStart c = false := by
      by_contra hstart
      rw [isNameChar_of_isNameStart (by simpa using hstart)] at hname
      cases hname
    simp [nameLexeme?, hstart]
  · simp only [List.cons_append, nameLexeme?, takeWhile_append_cons hname]

open Terminal Recogniser

theorem endsAtGaps_symbolLexeme? (kind : SymbolKind) : EndsAtGaps (symbolLexeme? kind) := by
  intro x q s
  obtain ⟨c, cs, hs, hc⟩ := s.exists_beginsGap
  have hsigil : c ∉ kind.sigil.toList := by
    intro hm
    have hall : kind.sigil.toList.all (fun d => !isWideBlank d && d != ';') = true := by
      cases kind <;> decide
    have hd := List.all_eq_true.1 hall c hm
    simp only [Bool.and_eq_true, Bool.not_eq_true', bne_iff_ne] at hd
    exact ne_of_beginsGap hc hd.1 hd.2 rfl
  rw [hs, List.cons_append]
  unfold symbolLexeme?
  rw [isPrefixOf?_gap hsigil]
  rcases kind.sigil.toList.isPrefixOf? x with _ | rest
  · rfl
  · simp only [Option.map_some, Option.bind_eq_bind, Option.bind_some, nameLexeme?_gap hc]

theorem endsAtGaps_flagLexeme? : EndsAtGaps flagLexeme? := by
  intro x q s
  obtain ⟨c, cs, hs, hc⟩ := s.exists_beginsGap
  rw [hs, List.cons_append]
  rcases x with _ | ⟨d, x⟩
  · have hcolon := ne_of_beginsGap hc (d := ':') (by decide) (by decide)
    simp [flagLexeme?, Token.lexeme?, markedLexeme?, Ne.symm hcolon]
  · simp only [List.cons_append, flagLexeme?, Token.lexeme?, markedLexeme?, nameLexeme?_gap hc]

theorem endsAtGaps_decimalLexeme? : EndsAtGaps decimalLexeme? := by
  intro x q s
  obtain ⟨c, cs, hs, hc⟩ := s.exists_beginsGap
  have hdigit := isDigit_of_beginsGap hc
  have hpoint := ne_of_beginsGap hc (d := '.') (by decide) (by decide)
  rw [hs, List.cons_append]
  unfold decimalLexeme? decimalParts?
  simp only [takeWhile_append_cons hdigit, dropWhile_append_cons hdigit]
  rcases x.dropWhile Char.isDigit with _ | ⟨d, rest⟩
  · simp [Ne.symm hpoint]
  · by_cases hd : d = '.'
    · subst hd
      simp [takeWhile_append_cons hdigit]
    · simp [hd]

theorem endsAtGaps_integerLexeme? : EndsAtGaps integerLexeme? := by
  intro x q s
  obtain ⟨c, cs, hs, hc⟩ := s.exists_beginsGap
  simp only [hs, List.cons_append, integerLexeme?, takeWhile_append_cons (isDigit_of_beginsGap hc)]

theorem endsAtGaps_oneOf {α : Type} {entries : List (String × α)}
    (he : ∀ e ∈ entries, IsWord e.1) : EndsAtGaps fun cs => firstMatch? cs (longestFirst entries) := by
  intro x q s
  have hlongest : ∀ e ∈ longestFirst entries, IsWord e.1 := fun e h => he e (mem_longestFirst.1 h)
  generalize longestFirst entries = entries at hlongest ⊢
  induction entries with
  | nil => rfl
  | cons e entries ih =>
    obtain ⟨hword, hwords⟩ := List.forall_mem_cons.1 hlongest
    simp only [firstMatch?, keywordLength?_gap_of_isWord hword] at ih ⊢
    rw [ih hwords]

end Pddl
