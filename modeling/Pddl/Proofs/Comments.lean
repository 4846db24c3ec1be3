import Pddl.Proofs.Context

/-!
# Comments around constructs

Blanks and comments stand between constructs, and no reading stops within a comment: the only
place at which a comment may still be open behind a construct is the end of the text.

* `IsSignificant` : a character that is neither a blank nor part of a comment.
* `blankLength_eq_of_isSignificant` : blanks and comments go on up to the first such character.
* `Spacing` : blanks and comments, none of which goes on behind them.
* `View.Clear` : no comment is open where a reading stops, unless nothing is left.
* `Rule.clear_look` : **every rule stops outside comments.**
-/

namespace Pddl

/-! ### Significant characters -/

/-- The character at an index is neither a blank nor part of a comment. -/
def IsSignificant (cs : List Char) (i : Nat) : Prop :=
  leavesComment false (cs.take i) = false ∧ ∃ c, cs[i]? = some c ∧ isBlank c = false ∧ c ≠ ';'

/-- Blanks and comments end at the latest where a character is neither. -/
theorem blankLength_le_index {b : Bool} {cs : List Char} {i : Nat} {c : Char}
    (hi : leavesComment b (cs.take i) = false) (hc : cs[i]? = some c) (hb : isBlank c = false)
    (hs : c ≠ ';') : blankLength b cs ≤ i := by
  induction cs generalizing b i with
  | nil => simp at hc
  | cons d cs ih =>
    cases i with
    | zero =>
      obtain rfl : d = c := by simpa using hc
      obtain rfl : b = false := by cases b <;> simp_all [leavesComment]
      simp [blankLength, hb, hs]
    | succ i =>
      rw [List.getElem?_cons_succ] at hc
      cases b with
      | true =>
        have := ih (b := d != '\n') hi hc
        simp only [blankLength, ↓reduceIte]
        omega
      | false =>
        simp only [List.take_succ_cons, leavesComment] at hi
        simp only [blankLength, Bool.false_eq_true, ↓reduceIte]
        split
        · rename_i hblank
          rw [isBlank_ne_semicolon hblank] at hi
          have := ih hi hc
          omega
        · split
          · rename_i hsemi
            rw [hsemi] at hi
            have := ih hi hc
            omega
          · exact Nat.zero_le _

theorem blankLength_le_of_isSignificant {cs : List Char} {i : Nat} (h : IsSignificant cs i) :
    blankLength false cs ≤ i := by
  obtain ⟨hi, c, hc, hb, hs⟩ := h
  exact blankLength_le_index hi hc hb hs

/-- What stands behind blanks and comments is neither. -/
theorem getElem?_blankLength {b : Bool} {cs : List Char} {c : Char}
    (h : cs[blankLength b cs]? = some c) : isBlank c = false ∧ c ≠ ';' := by
  induction cs generalizing b with
  | nil => simp at h
  | cons d cs ih =>
    simp only [blankLength] at h
    split at h
    · rw [Nat.add_comm, List.getElem?_cons_succ] at h
      exact ih h
    · split at h
      · rw [Nat.add_comm, List.getElem?_cons_succ] at h
        exact ih h
      · rename_i hb
        split at h
        · rw [Nat.add_comm, List.getElem?_cons_succ] at h
          exact ih h
        · rename_i hs
          obtain rfl : d = c := by simpa using h
          exact ⟨by simpa using hb, by simpa using hs⟩

theorem isSignificant_blankLength {cs : List Char} (h : blankLength false cs < cs.length) :
    IsSignificant cs (blankLength false cs) := by
  have hc : cs[blankLength false cs]? = some cs[blankLength false cs] := List.getElem?_eq_getElem h
  refine ⟨leavesComment_of_drop_ne_nil fun hnil => ?_, _, hc, getElem?_blankLength hc⟩
  have := List.drop_eq_nil_iff.1 hnil
  omega

/-- Blanks and comments make up the characters exactly where none is significant. -/
theorem blankLength_eq_length_iff {cs : List Char} :
    blankLength false cs = cs.length ↔ ∀ i, ¬IsSignificant cs i := by
  constructor
  · intro h i hi
    have hle := blankLength_le_of_isSignificant hi
    obtain ⟨-, c, hc, -⟩ := hi
    have := (List.getElem?_eq_some_iff.1 hc).1
    omega
  · intro h
    by_contra hne
    have hle := blankLength_le false cs
    exact h _ (isSignificant_blankLength (by omega))

/-- Blanks and comments go on up to the first significant character. -/
theorem blankLength_eq_of_isSignificant {cs : List Char} {i : Nat} (h : IsSignificant cs i)
    (hi : ∀ j < i, ¬IsSignificant cs j) : blankLength false cs = i := by
  have hle := blankLength_le_of_isSignificant h
  obtain ⟨-, c, hc, -⟩ := h
  have hlt := (List.getElem?_eq_some_iff.1 hc).1
  by_contra hne
  exact hi _ (by omega) (isSignificant_blankLength (by omega))

/-! ### Spacing -/

/-- Blanks and comments, none of which goes on behind them. -/
structure Spacing where
  /-- The characters. -/
  chars : List Char
  blank : blankLength false chars = chars.length
  closed : leavesComment false chars = false

namespace Spacing

/-- Nothing. -/
def none : Spacing := ⟨[], rfl, rfl⟩

/-- A single blank. -/
def one : Spacing := ⟨[' '], rfl, rfl⟩

variable (s : Spacing)

theorem blankLength_append (y : List Char) :
    blankLength false (s.chars ++ y) = s.chars.length + blankLength false y := by
  have h := blankLength_take_append false s.chars y
  rwa [s.blank, List.take_length, s.closed] at h

/-- Spacing is skipped up to what follows it. -/
theorem rest_skipBlanks {v : View} {y : List Char} (hv : v.rest = s.chars ++ y)
    (hy : blankLength false y = 0) : v.skipBlanks.rest = y := by
  simp [View.skipBlanks, hv, s.blankLength_append, hy]

/-- Spacing that is not empty separates. -/
theorem separates (hs : s.chars ≠ []) {v : View} {y : List Char} (hv : v.rest = s.chars ++ y) :
    v.separates = true := by
  have hlen := List.length_pos_iff.2 hs
  simp only [View.separates, hv, s.blankLength_append, Bool.or_eq_true, decide_eq_true_eq]
  exact .inl (.inl (by omega))

theorem eq_nil_or_head :
    s.chars = [] ∨ ∃ c cs, s.chars = c :: cs ∧ (isBlank c = true ∨ c = ';') := by
  rcases hs : s.chars with _ | ⟨c, cs⟩
  · exact .inl rfl
  · refine .inr ⟨c, cs, rfl, ?_⟩
    have hblank := s.blank
    rw [hs] at hblank
    simp only [blankLength, Bool.false_eq_true, ↓reduceIte, List.length_cons] at hblank
    split at hblank
    · exact .inl ‹_›
    · split at hblank
      · exact .inr (beq_iff_eq.1 ‹_›)
      · omega

/-- What neither a blank nor a semicolon begins does not begin in spacing. -/
theorem any_eq_false {p : Char → Bool} (hb : ∀ c, isBlank c = true → p c = false)
    (hp : p ';' = false) {y : List Char} (hy : y.head?.any p = false) :
    (s.chars ++ y).head?.any p = false := by
  obtain hs | ⟨c, cs, hs, hc | rfl⟩ := s.eq_nil_or_head
  · rwa [hs]
  · simpa [hs] using hb c hc
  · simpa [hs] using hp

/-- No name goes on in spacing. -/
theorem any_isNameChar {y : List Char} (hy : y.head?.any isNameChar = false) :
    (s.chars ++ y).head?.any isNameChar = false := by
  refine s.any_eq_false (fun c hc => ?_) (by decide) hy
  by_contra hname
  rw [isBlank_eq_false_of_isNameChar (by simpa using hname)] at hc
  cases hc

end Spacing

/-! ### Where readings stop -/

theorem leavesComment_of_forall_ne {p : List Char} (h : ∀ c ∈ p, c ≠ ';') :
    leavesComment false p = false := by
  induction p with
  | nil => rfl
  | cons c p ih =>
    obtain ⟨hc, hp⟩ := List.forall_mem_cons.1 h
    rw [leavesComment, beq_false_of_ne hc, ih hp]

theorem ne_semicolon_of_isPlain {c : Char} (h : isPlain c = true) : c ≠ ';' := by
  rintro rfl
  exact absurd h (by decide)

namespace View

/-- No comment is open where a reading stops, unless nothing is left there. -/
def Clear (v w : View) : Prop :=
  ∃ x, v.rest = x ++ w.rest ∧ (w.rest = [] ∨ leavesComment false x = false)

variable {v w : View}

theorem clear_advance {n : Nat} (h : leavesComment false (v.rest.take n) = false) :
    v.Clear (v.advance n) :=
  ⟨v.rest.take n, by simp, .inr h⟩

theorem path_clear : View.Path Clear where
  refl _ := ⟨[], rfl, .inr rfl⟩
  trans := by
    rintro u v w ⟨x, hx, h⟩ ⟨y, hy, k⟩
    refine ⟨x ++ y, by rw [hx, hy, List.append_assoc], ?_⟩
    obtain hv | hx' := h
    · exact .inl (List.append_eq_nil_iff.1 (hy.symm.trans hv)).2
    · refine k.imp_right fun hy' => ?_
      rw [leavesComment_append, hx', hy']
  skipBlanks v := by
    refine ⟨v.rest.take (blankLength false v.rest), by simp [skipBlanks], ?_⟩
    by_cases h : v.rest.drop (blankLength false v.rest) = []
    · exact .inl (by simpa [skipBlanks] using h)
    · exact .inr (leavesComment_of_drop_ne_nil h)

end View

theorem Terminal.clear {α : Type} {t : Terminal α} {φ ψ : Phase} (ht : t.next φ = some ψ)
    {v : View} {n : Nat} {a : α} (h : t.lexeme? v = some (n, a)) : v.Clear (v.advance n) := by
  cases moves_of_next ht with
  | pure b hi =>
    obtain ⟨rfl, -⟩ := Prod.mk.inj (Option.some.inj h)
    exact View.path_clear.refl v
  | blanks hi =>
    obtain ⟨rfl, -⟩ := Prod.mk.inj (Option.some.inj h)
    exact View.path_clear.skipBlanks v
  | separator hi =>
    simp only [lexeme?] at h
    split at h
    · obtain ⟨rfl, -⟩ := Prod.mk.inj (Option.some.inj h)
      exact View.path_clear.skipBlanks v
    · simp at h
  | char c hc =>
    simp only [lexeme?] at h
    split at h
    · rename_i hhead
      obtain ⟨rfl, -⟩ := Prod.mk.inj (Option.some.inj h)
      obtain ⟨rest, hr⟩ := rest_of_head? hhead
      have hne : c ≠ ';' := by
        rintro rfl
        cases φ <;> simp [Phase.character, isPlain] at hc
      exact View.clear_advance (by simp [hr, leavesComment, hne])
    · simp at h
  | lexeme hf he _ =>
    rw [he] at h
    exact View.clear_advance
      (leavesComment_of_forall_ne fun c hc => ne_semicolon_of_isPlain (hf.plain h c hc))

/-- Empty parentheses hold no comment. -/
theorem leavesComment_emptyParens {cs : List Char} {n : Nat} (h : emptyParensLength? cs = some n) :
    leavesComment false (cs.take n) = false := by
  obtain ⟨blanks, rest, rfl, hb, rfl⟩ := emptyParensLength?_eq_some.1 h
  refine leavesComment_of_forall_ne fun c hc => ?_
  have htake : ('(' :: (blanks ++ ')' :: rest)).take (blanks.length + 2) =
      '(' :: (blanks ++ [')']) := by
    rw [List.take_succ_cons, List.take_append, List.take_of_length_le (by omega)]
    simp
  rw [htake, List.mem_cons, List.mem_append, List.mem_singleton] at hc
  obtain rfl | hc | rfl := hc
  · decide
  · exact ne_semicolon_of_isPlain (isPlain_of_isWideBlank (hb c hc))
  · decide

namespace Grammar

variable {N : Type → Type} {α : Type}

/-- Every terminal of a grammar that stays in its form does so itself. -/
theorem over_of_next {g : Grammar N α} {φ ψ : Phase} (h : g.next φ = some ψ) :
    g.Over fun t => ∃ φ ψ, t.next φ = some ψ := by
  induction g generalizing φ ψ with
  | terminal t => exact ⟨φ, ψ, h⟩
  | call n => trivial
  | seq g h' ihg ihh =>
    obtain ⟨χ, hg, hh⟩ := Option.bind_eq_some_iff.1 h
    exact ⟨ihg hg, ihh hh⟩
  | refine f g ih => exact ih h
  | orElse g h' ihg ihh =>
    simp only [next] at h
    split at h
    · rename_i heq
      exact ⟨ihg h, ihh (heq ▸ h)⟩
    · simp at h
  | opt g ih | more g ih | emptyOr g ih =>
    simp only [next] at h
    split at h
    · rename_i heq
      exact ih (heq.trans h)
    · simp at h
  | typedList default group values ihg ihv =>
    simp only [next] at h
    split at h
    · rename_i heq
      exact ⟨ihg (heq.1.trans h), ihv (heq.2.1.trans h)⟩
    · simp at h

theorem clear_denote {read : {α : Type} → N α → Reader α}
    (hn : ∀ {α : Type} (n : N α), (read n).Follows View.Clear) {g : Grammar N α} {φ ψ : Phase}
    (hg : g.next φ = some ψ) : (g.denote read).Follows View.Clear := by
  refine follows_denote View.path_clear ?_ ?_ hn (over_of_next hg)
  · rintro _ _ ⟨φ, ψ, ht⟩ v n a h
    exact Terminal.clear ht h
  · intro v n h
    exact View.clear_advance (leavesComment_emptyParens h)

end Grammar

theorem Nonterminal.clear_denote {α : Type} (levels : Nat) (n : Nonterminal α) :
    (n.denote levels).Follows View.Clear := by
  induction levels generalizing α with
  | zero => intro v w a h; simp [Nonterminal.denote] at h
  | succ levels ih => exact Grammar.clear_denote (fun n => ih n) n.next_production_before

/-- **Every rule stops outside comments**, unless it stops where the text ends. -/
theorem Rule.clear_look {α : Type} {g : Rule α} {φ ψ : Phase} (hg : g.next φ = some ψ)
    {levels : Nat} {v w : View} {a : α} (h : g.look levels v = .found w a) : v.Clear w :=
  Grammar.clear_denote (fun n => n.clear_denote levels) hg h

end Pddl
