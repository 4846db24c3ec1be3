import Pddl.Proofs.Operands

/-!
# Numbers that are too large

A reading fails for a number beyond every finite value only if the text holds such a number.  Long
rows of digits may well stand in names: no rule looks for a number in the middle of a name or of
another number.

* `FiniteNumeral`, `NumeralsFit` : the number in front is finite; so are all numbers of a text.
* `View.Starts` : a number in front would not go on from what is before.
* `Grammar.starts`, `Grammar.Safe` : whether a grammar leaves such a view, and whether it looks for
  numbers only there.
* `Rule.look_ne_infinite` : where all numbers fit, no reading fails for one that is too large.
* `Rule.read_of_numeralsFit` : **such a text is read, or there is a mismatch, or it is too deep.**
-/

namespace Pddl

/-! ### Numbers ahead -/

/-- The number in front, if there is one, is finite. -/
def FiniteNumeral (cs : List Char) : Prop :=
  ∀ n d, Terminal.decimalLexeme? cs = some (n, d) → ∃ x, Binary64.ofDecimal false d = .finite x

instance (cs : List Char) : Decidable (FiniteNumeral cs) :=
  match hn : Terminal.decimalLexeme? cs with
  | none => isTrue fun _ _ hd => absurd (hn.symm.trans hd) nofun
  | some (n, d) =>
    have hiff : FiniteNumeral cs ↔ ∃ x, Binary64.ofDecimal false d = .finite x :=
      ⟨fun h => h n d hn, fun h _ _ hd => by
        obtain ⟨-, rfl⟩ := Prod.mk.inj (Option.some.inj (hn.symm.trans hd))
        exact h⟩
    match hx : Binary64.ofDecimal false d with
    | .finite x => isTrue (hiff.2 ⟨x, hx⟩)
    | .infinite _ | .nan => isFalse fun h => by
      obtain ⟨x, h⟩ := hiff.1 h
      cases hx.symm.trans h

/-- All numbers in the text are finite. -/
def NumeralsFit (text : List Char) : Prop :=
  ∀ x y, text = x ++ y → x.getLast?.any goesOn = false → FiniteNumeral y

theorem isNameChar_of_isDigit {c : Char} (h : c.isDigit = true) : isNameChar c = true := by
  simp [isNameChar, Char.isAlphanum, h]

theorem goesOn_of_isNameChar {c : Char} (h : isNameChar c = true) : goesOn c = true := by
  simp [goesOn, h]

theorem goesOn_eq_false_of_isWideBlank {c : Char} (h : isWideBlank c = true) : goesOn c = false := by
  rw [Bool.eq_false_iff]
  intro hc
  rw [isWideBlank_eq_false_of_goesOn hc] at h
  exact Bool.false_ne_true h

theorem finiteNumeral_of_head? {cs : List Char} (h : cs.head?.any Char.isDigit = false) :
    FiniteNumeral cs := by
  intro n d hd
  obtain ⟨⟨whole, places⟩, hp, -⟩ := Option.map_eq_some_iff.1 hd
  obtain ⟨rest, rfl, hne, hw, -⟩ := decimalParts?_eq_some hp
  obtain ⟨c, whole, rfl⟩ := List.exists_cons_of_ne_nil hne
  simp [decimalLexeme, hw c (by simp)] at h

/-! ### Numbers in longer texts -/

variable {s t : List Char}

/-- What goes on with neither a digit nor a point does not change the number in front. -/
theorem decimalParts?_append_of_goesOn (s : List Char) (ht : t.head?.any goesOn = false) :
    decimalParts? (s ++ t) = decimalParts? s := by
  have hdigit := any_isDigit_of_goesOn ht
  have hnil : t.takeWhile Char.isDigit = [] := by
    rcases t with _ | ⟨c, t⟩
    · rfl
    · exact List.takeWhile_cons_of_neg (by simpa using hdigit)
  -- neither the digits in front of a point nor those behind it reach into `t`
  have htake : ∀ u : List Char, (u ++ t).takeWhile Char.isDigit = u.takeWhile Char.isDigit := by
    intro u
    rw [List.takeWhile_append]
    split
    · rw [hnil, List.append_nil, (List.takeWhile_prefix _).eq_of_length ‹_›]
    · rfl
  have hdrop : (s ++ t).dropWhile Char.isDigit = s.dropWhile Char.isDigit ++ t := by
    have h := List.takeWhile_append_dropWhile (p := Char.isDigit) (l := s ++ t)
    have h' := List.takeWhile_append_dropWhile (p := Char.isDigit) (l := s)
    rw [htake] at h
    have hsame : s.takeWhile Char.isDigit ++ (s ++ t).dropWhile Char.isDigit =
        s.takeWhile Char.isDigit ++ (s.dropWhile Char.isDigit ++ t) := by
      rw [h, ← List.append_assoc, h']
    exact List.append_cancel_left hsame
  unfold decimalParts?
  simp only [htake, hdrop]
  rcases hs : s.dropWhile Char.isDigit with _ | ⟨c, rest⟩
  · rcases t with _ | ⟨d, t⟩
    · rfl
    · have hpoint : d ≠ '.' := by
        rintro rfl
        simp [goesOn] at ht
      simp [hpoint]
  · by_cases hc : c = '.'
    · subst hc
      simp [htake]
    · simp [hc]

theorem FiniteNumeral.append (hs : FiniteNumeral s) (ht : t.head?.any goesOn = false) :
    FiniteNumeral (s ++ t) := by
  intro n d hd
  rw [Terminal.decimalLexeme?, decimalParts?_append_of_goesOn s ht] at hd
  exact hs n d hd

theorem NumeralsFit.append (hs : NumeralsFit s) (ht : NumeralsFit t)
    (hhead : t.head?.any goesOn = false) : NumeralsFit (s ++ t) := by
  intro x y hxy hx
  -- the cut lies in `t` or in `s`; at the seam there is no number
  obtain ⟨z, rfl, rfl⟩ | ⟨z, rfl, rfl⟩ := List.append_eq_append_iff.1 hxy
  · rcases z with _ | ⟨c, z⟩
    · exact finiteNumeral_of_head? (any_isDigit_of_goesOn hhead)
    · refine ht (c :: z) y rfl ?_
      rwa [List.getLast?_append_of_ne_nil _ (List.cons_ne_nil c z)] at hx
  · exact (hs x z rfl hx).append hhead

theorem NumeralsFit.cons {c : Char} (hc : c.isDigit = false) (ht : NumeralsFit t) :
    NumeralsFit (c :: t) := by
  intro x y hxy hx
  rcases x with _ | ⟨d, x⟩
  · obtain rfl : c :: t = y := hxy
    exact finiteNumeral_of_head? hc
  · obtain ⟨rfl, rfl⟩ := List.cons.inj hxy
    rcases x with _ | ⟨d, x⟩
    · exact ht [] y rfl rfl
    · exact ht (d :: x) y rfl hx

/-- There is no number behind the first character where everything goes on. -/
theorem numeralsFit_of_goesOn (hs : ∀ c ∈ s, goesOn c = true) (h : FiniteNumeral s) :
    NumeralsFit s := by
  rintro x y rfl hx
  rcases x with _ | ⟨c, x⟩
  · exact h
  · have hlast := any_getLast? (List.cons_ne_nil c x) fun d hd => hs d (List.mem_append_left y hd)
    rw [hlast] at hx
    exact absurd hx.symm Bool.false_ne_true

theorem NumeralsFit.behind (ht : NumeralsFit t) (hs : ∀ c ∈ s, c.isDigit = false) :
    NumeralsFit (s ++ t) := by
  induction s with
  | nil => exact ht
  | cons c s ih => exact .cons (hs c (by simp)) (ih fun d hd => hs d (List.mem_cons_of_mem c hd))

theorem numeralsFit_of_no_digit (hs : ∀ c ∈ s, c.isDigit = false) : NumeralsFit s := by
  have hnil : NumeralsFit [] := numeralsFit_of_goesOn (by simp) (finiteNumeral_of_head? rfl)
  simpa using hnil.behind hs

/-! ### Views -/

namespace View

variable {v : View}

/-- A number in front would not go on from what is before. -/
def Starts (v : View) : Prop :=
  v.before.any goesOn = true → v.rest.head?.any Char.isDigit = false

/-- All numbers ahead are finite. -/
def Fits (v : View) : Prop :=
  ∀ n, (v.advance n).before.any goesOn = false → FiniteNumeral (v.advance n).rest

/-- All numbers ahead are finite; if the truth value holds, a number may begin here. -/
def Bounded (starts : Bool) (v : View) : Prop := v.Fits ∧ (starts = true → v.Starts)

theorem advance_advance (v : View) (m n : Nat) : (v.advance m).advance n = v.advance (m + n) := by
  cases m with
  | zero => rw [Nat.zero_add, advance_zero]
  | succ m =>
    cases n with
    | zero => rfl
    | succ n =>
      rw [← Nat.add_assoc]
      simp [View.advance, Nat.add_comm, Nat.add_left_comm]

theorem Fits.advance (h : v.Fits) (m : Nat) : (v.advance m).Fits := by
  intro n hn
  rw [advance_advance] at hn ⊢
  exact h _ hn

theorem Fits.finiteNumeral (h : v.Fits) (hs : v.Starts) : FiniteNumeral v.rest := by
  by_cases hb : v.before.any goesOn = true
  · exact finiteNumeral_of_head? (hs hb)
  · exact h 0 (by simpa using hb)

theorem fits_of_numeralsFit {text : List Char} (h : NumeralsFit text) (b : Option Char) :
    Fits ⟨b, text⟩ := by
  intro n hn
  rw [rest_advance]
  cases n with
  | zero => exact h [] text rfl rfl
  | succ n =>
    by_cases hlt : n < text.length
    · refine h (text.take (n + 1)) _ (List.take_append_drop _ _).symm ?_
      rw [List.take_add_one, List.getElem?_eq_getElem hlt, Option.toList_some,
        List.getLast?_concat]
      simpa [View.advance, hlt] using hn
    · rw [List.drop_of_length_le (show text.length ≤ n + 1 by omega)]
      exact finiteNumeral_of_head? rfl

theorem starts_of_before (h : v.before.any goesOn = false) : v.Starts := fun hb => by
  rw [h] at hb
  exact absurd hb Bool.false_ne_true

theorem starts_of_head? (h : v.rest.head?.any isNameChar = false) : v.Starts := fun _ => by
  rcases hr : v.rest with _ | ⟨c, cs⟩
  · rfl
  · rw [hr] at h
    rw [Bool.eq_false_iff]
    exact fun hc => Bool.false_ne_true (h.symm.trans (isNameChar_of_isDigit hc))

/-- Behind a name a number may begin. -/
theorem starts_of_append {name rest : List Char} (h : v.rest = name ++ rest)
    (hnext : rest.head?.any isNameChar = false) : (v.advance name.length).Starts := by
  refine starts_of_head? ?_
  rw [rest_advance, h, List.drop_left]
  exact hnext

/-- Blanks and comments end with a blank, or with the text. -/
theorem isBlank_of_blankLength {b : Bool} {cs : List Char} {n : Nat}
    (h : blankLength b cs = n + 1) : (cs[n]?.any isBlank) = true ∨ cs.drop (n + 1) = [] := by
  -- the truth value says whether a comment is open; only a line feed or the end closes it
  induction cs generalizing b n with
  | nil => simp [blankLength] at h
  | cons c cs ih =>
    have hrest : ∀ b', 1 + blankLength b' cs = n + 1 →
        (blankLength b' cs = 0 → isBlank c = true ∨ cs = []) →
        ((c :: cs)[n]?.any isBlank) = true ∨ (c :: cs).drop (n + 1) = [] := by
      intro b' hn h0
      cases n with
      | zero => simpa using h0 (by omega)
      | succ n => simpa using ih (b := b') (by omega)
    -- an open comment takes every character
    have hnil : blankLength true cs = 0 → cs = [] := by
      intro h0
      cases cs with
      | nil => rfl
      | cons d cs => simp [blankLength] at h0
    cases b with
    | true =>
      refine hrest (c != '\n') (by simpa [blankLength] using h) fun h0 => ?_
      by_cases hc : c = '\n'
      · exact .inl (by rw [hc]; decide)
      · rw [bne_iff_ne.2 hc] at h0
        exact .inr (hnil h0)
    | false =>
      simp only [blankLength, Bool.false_eq_true, ↓reduceIte] at h
      split at h
      · rename_i hc
        exact hrest _ h fun _ => .inl hc
      · split at h
        · exact hrest _ h fun h0 => .inr (hnil h0)
        · omega

/-- Behind blanks a number may begin; where there are none, it depends on the place. -/
theorem starts_skipBlanks (h : blankLength false v.rest = 0 → v.Starts) : v.skipBlanks.Starts := by
  rw [skipBlanks]
  rcases hn : blankLength false v.rest with _ | n
  · exact h hn
  · obtain hb | hnil := isBlank_of_blankLength hn
    · refine starts_of_before ?_
      rw [View.advance]
      rcases hc : v.rest[n]? with _ | c
      · rfl
      · rw [hc] at hb
        exact goesOn_eq_false_of_isWideBlank (isWideBlank_of_isBlank hb)
    · refine starts_of_head? ?_
      rw [rest_advance, hnil]
      rfl

/-- Behind a separation a number may begin. -/
theorem starts_of_separates (h : v.separates = true) : v.skipBlanks.Starts := by
  refine starts_skipBlanks fun h0 => ?_
  simp only [separates, h0, Nat.lt_irrefl, decide_false, Bool.false_or, Bool.or_eq_true] at h
  obtain h | h := h
  · refine starts_of_before ?_
    rcases hb : v.before with _ | c
    · rfl
    · rw [hb] at h
      obtain rfl | h : c = ')' ∨ isWideBlank c = true := by simpa using h
      · rfl
      · exact goesOn_eq_false_of_isWideBlank h
  · refine starts_of_head? ?_
    rcases hr : v.rest with _ | ⟨c, cs⟩
    · rfl
    · rw [hr] at h
      obtain rfl | rfl : c = '(' ∨ c = ')' := by simpa using h
      all_goals rfl

end View

/-! ### Terminals -/

/-- A number may begin behind the word, wherever the word is found. -/
def EndsClear (w : String) : Prop :=
  w.toList.getLast?.any isNameChar = true ∨ IsWord w ∧ w.toList.getLast?.any goesOn = false

instance (w : String) : Decidable (EndsClear w) := inferInstanceAs (Decidable (_ ∨ _))

theorem starts_of_keywordLength? {w : String} (hw : EndsClear w) {v : View} {n : Nat}
    (h : keywordLength? w v.rest = some n) : (v.advance n).Starts := by
  obtain ⟨hlength, hnext⟩ := keywordLength?_eq_some.1 h
  obtain hlast | ⟨hword, hlast⟩ := hw
  · -- a name is not cut off
    refine View.starts_of_head? ?_
    rwa [hlast, Bool.true_and, ← View.rest_advance] at hnext
  · rw [hword.2] at hlength
    obtain ⟨rest, hrest, ⟨-, rfl⟩ | ⟨hne, -⟩⟩ := wordsLength?_cons.1 hlength
    · obtain ⟨c, cs, hc, -⟩ := (Rule.isHead_of_isWord hword).solid
      have hv := View.advance_append (t := w.toList) (by simp [hc]) v.before rest
      rw [← hrest] at hv
      rw [hv]
      exact View.starts_of_before hlast
    · exact absurd rfl hne

theorem any_head?_dropWhile (p : Char → Bool) (cs : List Char) :
    (cs.dropWhile p).head?.any p = false := by
  induction cs with
  | nil => rfl
  | cons c cs ih =>
    by_cases hc : p c = true
    · simpa [hc] using ih
    · simp [hc]

/-- No digit stands behind a decimal number. -/
theorem any_isDigit_drop_decimalLexeme {cs whole places : List Char}
    (h : decimalParts? cs = some (whole, places)) :
    (cs.drop (decimalLexeme whole places).length).head?.any Char.isDigit = false := by
  unfold decimalParts? at h
  simp only at h
  split at h
  · simp at h
  · split at h
    · rename_i rest hd
      obtain ⟨rfl, rfl⟩ := Prod.mk.inj (Option.some.inj h)
      by_cases he : rest.takeWhile Char.isDigit = []
      · simp [decimalLexeme, he, drop_takeWhile_length, hd]
      · have hlength : (decimalLexeme (cs.takeWhile Char.isDigit)
            (rest.takeWhile Char.isDigit)).length =
            (cs.takeWhile Char.isDigit).length + ((rest.takeWhile Char.isDigit).length + 1) := by
          simp [decimalLexeme, he]
        rw [hlength, ← List.drop_drop, drop_takeWhile_length, hd, List.drop_succ_cons,
          drop_takeWhile_length]
        exact any_head?_dropWhile _ _
    · obtain ⟨rfl, rfl⟩ := Prod.mk.inj (Option.some.inj h)
      simpa [decimalLexeme, drop_takeWhile_length] using any_head?_dropWhile Char.isDigit cs

namespace Terminal

variable {α : Type}

/-- Behind what the terminal takes a number may begin, given whether one may begin in front. -/
def starts : Terminal α → Bool → Bool
  | pure _, b => b
  | refuse _, _ => true
  | blanks, b => b
  | separator, _ => true
  | char c, _ => !goesOn c
  | word w, _ => decide (EndsClear w)
  | oneOf entries, _ => decide (∀ e ∈ entries, EndsClear e.1)
  | symbol _, _ => true
  | flag, _ => true
  | decimal, _ => true
  | integer, _ => true

theorem starts_of_lexeme? {t : Terminal α} {v : View} {b : Bool} (hv : b = true → v.Starts) {n : Nat}
    {a : α} (h : t.lexeme? v = some (n, a)) (ht : t.starts b = true) : (v.advance n).Starts := by
  cases t with
  | pure a =>
    obtain ⟨rfl, -⟩ := Prod.mk.inj (Option.some.inj h)
    exact hv ht
  | refuse e => simp [lexeme?] at h
  | blanks =>
    obtain ⟨rfl, -⟩ := Prod.mk.inj (Option.some.inj h)
    exact View.starts_skipBlanks fun _ => hv ht
  | separator =>
    simp only [lexeme?] at h
    split at h
    · rename_i hs
      obtain ⟨rfl, -⟩ := Prod.mk.inj (Option.some.inj h)
      exact View.starts_of_separates hs
    · simp at h
  | char c =>
    simp only [lexeme?] at h
    split at h
    · rename_i hc
      obtain ⟨rfl, -⟩ := Prod.mk.inj (Option.some.inj h)
      obtain ⟨rest, hr⟩ := rest_of_head? hc
      refine View.starts_of_before ?_
      simpa [View.advance, hr, starts] using ht
    · simp at h
  | word w =>
    obtain ⟨m, hm, h⟩ := Option.map_eq_some_iff.1 h
    obtain ⟨rfl, -⟩ := Prod.mk.inj h
    exact starts_of_keywordLength? (of_decide_eq_true ht) hm
  | oneOf entries =>
    obtain ⟨w, hw, hn⟩ := firstMatch?_eq_some h
    exact starts_of_keywordLength? (of_decide_eq_true ht _ (mem_longestFirst.1 hw)) hn
  | symbol kind =>
    obtain ⟨rest, hr, rfl, hnext⟩ := symbolLexeme?_eq_some h
    exact View.starts_of_append hr hnext
  | flag =>
    obtain ⟨lexeme, hl, h⟩ := Option.map_eq_some_iff.1 h
    obtain ⟨rfl, -⟩ := Prod.mk.inj h
    rcases hr : v.rest with _ | ⟨c, cs⟩
    · simp [hr, Token.lexeme?, markedLexeme?] at hl
    · simp only [hr, Token.lexeme?, markedLexeme?] at hl
      split at hl
      · obtain ⟨name, hn, rfl⟩ := Option.map_eq_some_iff.1 hl
        obtain ⟨rest, rfl, hnext, -⟩ := eq_append_of_nameLexeme? hn
        exact View.starts_of_append (hr.trans List.cons_append.symm) hnext
      · simp at hl
  | decimal =>
    intro _
    obtain ⟨⟨whole, places⟩, hp, h⟩ := Option.map_eq_some_iff.1 h
    obtain ⟨rfl, -⟩ := Prod.mk.inj h
    rw [View.rest_advance]
    exact any_isDigit_drop_decimalLexeme hp
  | integer =>
    intro _
    simp only [lexeme?, integerLexeme?] at h
    split at h
    · simp at h
    · obtain ⟨rfl, -⟩ := Prod.mk.inj (Option.some.inj h)
      rw [View.rest_advance, drop_takeWhile_length]
      exact any_head?_dropWhile _ _

end Terminal

/-! ### Readers -/

/-- The reading does not fail for a number that is too large, and all numbers behind what it finds are
finite; if the truth value holds, a number may begin there. -/
def Finding.Bounded {α : Type} (starts : Bool) : Finding α → Prop
  | found w _ => w.Bounded starts
  | infinite => False
  | _ => True

/-- The reader is bounded behind where the views in front are. -/
def Reader.Bounded {α : Type} (b b' : Bool) (r : Reader α) : Prop :=
  ∀ v : View, v.Bounded b → (r v).Bounded b'

theorem View.Bounded.mono {b b' : Bool} {v : View} (h : v.Bounded b) (hb : b' = true → b = true) :
    v.Bounded b' := ⟨h.1, fun h' => h.2 (hb h')⟩

theorem View.Bounded.advance {b b' : Bool} {v : View} (h : v.Bounded b) {n : Nat}
    (hs : b' = true → (v.advance n).Starts) : (v.advance n).Bounded b' := ⟨h.1.advance n, hs⟩

namespace Finding

variable {α β : Type} {b b' : Bool}

theorem Bounded.andThen {o : Finding α} {k : View → α → Finding β} (ho : o.Bounded b)
    (hk : ∀ {w a}, w.Bounded b → (k w a).Bounded b') : (o.andThen k).Bounded b' := by
  cases o with
  | found w a => exact hk ho
  | infinite => exact ho.elim
  | _ => trivial

theorem Bounded.orElse {o o' : Finding α} (ho : o.Bounded b) (ho' : o'.Bounded b) :
    (o.orElse o').Bounded b := by
  cases o with
  | missing => exact ho'
  | found w a => exact ho
  | infinite => exact ho.elim
  | _ => trivial

theorem Bounded.mono {o : Finding α} (h : o.Bounded b) (hb : b' = true → b = true) :
    o.Bounded b' := by
  cases o with
  | found w a => exact View.Bounded.mono h hb
  | infinite => exact h.elim
  | _ => trivial

end Finding

namespace Reader

variable {α β : Type} {b b' : Bool} {r : Reader α}

theorem bounded_opt (h : r.Bounded b b') : (opt r).Bounded b (b && b') := by
  intro v hv
  unfold opt
  refine .orElse ((h _ hv).andThen fun {w a} hw => ?_) ?_
  · exact View.Bounded.mono hw fun hb => (Bool.and_eq_true_iff.1 hb).2
  · exact View.Bounded.mono hv fun hb => (Bool.and_eq_true_iff.1 hb).1

theorem bounded_separated (h : r.Bounded true b') : (separated r).Bounded b b' := by
  intro v hv
  unfold separated
  split
  · rename_i hs
    exact h _ (hv.advance fun _ => View.starts_of_separates hs)
  · trivial

theorem bounded_separatedUnless (h : r.Bounded true b') (first : Bool) :
    (separatedUnless first r).Bounded true b' := by
  cases first with
  | false => exact bounded_separated h
  | true => exact h

theorem bounded_moreWithin (h : r.Bounded true true) (fuel : List Char) :
    (moreWithin r fuel).Bounded true true := by
  induction fuel with
  | nil => exact fun v hv => (bounded_opt (bounded_separated h) v hv).andThen fun _ => hv
  | cons c fuel ih =>
    refine fun v hv => (bounded_opt (bounded_separated h) v hv).andThen fun {w a?} hw => ?_
    rcases a? with _ | a
    · exact hv
    · simp only
      split
      · exact hv
      · exact (ih _ hw).andThen fun hw' => hw'

theorem bounded_emptyOr (h : r.Bounded b b') : (emptyOr r).Bounded b b' := by
  intro v hv
  unfold emptyOr
  rcases hl : emptyParensLength? v.rest with _ | n
  · exact (h _ hv).andThen fun hw => hw
  · refine hv.advance fun _ => View.starts_of_before ?_
    obtain ⟨blanks, rest, hr, -, rfl⟩ := emptyParensLength?_eq_some.1 hl
    simp [View.advance, hr, goesOn, isNameChar]

theorem bounded_groupsWithin {r : Reader (List α)} (h : r.Bounded true true) (fuel : List Char)
    (first : Bool) : (groupsWithin r first fuel).Bounded true true := by
  have ho := fun first => bounded_opt (bounded_separatedUnless h first)
  induction fuel generalizing first with
  | nil => exact fun v hv => (ho first v hv).andThen fun hw => hw
  | cons c fuel ih =>
    refine fun v hv => (ho first v hv).andThen fun {w as?} hw => ?_
    rcases as? with _ | as
    · exact hv
    · exact (ih _ _ hw).andThen fun hw' => hw'

theorem bounded_untypedTail {r : Reader (List α)} (h : r.Bounded true true) (first : Bool) :
    (untypedTail first r).Bounded true true := by
  refine fun v hv => (bounded_opt (bounded_separatedUnless h first) v hv).andThen fun {w as?} hw => ?_
  rcases as? with _ | as
  · exact hv
  · simp only
    split
    · exact hv
    · exact hw

theorem bounded_typedList (default : TypeSpec) {r : Reader (List (Typed α))} {s : Reader (List α)}
    (hr : r.Bounded true true) (hs : s.Bounded true true) :
    (typedList default r s).Bounded true true := fun _ hv =>
  (bounded_groupsWithin hr _ _ _ hv).andThen fun hw =>
    (bounded_untypedTail hs _ _ hw).andThen fun hw' => hw'

end Reader

/-! ### Grammars -/

namespace Grammar

variable {N : Type → Type} {α β : Type}

/-- Behind what the grammar finds a number may begin, given whether one may begin in front. -/
def starts {α : Type} : Grammar N α → Bool → Bool
  | terminal t, b => t.starts b
  | call _, _ => true
  | seq g h, b => h.starts (g.starts b)
  | refine _ g, b => g.starts b
  | orElse g h, b => g.starts b && h.starts b
  | opt g, b => b && g.starts b
  | more _, b => b
  | emptyOr g, b => g.starts b
  | typedList _ _ _, b => b

/-- The check of a decimal number fails for its size only if it is beyond every finite value. -/
def Rounds {α β : Type} (f : α → Except Complaint β) : Grammar N α → Prop
  | terminal .decimal => ∀ d x, Binary64.ofDecimal false d = .finite x → f d ≠ .error .infiniteNumber
  | _ => False

/-- The grammar looks for numbers only where one may begin, given whether one may begin where the
grammar does. -/
def Safe {α : Type} : Grammar N α → Bool → Prop
  | terminal _, _ => True
  | call _, b => b = true
  | seq g h, b => g.Safe b ∧ h.Safe (g.starts b)
  | refine f g, b => g.Safe b ∧ ((∀ a, f a ≠ .error .infiniteNumber) ∨ b = true ∧ g.Rounds f)
  | orElse g h, b => g.Safe b ∧ h.Safe b
  | opt g, b => g.Safe b
  | more g, b => b = true ∧ g.Safe true ∧ g.starts true = true
  | emptyOr g, b => g.Safe b
  | typedList _ group values, b =>
    b = true ∧ (group.Safe true ∧ group.starts true = true) ∧
      values.Safe true ∧ values.starts true = true

variable {read : {α : Type} → N α → Reader α}

theorem bounded_refine {f : α → Except Complaint β} {g : Grammar N α} {b : Bool}
    (hg : (g.denote read).Bounded b (g.starts b))
    (hf : (∀ a, f a ≠ .error .infiniteNumber) ∨ b = true ∧ g.Rounds f) :
    ((refine f g).denote read).Bounded b (g.starts b) := by
  intro v hv
  have h := hg _ hv
  show Finding.Bounded _ ((g.denote read v).andThen _)
  -- only the check of a decimal number can fail for its size, and the number in front is finite
  rcases ho : g.denote read v with ⟨w, a⟩ | _ | _ | _ | _
  · rw [ho] at h
    rcases hfa : f a with e | c
    · simp only [Finding.andThen, hfa]
      cases e with
      | infiniteNumber =>
        obtain hf | ⟨hb, hf⟩ := hf
        · exact absurd hfa (hf a)
        · cases g with
          | terminal t =>
            cases t with
            | decimal =>
              simp only [denote, Terminal.lexeme?] at ho
              rcases hd : Terminal.decimalLexeme? v.rest with _ | ⟨n, d⟩
              · rw [hd] at ho
                cases ho
              · rw [hd] at ho
                obtain ⟨-, rfl⟩ := Finding.found.inj ho
                obtain ⟨x, hx⟩ := hv.1.finiteNumeral (hv.2 hb) n d hd
                exact absurd hfa (hf d x hx)
            | _ => exact hf.elim
          | _ => exact hf.elim
      | _ => trivial
    · simp only [Finding.andThen, hfa]
      exact h
  all_goals first | trivial | (rw [ho] at h; exact h.elim)

/-- **Where all numbers ahead are finite, a grammar that looks for numbers only where one may begin does
not fail for a number that is too large.** -/
theorem bounded_denote (hn : ∀ {α : Type} (n : N α), (read n).Bounded true true)
    {g : Grammar N α} {b : Bool} (hg : g.Safe b) : (g.denote read).Bounded b (g.starts b) := by
  -- the truth value is carried along: it says whether a number may begin where a part does
  induction g generalizing b with
  | terminal t =>
    intro v hv
    simp only [denote]
    rcases hl : t.lexeme? v with _ | ⟨n, a⟩
    · trivial
    · exact hv.advance fun hs => t.starts_of_lexeme? hv.2 hl hs
  | call n =>
    obtain rfl : b = true := hg
    exact hn n
  | seq g h ihg ihh =>
    exact fun _ hv => (ihg hg.1 _ hv).andThen fun hw => (ihh hg.2 _ hw).andThen fun hw' => hw'
  | refine f g ih => exact bounded_refine (ih hg.1) hg.2
  | orElse g h ihg ihh =>
    exact fun _ hv => ((ihg hg.1 _ hv).mono fun hb => (Bool.and_eq_true_iff.1 hb).1).orElse
      ((ihh hg.2 _ hv).mono fun hb => (Bool.and_eq_true_iff.1 hb).2)
  | opt g ih => exact Reader.bounded_opt (ih hg)
  | more g ih =>
    obtain ⟨rfl, hsafe, hstarts⟩ := hg
    have h := ih hsafe
    rw [hstarts] at h
    exact fun v hv => Reader.bounded_moreWithin h v.rest v hv
  | emptyOr g ih => exact Reader.bounded_emptyOr (ih hg)
  | typedList default group values ihg ihv =>
    obtain ⟨rfl, ⟨hgroup, hgstarts⟩, hvalues, hvstarts⟩ := hg
    have hg := ihg hgroup
    have hv := ihv hvalues
    rw [hgstarts] at hg
    rw [hvstarts] at hv
    exact Reader.bounded_typedList default hg hv

/-! ### Forms -/

section

variable {g g' : Grammar N α} {h : Grammar N β} {b : Bool} {w : String}

@[simp] theorem starts_call (n : N α) : (call n).starts b = true := rfl

@[simp] theorem starts_seqRight : (g *> h).starts b = h.starts (g.starts b) := rfl

@[simp] theorem starts_symbol (kind : SymbolKind) :
    (symbol kind : Grammar N (Symbol kind)).starts b = true := rfl

@[simp] theorem starts_many : (many g).starts b = (b && g.starts b) := rfl

@[simp] theorem starts_map {f : α → β} : (f <$> g).starts b = g.starts b := rfl

@[simp] theorem starts_or : (g <|> g').starts b = (g.starts b && g'.starts b) := rfl

@[simp] theorem starts_parens : (parens g).starts b = true := rfl

@[simp] theorem starts_form : (form w g).starts b = true := rfl

@[simp] theorem safe_map {f : α → β} : (f <$> g).Safe b ↔ g.Safe b :=
  ⟨And.left, fun hg => ⟨hg, .inl nofun⟩⟩

@[simp] theorem safe_or : (g <|> g').Safe b ↔ g.Safe b ∧ g'.Safe b := Iff.rfl

@[simp] theorem safe_call (n : N α) : (call n).Safe true := rfl

@[simp] theorem safe_seq : (seq g h).Safe b ↔ g.Safe b ∧ h.Safe (g.starts b) := Iff.rfl

@[simp] theorem safe_seqLeft : (g <* h).Safe b ↔ g.Safe b ∧ h.Safe (g.starts b) :=
  safe_map.trans Iff.rfl

@[simp] theorem safe_seqRight : (g *> h).Safe b ↔ g.Safe b ∧ h.Safe (g.starts b) :=
  safe_map.trans Iff.rfl

@[simp] theorem safe_terminal (t : Terminal α) : (terminal t : Grammar N α).Safe b := trivial

@[simp] theorem safe_symbol (kind : SymbolKind) :
    (symbol kind : Grammar N (Symbol kind)).Safe b := trivial

@[simp] theorem safe_word (w : String) : (word w : Grammar N Unit).Safe b := trivial

@[simp] theorem safe_keyword (ω : Type) [Vocabulary ω] : (keyword ω : Grammar N ω).Safe b :=
  trivial

@[simp] theorem safe_number : (number : Grammar N Number).Safe true := by
  refine ⟨trivial, .inr ⟨rfl, fun d x hx => ?_⟩⟩
  simp [hx]

@[simp] theorem safe_padded : (padded g).Safe b ↔ g.Safe b := by
  simp [padded, blanks, starts, Terminal.starts]

@[simp] theorem safe_parens : (parens g).Safe b ↔ g.Safe true := by
  simp [parens, starts, Terminal.starts, goesOn, isNameChar]

@[simp] theorem safe_form (hw : EndsClear w) : (form w g).Safe b ↔ g.Safe true := by
  simp [form, word, blanks, starts, Terminal.starts, hw]

@[simp] theorem safe_separated : (separated g).Safe b ↔ g.Safe true := by
  simp [separated, separator, starts, Terminal.starts]

@[simp] theorem safe_optional : (optional g).Safe b ↔ g.Safe true := safe_separated

@[simp] theorem safe_emptyOr : (emptyOr g).Safe b ↔ g.Safe b := Iff.rfl

@[simp] theorem safe_labelled : (labelled w g).Safe b ↔ g.Safe true := by
  simp [labelled, separator, starts, Terminal.starts]

@[simp] theorem safe_pair : (pair g h).Safe b ↔ g.Safe b ∧ h.Safe true := by
  simp [pair]

@[simp] theorem safe_headed : (headed g h).Safe b ↔ g.Safe b ∧ h.Safe (g.starts b) := by
  simp [headed, blanks, starts, Terminal.starts]

@[simp] theorem safe_many1 : (many1 g).Safe true ↔ g.Safe true ∧ g.starts true = true := by
  rw [many1, safe_map, safe_seq]
  exact ⟨fun hg => ⟨hg.1, hg.2.2.2⟩, fun hg => ⟨hg.1, hg.2, hg.1, hg.2⟩⟩

@[simp] theorem safe_many : (many g).Safe true ↔ g.Safe true ∧ g.starts true = true := by
  rw [many, safe_map]
  exact safe_many1

@[simp] theorem safe_type : (type : Grammar N TypeSpec).Safe b := by
  simp (disch := decide) [type]

@[simp] theorem safe_itemsOf {default : TypeSpec} :
    (itemsOf default g).Safe true ↔ g.Safe true ∧ g.starts true = true := by
  refine ⟨fun hg => safe_many.1 hg.2.2.1, fun hg => ⟨rfl, ⟨?_, rfl⟩, safe_many.2 hg, ?_⟩⟩
  · simp [typedGroup, hg]
  · simp [hg]

@[simp] theorem safe_items : (items g).Safe true ↔ g.Safe true ∧ g.starts true = true :=
  safe_itemsOf

@[simp] theorem safe_parameters : (parameters : Grammar N (TypedList Variable)).Safe b := by
  simp [parameters]

@[simp] theorem safe_quantified (hw : EndsClear w) : (quantified w g).Safe b ↔ g.Safe true := by
  simp [quantified, hw]

end

end Grammar

/-! ### Rules -/

namespace Rule

open Grammar

variable {τ α : Type} {b : Bool}

theorem starts_production (n : Nonterminal α) : n.production.starts true = true := by
  cases n <;> decide

@[simp] theorem safe_term : Grammar.Safe term true := rfl

@[simp] theorem safe_expression : Grammar.Safe expression true := rfl

@[simp] theorem safe_goal : Grammar.Safe goal true := rfl

@[simp] theorem starts_primitiveEffect : Grammar.starts primitiveEffect b = true := rfl

@[simp] theorem safe_functionTerm : Grammar.Safe functionTerm b := by
  simp [functionTerm, term]

@[simp] theorem safe_atomicFormulaOf {g : Rule τ} :
    (atomicFormulaOf g).Safe b ↔ g.Safe true ∧ g.starts true = true := by
  simp (disch := decide) [atomicFormulaOf]

@[simp] theorem safe_literalOf {g : Rule τ} :
    (literalOf g).Safe b ↔ g.Safe true ∧ g.starts true = true := by
  simp (disch := decide) [literalOf]

@[simp] theorem safe_arithmetic {ρ : Type} {g : Rule (Expression ρ)} :
    (arithmetic g).Safe b ↔ g.Safe true ∧ g.starts true = true := by
  refine ⟨fun h => by simpa using h.1, fun h => ⟨by simpa using h, .inl fun ⟨op, e, es⟩ he => ?_⟩⟩
  obtain ⟨m, hm⟩ := Expression.exists_unmet he
  cases hm

@[simp] theorem safe_fluent : Grammar.Safe fluent b := by
  simp [fluent, term]

@[simp] theorem safe_comparison : Grammar.Safe comparison b := by
  simp [comparison]

@[simp] theorem safe_primitiveEffect : Grammar.Safe primitiveEffect b := by
  simp (disch := decide) [primitiveEffect, atomicFormula, term]

@[simp] theorem safe_consequent : Grammar.Safe consequent b := by
  simp (disch := decide) [consequent]

@[simp] theorem safe_timedGoal : Grammar.Safe timedGoal b := by
  simp (disch := decide) [timedGoal]

@[simp] theorem safe_timedEffect : Grammar.Safe timedEffect b := by
  simp (disch := decide) [timedEffect, durativeAssignment, durativeExpression, rate, elapsed]

@[simp] theorem safe_requirement : Grammar.Safe requirement b := by
  refine ⟨trivial, .inl fun flag => ?_⟩
  dsimp only
  rcases (Vocabulary.ofKeyword? flag : Option Requirement) <;> nofun

@[simp] theorem starts_requirement : Grammar.starts requirement b = true := rfl

theorem safe_production (n : Nonterminal α) : n.production.Safe true := by
  cases n with
  | term => simp [Nonterminal.production, termForms]
  | expression => simp [Nonterminal.production, expressionForms, expression]
  | durativeExpression =>
    simp [Nonterminal.production, durativeExpressionForms, durativeExpression]
  | metricExpression =>
    simp (disch := decide) [Nonterminal.production, metricExpressionForms, metricExpression]
  | goal =>
    simp (disch := decide) [Nonterminal.production, goalForms, goal, atomicFormula, literal, term]
  | preconditions =>
    simp (disch := decide) [Nonterminal.production, preconditionsForms, preconditions,
      preferredGoal, goal]
  | condition =>
    simp (disch := decide) [Nonterminal.production, conditionForms, condition, preferredTimedGoal]
  | effect => simp (disch := decide) [Nonterminal.production, effectForms, effects]
  | effects => simp (disch := decide) [Nonterminal.production, effectsForms, effect]
  | durativeEffect =>
    simp (disch := decide) [Nonterminal.production, durativeEffectForms, durativeEffect, condition]
  | durationBound =>
    simp (disch := decide) [Nonterminal.production, durationBoundForms, durationBound,
      durationValue]
  | constraint =>
    simp (disch := decide) [Nonterminal.production, constraintForms, constraint, operand]
  | operand => simp [Nonterminal.production, operandForms, constraint]
  | preferredConstraint =>
    simp (disch := decide) [Nonterminal.production, preferredConstraintForms, preferredConstraint,
      constraint]

theorem safe_of_named {whole : Bool} {g : Rule α} (h : Named whole g) : g.Safe true := by
  cases h <;>
    simp (disch := decide) [domain, problem, requirements, definition, atomicFormula, literal,
      atomicFormulaOf, literalOf, term, groundTerm, predicateSkeleton, functionSkeleton,
      comparison, durativeExpression, rate, elapsed, durativeAssignment, metricExpression,
      preferredGoal, preconditions, timedGoal, preferredTimedGoal, condition, effect, effects,
      durativeEffect, durationValue, durationBound, durationConstraint, constraint, operand,
      preferredConstraint, action, actionParameters, labelledOrEmpty, durativeAction,
      derivedPredicate, types, constants, predicates, timeless, groundLiteral, functions,
      domainConstraints, objects, initialFact, init, goalSection, problemConstraints, metric,
      length, parents]

end Rule

theorem Nonterminal.bounded_denote {α : Type} (levels : Nat) (n : Nonterminal α) :
    (n.denote levels).Bounded true true := by
  -- without a level nothing is read, so no number is
  induction levels generalizing α with
  | zero => exact fun _ _ => trivial
  | succ levels ih =>
    have h := Grammar.bounded_denote (fun n => ih n) (Rule.safe_production n)
    rw [Rule.starts_production n] at h
    exact h

namespace Rule

variable {whole : Bool} {α : Type} {g : Rule α} {text : List Char} {settings : Settings}

/-- Where all numbers fit, no reading fails for one that is too large. -/
theorem look_ne_infinite (hg : g.Safe true) (ht : NumeralsFit text) {b : Option Char}
    (hs : View.Starts ⟨b, text⟩) (levels : Nat) : g.look levels ⟨b, text⟩ ≠ .infinite := fun h => by
  have hbounded := Grammar.bounded_denote (fun n => n.bounded_denote levels) hg _
    ⟨View.fits_of_numeralsFit ht b, fun _ => hs⟩
  rw [show g.denote (Nonterminal.denote levels) ⟨b, text⟩ = .infinite from h] at hbounded
  exact hbounded

theorem read_ne_infiniteNumber (hg : Named whole g) (ht : NumeralsFit text) :
    g.read settings text ≠ .error .infiniteNumber := by
  intro h
  rw [read] at h
  split at h
  · rename_i e he
    obtain rfl := Except.error.inj h
    have hagree := parse_agrees (settled_of_named hg) (calm_ofText text settings.ceiling)
    rw [he] at hagree
    exact look_ne_infinite (safe_of_named hg) ht (View.starts_of_before rfl) _ hagree
  · dsimp only at h
    split at h <;> cases h

/-- **A text is read, or there is a mismatch, or it is too deep**, where all its numbers are finite. -/
theorem read_of_numeralsFit (hg : Named whole g) (ht : NumeralsFit text)
    {r : List Char → Except Failure α} (hr : r = g.read settings ∨ r = g.readOnStack settings) :
    (∃ a, r text = .ok a) ∨ (∃ m, r text = .error (.mismatch m)) ∨
      ∃ limit offset, r text = .error (.tooDeep limit offset) := by
  have hne : r text ≠ .error .infiniteNumber := by
    obtain rfl | rfl := hr
    · exact read_ne_infiniteNumber hg ht
    · rw [readOnStack]
      split
      · exact read_ne_infiniteNumber hg ht
      · split
        · nofun
        · exact read_ne_infiniteNumber hg ht
  rcases h : r text with (m | ⟨limit, offset⟩ | _) | a
  · exact .inr (.inl ⟨m, rfl⟩)
  · exact .inr (.inr ⟨limit, offset, rfl⟩)
  · exact absurd h hne
  · exact .inl ⟨a, rfl⟩

/-- Digits that belong to a name are no number. -/
theorem read_of_numeralsFit_metric :
    NumeralsFit "(:metric minimize(+ x9 15))".toList ∧
      ((∃ a, metric.read .standard "(:metric minimize(+ x9 15))".toList = .ok a) ∨
        (∃ m, metric.read .standard "(:metric minimize(+ x9 15))".toList = .error (.mismatch m)) ∨
        ∃ limit offset, metric.read .standard "(:metric minimize(+ x9 15))".toList =
          .error (.tooDeep limit offset)) := by
  have hdigits : ∀ s : List Char, s.all (fun c => !c.isDigit) = true →
      ∀ c ∈ s, c.isDigit = false := fun s hs c hc => by simpa using List.all_eq_true.1 hs c hc
  have hnumber : NumeralsFit ("15".toList ++ "))".toList) :=
    (numeralsFit_of_goesOn (List.all_eq_true.1 (by decide)) (by decide +kernel)).append
      (numeralsFit_of_no_digit (hdigits _ (by decide))) (by decide)
  have hname : NumeralsFit ("x9".toList ++ (" ".toList ++ ("15".toList ++ "))".toList))) :=
    (numeralsFit_of_goesOn (List.all_eq_true.1 (by decide)) (by decide +kernel)).append
      (hnumber.behind (hdigits _ (by decide))) (by decide)
  have hfit : NumeralsFit "(:metric minimize(+ x9 15))".toList :=
    hname.behind (s := "(:metric minimize(+ ".toList) (hdigits _ (by decide))
  exact ⟨hfit, read_of_numeralsFit .metric hfit (.inl rfl)⟩

/-- A number of four hundred digits is none of the three. -/
theorem read_infiniteNumber :
    read Grammar.number .standard (List.replicate 400 '9') = .error .infiniteNumber :=
  failure?_eq_some.1 (by decide +kernel)

end Rule

end Pddl
