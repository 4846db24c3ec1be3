import Pddl.Proofs.Progress

/-!
# Readings stay inside their parentheses

A construct that begins with a parenthesis is read up to the matching one, and nothing behind that
parenthesis takes part in the reading, not even in an alternative that fails.  Which grammars behave
like this can be read off their expression.

* `closes` : the characters end where a number of open forms are closed; what a comment holds does
  not count.
* `Phase` : before a construct, within some open forms, or behind the construct.
* `Grammar.next` : the phase behind what a grammar reads, if the grammar stays in its form.
* `Grammar.covers` : what is read from an opening parenthesis ends at the matching one.
* `Grammar.alike` : **two texts that agree up to the matching parenthesis are read alike.**
-/

namespace Pddl

/-! ### Open forms -/

/-- The characters end exactly where the given number of open forms and one more are closed, with a
comment open or not. -/
def closes : (inComment : Bool) → Nat → List Char → Bool
  | _, _, [] => false
  | true, k, c :: cs => closes (c != '\n') k cs
  | false, k, c :: cs =>
    if c == '(' then closes false (k + 1) cs
    else if c == ')' then
      match k with
      | 0 => cs.isEmpty
      | k + 1 => closes false k cs
    else closes (c == ';') k cs

theorem closes_plain {c : Char} (h : isPlain c = true) (k : Nat) (cs : List Char) :
    closes false k (c :: cs) = closes false k cs := by
  simp only [isPlain, Bool.and_eq_true, bne_iff_ne] at h
  simp [closes, h.1.1, h.1.2, beq_false_of_ne h.2]

theorem closes_append {p : List Char} (h : ∀ c ∈ p, isPlain c = true) (k : Nat) (cs : List Char) :
    closes false k (p ++ cs) = closes false k cs := by
  induction p with
  | nil => rfl
  | cons c p ih =>
    rw [List.cons_append, closes_plain (h c (by simp)), ih fun d hd => h d (List.mem_cons_of_mem _ hd)]

theorem closes_open (k : Nat) (cs : List Char) :
    closes false k ('(' :: cs) = closes false (k + 1) cs := rfl

theorem closes_close (k : Nat) (cs : List Char) :
    closes false (k + 1) (')' :: cs) = closes false k cs := rfl

theorem closes_close_zero {cs : List Char} : closes false 0 (')' :: cs) = true ↔ cs = [] := by
  simp [closes]

theorem ne_nil_of_closes {b : Bool} {k : Nat} {x : List Char} (h : closes b k x = true) :
    x ≠ [] := by
  rintro rfl
  simp [closes] at h

theorem close_mem_of_closes {b : Bool} {k : Nat} {x : List Char} (h : closes b k x = true) :
    ')' ∈ x := by
  induction x generalizing b k with
  | nil => simp [closes] at h
  | cons c x ih =>
    cases b with
    | true => exact List.mem_cons_of_mem _ (ih h)
    | false =>
      simp only [closes] at h
      split at h
      · exact List.mem_cons_of_mem _ (ih h)
      · split at h
        · rename_i hc
          rw [beq_iff_eq] at hc
          simp [hc]
        · exact List.mem_cons_of_mem _ (ih h)

theorem isPlain_of_isBlank {c : Char} (h : isBlank c = true) : isPlain c = true :=
  isPlain_of_isWideBlank (isWideBlank_of_isBlank h)

/-- Blanks and comments end before the form does, whatever stands behind the form. -/
theorem blankLength_append {b : Bool} {k : Nat} {x : List Char} (s : List Char)
    (h : closes b k x = true) : blankLength b (x ++ s) = blankLength b x := by
  induction x generalizing b with
  | nil => simp [closes] at h
  | cons c x ih =>
    simp only [List.cons_append, blankLength]
    cases b with
    | true =>
      simp only [closes] at h
      simp [ih h]
    | false =>
      simp only [Bool.false_eq_true, ↓reduceIte]
      split
      · rename_i hb
        rw [closes_plain (isPlain_of_isBlank hb)] at h
        rw [ih h]
      · split
        · rename_i hc
          rw [beq_iff_eq] at hc
          subst hc
          rw [ih (b := true) (by simpa [closes] using h)]
        · rfl

/-- Blanks and comments close nothing. -/
theorem closes_drop_blankLength {b : Bool} {k : Nat} {x : List Char} (h : closes b k x = true) :
    closes false k (x.drop (blankLength b x)) = true := by
  induction x generalizing b with
  | nil => simp [closes] at h
  | cons c x ih =>
    simp only [blankLength]
    cases b with
    | true =>
      simp only [closes] at h
      simpa [Nat.add_comm 1] using ih h
    | false =>
      simp only [Bool.false_eq_true, ↓reduceIte]
      split
      · rename_i hb
        rw [closes_plain (isPlain_of_isBlank hb)] at h
        simpa [Nat.add_comm 1] using ih h
      · split
        · rename_i hc
          rw [beq_iff_eq] at hc
          subst hc
          simpa [Nat.add_comm 1] using ih (b := true) (by simpa [closes] using h)
        · simpa using h

/-- Blanks and comments in front of what closes some forms leave that so. -/
theorem closes_blanks_append {b : Bool} {k : Nat} {cs z s : List Char}
    (hz : cs.drop (blankLength b cs) = z ++ s) (h : closes false k z = true) :
    closes b k (cs.take (blankLength b cs) ++ z) = true := by
  have hne : z ≠ [] := ne_nil_of_closes h
  induction cs generalizing b with
  | nil => simp_all [blankLength]
  | cons c cs ih =>
    simp only [blankLength] at hz ⊢
    cases b with
    | true =>
      simp only [↓reduceIte, Nat.add_comm 1, List.drop_succ_cons] at hz
      simpa [Nat.add_comm 1, closes] using ih hz
    | false =>
      simp only [Bool.false_eq_true, ↓reduceIte] at hz ⊢
      split at hz
      · rename_i hb
        simp only [Nat.add_comm 1, List.drop_succ_cons] at hz
        simp only [hb, ↓reduceIte, Nat.add_comm 1, List.take_succ_cons, List.cons_append]
        rw [closes_plain (isPlain_of_isBlank hb)]
        exact ih hz
      · rename_i hb
        split at hz
        · rename_i hc
          simp only [Nat.add_comm 1, List.drop_succ_cons] at hz
          simp only [hb, Bool.false_eq_true, hc, ↓reduceIte, Nat.add_comm 1, List.take_succ_cons,
            List.cons_append]
          rw [beq_iff_eq] at hc
          subst hc
          simpa [closes] using ih hz
        · rename_i hc
          simpa [hb, hc] using h

/-! ### Phases -/

/-- Where a reading stands: before a construct, within the forms that were opened on the way, or
behind the construct. -/
inductive Phase where
  | before
  | within (opened : Nat)
  | behind
  deriving DecidableEq

namespace Phase

/-- The characters are what is left of a construct that stands in a number of other forms. -/
def Spans (outer : Nat) : Phase → List Char → Prop
  | before, x => ∃ y, x = '(' :: y ∧ closes false 0 y = true
  | within k, x => closes false (outer + k) x = true
  | behind, x => x = []

/-- The phase behind a construct that stands by itself. -/
def token : Phase → Option Phase
  | before => some behind
  | within k => some (within k)
  | behind => none

/-- The phase behind what may only stand within a form. -/
def inner : Phase → Option Phase
  | within k => some (within k)
  | _ => none

/-- The phase behind a character. -/
def character (c : Char) : Phase → Option Phase
  | before => if c = '(' then some (within 0) else none
  | within k =>
    if c = '(' then some (within (k + 1))
    else if c = ')' then
      match k with
      | 0 => some behind
      | k + 1 => some (within k)
    else if isPlain c then some (within k) else none
  | behind => none

theorem token_ne_before {φ : Phase} : φ.token ≠ some before := by
  cases φ <;> simp [token]

theorem inner_ne_before {φ : Phase} : φ.inner ≠ some before := by
  cases φ <;> simp [inner]

theorem inner_eq_some {φ ψ : Phase} : φ.inner = some ψ ↔ ∃ k, φ = within k ∧ ψ = within k := by
  cases φ <;> simp [inner, eq_comm]

theorem eq_close_of_character {c : Char} {φ : Phase} (h : φ.character c = some behind) : c = ')' := by
  cases φ with
  | before => simp only [character] at h; split at h <;> simp at h
  | within k =>
    simp only [character] at h
    split at h
    · simp at h
    · split at h
      · assumption
      · split at h <;> simp at h
  | behind => simp [character] at h

theorem character_ne_before {c : Char} {φ : Phase} : φ.character c ≠ some before := by
  cases φ with
  | within k =>
    simp only [character]
    split
    · simp
    · split
      · split <;> simp
      · split <;> simp
  | _ => simp [character]

end Phase

/-- The phase behind a terminal, if the terminal stays in its form. -/
def Terminal.next {α : Type} : Terminal α → Phase → Option Phase
  | pure _, φ => φ.inner
  | refuse _, φ => φ.token
  | blanks, φ => φ.inner
  | separator, φ => φ.inner
  | char c, φ => φ.character c
  | word w, φ => if IsPlainWord w then φ.token else none
  | oneOf entries, φ => if ∀ e ∈ entries, IsPlainWord e.1 then φ.token else none
  | symbol _, φ => φ.token
  | flag, φ => φ.token
  | decimal, φ => φ.token
  | integer, φ => φ.token

/-- How a terminal can take a reading from one phase to another. -/
inductive Terminal.Moves (φ ψ : Phase) : {α : Type} → Terminal α → Prop
  | pure {α : Type} (a : α) : φ.inner = some ψ → Moves φ ψ (pure a)
  | blanks : φ.inner = some ψ → Moves φ ψ blanks
  | separator : φ.inner = some ψ → Moves φ ψ separator
  | char (c : Char) : φ.character c = some ψ → Moves φ ψ (char c)
  | lexeme {α : Type} {t : Terminal α} {f : Recogniser α} : f.Contained →
      (∀ v, t.lexeme? v = f v.rest) → φ.token = some ψ → Moves φ ψ t

theorem Terminal.moves_of_next {α : Type} {t : Terminal α} {φ ψ : Phase}
    (h : t.next φ = some ψ) : t.Moves φ ψ := by
  cases t with
  | pure a => exact .pure a h
  | refuse e =>
    exact .lexeme (f := fun _ => none) ⟨nofun, nofun, nofun, fun _ _ => rfl⟩ (fun _ => rfl) h
  | blanks => exact .blanks h
  | separator => exact .separator h
  | char c => exact .char c h
  | word w =>
    simp only [next] at h
    split at h
    · rename_i hw
      exact .lexeme (contained_keyword hw) (fun _ => rfl) h
    · simp at h
  | oneOf entries =>
    simp only [next] at h
    split at h
    · rename_i he
      exact .lexeme (contained_oneOf he) (fun _ => rfl) h
    · simp at h
  | symbol kind => exact .lexeme (contained_symbolLexeme? kind) (fun _ => rfl) h
  | flag => exact .lexeme contained_flagLexeme? (fun _ => rfl) h
  | decimal => exact .lexeme contained_decimalLexeme? (fun _ => rfl) h
  | integer => exact .lexeme contained_integerLexeme? (fun _ => rfl) h

/-- The phase behind what a grammar reads, if the grammar stays in its form. -/
def Grammar.next {N : Type → Type} {α : Type} : Grammar N α → Phase → Option Phase
  | terminal t, φ => t.next φ
  | call _, φ => φ.token
  | seq g h, φ => (g.next φ).bind h.next
  | refine _ g, φ => g.next φ
  | orElse g h, φ => if g.next φ = h.next φ then g.next φ else none
  | opt g, φ => if g.next φ = φ.inner then φ.inner else none
  | more g, φ => if g.next φ = φ.inner then φ.inner else none
  | emptyOr g, φ => if g.next φ = φ.token then φ.token else none
  | typedList _ group values, φ =>
    if group.next φ = φ.inner ∧ values.next φ = φ.inner ∧ group.consumes then φ.inner else none

namespace Grammar

variable {N : Type → Type} {α : Type}

theorem next_behind (g : Grammar N α) : g.next .behind = none := by
  induction g with
  | terminal t => cases t <;> simp [next, Terminal.next, Phase.token, Phase.inner, Phase.character]
  | call n => rfl
  | seq g h ihg _ => simp [next, ihg]
  | refine f g ih => simpa [next] using ih
  | orElse g h ihg _ => simp [next, ihg]
  | opt g ih => simp [next, ih, Phase.inner]
  | more g ih => simp [next, ih, Phase.inner]
  | emptyOr g ih => simp [next, ih, Phase.token]
  | typedList default group values ihg ihv => simp [next, ihg, ihv, Phase.inner]

theorem next_ne_before (g : Grammar N α) (φ : Phase) : g.next φ ≠ some .before := by
  induction g generalizing φ with
  | terminal t =>
    cases t with
    | char c => exact Phase.character_ne_before
    | word w => simp only [next, Terminal.next]; split <;> simp [Phase.token_ne_before]
    | oneOf entries => simp only [next, Terminal.next]; split <;> simp [Phase.token_ne_before]
    | _ => simp [next, Terminal.next, Phase.token_ne_before, Phase.inner_ne_before]
  | call n => exact Phase.token_ne_before
  | seq g h ihg ihh =>
    simp only [next, ne_eq, Option.bind_eq_some_iff, not_exists, not_and]
    exact fun ψ _ => ihh ψ
  | refine f g ih => exact ih φ
  | orElse g h ihg _ => simp only [next]; split <;> simp [ihg]
  | opt g _ => simp only [next]; split <;> simp [Phase.inner_ne_before]
  | more g _ => simp only [next]; split <;> simp [Phase.inner_ne_before]
  | emptyOr g _ => simp only [next]; split <;> simp [Phase.token_ne_before]
  | typedList default group values _ _ =>
    simp only [next]; split <;> simp [Phase.inner_ne_before]

end Grammar

/-! ### What is read ends at the matching parenthesis -/

/-- What is read from one view to another takes the reading from one phase to another: a construct
without parentheses, or what was left of the construct without what is still left of it. -/
def Covers (outer : Nat) (φ ψ : Phase) (v w : View) : Prop :=
  ∃ p, v.rest = p ++ w.rest ∧
    (φ = .before ∧ ψ = .behind ∧ v.rest.head? ≠ some '(' ∧ w.before ≠ some ')' ∨
      (ψ = .behind → w.before = some ')') ∧
        ∀ z s, w.rest = z ++ s → ψ.Spans outer z → φ.Spans outer (p ++ z))

/-- The outer forms count only for what neither begins nor ends a construct. -/
def Phase.Fits (outer : Nat) (φ ψ : Phase) : Prop := φ = before ∨ ψ = behind → outer = 0

namespace Covers

variable {outer : Nat} {φ χ ψ : Phase} {v w u : View}

theorem refl (k : Nat) : Covers outer (.within k) (.within k) v v :=
  ⟨[], rfl, .inr ⟨nofun, fun _ _ _ h => h⟩⟩

theorem trans (h : Covers outer φ χ v w) (k : Covers outer χ ψ w u) (hb : χ ≠ .behind)
    (ha : χ ≠ .before) : Covers outer φ ψ v u := by
  obtain ⟨p, hp, ⟨-, hχ, -⟩ | ⟨-, hp'⟩⟩ := h
  · exact absurd hχ hb
  obtain ⟨q, hq, ⟨hχ, -, -⟩ | ⟨hb', hq'⟩⟩ := k
  · exact absurd hχ ha
  refine ⟨p ++ q, by rw [hp, hq, List.append_assoc], .inr ⟨hb', fun z s hz hs => ?_⟩⟩
  rw [List.append_assoc]
  exact hp' (q ++ z) s (by rw [hq, hz, List.append_assoc]) (hq' z s hz hs)

/-- A lexeme of plain characters. -/
theorem of_contained {α : Type} {f : Recogniser α} (hf : f.Contained) {n : Nat} {a : α}
    (h : f v.rest = some (n, a)) (ht : φ.token = some ψ) : Covers outer φ ψ v (v.advance n) := by
  have hpos := hf.pos h
  have hle := hf.le h
  have hplain := hf.plain h
  refine ⟨v.rest.take n, by simp, ?_⟩
  cases φ with
  | before =>
    obtain rfl := Option.some.inj ht
    obtain ⟨m, rfl⟩ : ∃ m, n = m + 1 := ⟨n - 1, by omega⟩
    have hmem : ∀ k c, k < m + 1 → v.rest[k]? = some c → isPlain c = true := by
      intro k c hk hc
      refine hplain _ (List.mem_iff_getElem?.2 ⟨k, ?_⟩)
      rw [List.getElem?_take_of_lt hk]
      exact hc
    refine .inl ⟨rfl, rfl, fun hc => ?_, fun hc => ?_⟩
    · rw [List.head?_eq_getElem?] at hc
      exact absurd (hmem 0 _ (by omega) hc) (by decide)
    · exact absurd (hmem m _ (by omega) hc) (by decide)
  | within k =>
    obtain rfl := Option.some.inj ht
    refine .inr ⟨nofun, fun z s _ hz => ?_⟩
    simp only [Phase.Spans] at hz ⊢
    rw [closes_append hplain]
    exact hz
  | behind => simp [Phase.token] at ht

end Covers

/-- A character that is expected and there. -/
theorem rest_of_head? {v : View} {c : Char} (h : v.rest.head? = some c) :
    ∃ rest, v.rest = c :: rest := by
  rcases hv : v.rest with _ | ⟨d, rest⟩
  · simp [hv] at h
  · simp only [hv, List.head?_cons, Option.some.injEq] at h
    exact ⟨rest, by rw [h]⟩

theorem Covers.blanks {outer k : Nat} {v : View} :
    Covers outer (.within k) (.within k) v (v.advance (blankLength false v.rest)) :=
  ⟨v.rest.take (blankLength false v.rest), by simp,
    .inr ⟨nofun, fun _ _ hz hs => closes_blanks_append (by simpa using hz) hs⟩⟩

theorem Covers.character {outer : Nat} {φ ψ : Phase} {c : Char} {v : View}
    (ht : φ.character c = some ψ) (hfit : Phase.Fits outer φ ψ) (h : v.rest.head? = some c) :
    Covers outer φ ψ v (v.advance 1) := by
  obtain ⟨rest, hr⟩ := rest_of_head? h
  refine ⟨[c], by simp [hr], .inr ⟨fun hb => ?_, fun z s hz hs => ?_⟩⟩
  · obtain rfl : c = ')' := Phase.eq_close_of_character (hb ▸ ht)
    simp [View.advance, hr]
  cases φ with
  | before =>
    simp only [Phase.character] at ht
    split at ht
    · rename_i hc
      obtain rfl := Option.some.inj ht
      obtain rfl := hfit (.inl rfl)
      exact ⟨z, by rw [hc]; rfl, by simpa [Phase.Spans] using hs⟩
    · simp at ht
  | within k =>
    simp only [Phase.character] at ht
    split at ht
    · rename_i hc
      obtain rfl := Option.some.inj ht
      rw [hc]
      exact hs
    · split at ht
      · rename_i hc
        rw [hc]
        rcases k with _ | k
        · obtain rfl := Option.some.inj ht
          obtain rfl := hfit (.inr rfl)
          exact closes_close_zero.2 hs
        · obtain rfl := Option.some.inj ht
          exact hs
      · split at ht
        · rename_i hc
          obtain rfl := Option.some.inj ht
          simp only [Phase.Spans, List.cons_append, List.nil_append] at hs ⊢
          rw [closes_plain hc]
          exact hs
        · simp at ht
  | behind => simp [Phase.character] at ht

theorem Terminal.covers {α : Type} {t : Terminal α} {outer : Nat} {φ ψ : Phase}
    (ht : t.next φ = some ψ) (hfit : Phase.Fits outer φ ψ) {v : View} {n : Nat} {a : α}
    (h : t.lexeme? v = some (n, a)) : Covers outer φ ψ v (v.advance n) := by
  cases moves_of_next ht with
  | pure b hi =>
    obtain ⟨rfl, -⟩ := Prod.mk.inj (Option.some.inj h)
    obtain ⟨k, rfl, rfl⟩ := Phase.inner_eq_some.1 hi
    exact .refl k
  | blanks hi =>
    obtain ⟨rfl, -⟩ := Prod.mk.inj (Option.some.inj h)
    obtain ⟨k, rfl, rfl⟩ := Phase.inner_eq_some.1 hi
    exact .blanks
  | separator hi =>
    simp only [lexeme?] at h
    split at h
    · obtain ⟨rfl, -⟩ := Prod.mk.inj (Option.some.inj h)
      obtain ⟨k, rfl, rfl⟩ := Phase.inner_eq_some.1 hi
      exact .blanks
    · simp at h
  | char c hc =>
    simp only [lexeme?] at h
    split at h
    · obtain ⟨rfl, -⟩ := Prod.mk.inj (Option.some.inj h)
      exact .character hc hfit ‹_›
    · simp at h
  | lexeme hf he hφ => exact .of_contained hf (he v ▸ h) hφ

/-- Whatever the reader finds takes the reading from one phase to another. -/
def Reader.Covers {α : Type} (outer : Nat) (φ ψ : Phase) (r : Reader α) : Prop :=
  ∀ v w a, r v = .found w a → Pddl.Covers outer φ ψ v w

namespace Reader

variable {α β : Type} {outer k : Nat}

/-- Within some open forms, longer readings are put together of shorter ones. -/
theorem path_covers : View.Path (Pddl.Covers outer (.within k) (.within k)) where
  refl _ := .refl k
  trans h h' := h.trans h' (by simp) (by simp)
  skipBlanks _ := .blanks

theorem covers_emptyParens {φ ψ : Phase} (ht : φ.token = some ψ) {v : View} {n : Nat}
    (hn : emptyParensLength? v.rest = some n) : Pddl.Covers outer φ ψ v (v.advance n) := by
  obtain ⟨blanks, rest, hr, hb, rfl⟩ := emptyParensLength?_eq_some.1 hn
  have hp : ∀ c ∈ blanks, isPlain c = true := fun c hc => isPlain_of_isWideBlank (hb c hc)
  refine ⟨'(' :: (blanks ++ [')']), by simp [hr],
    .inr ⟨fun _ => by simp [View.advance, hr], fun z s _ hz => ?_⟩⟩
  cases φ with
  | before =>
    obtain rfl := Option.some.inj ht
    obtain rfl : z = [] := hz
    exact ⟨blanks ++ [')'], by simp, by rw [closes_append hp]; rfl⟩
  | within j =>
    obtain rfl := Option.some.inj ht
    simp only [Phase.Spans, List.cons_append, List.append_assoc, List.nil_append] at hz ⊢
    rw [closes_open, closes_append hp, closes_close]
    exact hz
  | behind => simp [Phase.token] at ht

end Reader

/-- What is read from an opening parenthesis ends at the matching one, and what is read within some
open forms stays within them. -/
theorem Grammar.covers {N : Type → Type} {read : {α : Type} → N α → Reader α}
    (hn : ∀ {α : Type} (n : N α) {outer : Nat} {φ ψ : Phase}, φ.token = some ψ →
      Phase.Fits outer φ ψ → (read n).Covers outer φ ψ)
    {α : Type} (g : Grammar N α) {outer : Nat} {φ ψ : Phase} (hg : g.next φ = some ψ)
    (hfit : Phase.Fits outer φ ψ) : (g.denote read).Covers outer φ ψ := by
  induction g generalizing φ ψ with
  | terminal t =>
    intro v w a h
    rcases hl : t.lexeme? v with _ | ⟨n, b⟩
    · simp [denote, hl, Finding.lexeme] at h
    · simp only [denote, hl, Finding.lexeme] at h
      obtain ⟨rfl, rfl⟩ := Finding.found.inj h
      exact t.covers hg hfit hl
  | call n => exact hn n hg hfit
  | seq g h ihg ihh =>
    intro v w ab hab
    obtain ⟨χ, hχ, hψ⟩ := Option.bind_eq_some_iff.1 hg
    obtain ⟨u, hu, hw⟩ := Reader.seq_eq_found.1 hab
    have hb : χ ≠ .behind := by rintro rfl; simp [next_behind] at hψ
    have ha : χ ≠ .before := by rintro rfl; exact next_ne_before g φ hχ
    exact .trans (ihg hχ (fun h => hfit (h.imp_right fun h => absurd h hb)) _ _ _ hu)
      (ihh hψ (fun h => hfit (h.imp_left fun h => absurd h ha)) _ _ _ hw) hb ha
  | refine f g ih =>
    intro v w b hb
    obtain ⟨a, ha, -⟩ := Reader.refine_eq_found.1 hb
    exact ih hg hfit v w a ha
  | orElse g h ihg ihh =>
    intro v w a ha
    simp only [next] at hg
    split at hg
    · rename_i heq
      obtain ha | ⟨-, ha⟩ := Finding.orElse_eq_found.1 ha
      · exact ihg hg hfit v w a ha
      · exact ihh (heq ▸ hg) hfit v w a ha
    · simp at hg
  | opt g ih =>
    simp only [next] at hg
    split at hg
    · rename_i heq
      obtain ⟨k, rfl, rfl⟩ := Phase.inner_eq_some.1 hg
      exact fun _ _ _ h => Reader.follows_opt Reader.path_covers (ih heq hfit _ _ _) h
    · simp at hg
  | more g ih =>
    simp only [next] at hg
    split at hg
    · rename_i heq
      obtain ⟨k, rfl, rfl⟩ := Phase.inner_eq_some.1 hg
      exact fun _ _ _ h => Reader.follows_moreWithin Reader.path_covers (ih heq hfit _ _ _) _ h
    · simp at hg
  | emptyOr g ih =>
    intro v w x hx
    simp only [next] at hg
    split at hg
    · rename_i heq
      simp only [denote, Reader.emptyOr] at hx
      rcases hn : emptyParensLength? v.rest with _ | n
      · simp only [hn] at hx
        obtain ⟨u, a, ha, hw⟩ := Finding.andThen_eq_found.1 hx
        obtain ⟨rfl, -⟩ := Finding.found.inj hw
        exact ih (heq.trans hg) hfit v u a ha
      · simp only [hn] at hx
        obtain ⟨rfl, -⟩ := Finding.found.inj hx
        exact Reader.covers_emptyParens hg hn
    · simp at hg
  | typedList default group values ihg ihv =>
    simp only [next] at hg
    split at hg
    · rename_i heq
      obtain ⟨k, rfl, rfl⟩ := Phase.inner_eq_some.1 hg
      exact fun _ _ _ h => Reader.follows_typedList Reader.path_covers (ihg heq.1 hfit _ _ _)
        (ihv heq.2.1 hfit _ _ _) h
    · simp at hg

/-! ### Texts that agree up to the matching parenthesis -/

/-- Two views that agree up to where the construct ends, with the given characters behind it. -/
def View.Alike (outer : Nat) (φ : Phase) (s s' : List Char) (v v' : View) : Prop :=
  ∃ x, φ.Spans outer x ∧ v.rest = x ++ s ∧ v'.rest = x ++ s' ∧ (φ = .before ∨ v.before = v'.before)

/-- Two findings that agree, with views that agree up to where the construct ends. -/
def Finding.Alike {α : Type} (outer : Nat) (ψ : Phase) (s s' : List Char) :
    Finding α → Finding α → Prop
  | found w a, found w' a' => View.Alike outer ψ s s' w w' ∧ a = a'
  | missing, missing => True
  | unknownFlag, unknownFlag => True
  | tooDeep, tooDeep => True
  | infinite, infinite => True
  | _, _ => False

/-- The reader cannot tell apart two views that agree up to where the construct ends. -/
def Reader.Alike {α : Type} (outer : Nat) (φ ψ : Phase) (r : Reader α) : Prop :=
  ∀ {s s' v v'}, View.Alike outer φ s s' v v' → Finding.Alike outer ψ s s' (r v) (r v')

namespace Finding

variable {α β : Type} {outer : Nat} {φ χ ψ : Phase} {s s' : List Char}

theorem Alike.andThen {o o' : Finding α} {k k' : View → α → Finding β}
    (ho : Alike outer χ s s' o o')
    (hk : ∀ {w w' a}, o = found w a → o' = found w' a → View.Alike outer χ s s' w w' →
      Alike outer ψ s s' (k w a) (k' w' a)) :
    Alike outer ψ s s' (o.andThen k) (o'.andThen k') := by
  cases o <;> cases o' <;> simp only [Alike] at ho
  · obtain ⟨hw, rfl⟩ := ho
    exact hk rfl rfl hw
  all_goals trivial

theorem Alike.orElse {o o' q q' : Finding α} (ho : Alike outer ψ s s' o o')
    (hq : Alike outer ψ s s' q q') : Alike outer ψ s s' (o.orElse q) (o'.orElse q') := by
  cases o <;> cases o' <;> simp only [Alike] at ho
  · exact ho
  · exact hq
  all_goals trivial

theorem Alike.eq_found {w : View} {a : α} {o : Finding α}
    (h : Alike outer ψ s s' (found w a) o) :
    ∃ w', o = found w' a ∧ View.Alike outer ψ s s' w w' := by
  cases o with
  | found w' a' => exact ⟨w', by rw [h.2], h.1⟩
  | _ => exact absurd h (by simp [Alike])

theorem Alike.found {w w' : View} (h : View.Alike outer ψ s s' w w') (a : α) :
    Alike outer ψ s s' (found w a) (found w' a) := ⟨h, rfl⟩

end Finding

namespace View.Alike

variable {outer : Nat} {φ ψ : Phase} {s s' : List Char} {v v' : View}

/-- Both views go on by as many characters of the construct. -/
theorem advance {x : List Char} (hv : v.rest = x ++ s) (hv' : v'.rest = x ++ s') {n : Nat}
    (hn : n ≤ x.length) (hx : ψ.Spans outer (x.drop n)) (h0 : n = 0 → v.before = v'.before) :
    View.Alike outer ψ s s' (v.advance n) (v'.advance n) := by
  refine ⟨x.drop n, hx, ?_, ?_, .inr ?_⟩
  · rw [rest_advance, hv, List.drop_append_of_le_length hn]
  · rw [rest_advance, hv', List.drop_append_of_le_length hn]
  · cases n with
    | zero => exact h0 rfl
    | succ n =>
      simp only [View.advance]
      rw [hv, hv', List.getElem?_append_left (by omega), List.getElem?_append_left (by omega)]

end View.Alike

namespace Terminal

variable {α : Type} {outer : Nat} {φ ψ : Phase} {s s' : List Char} {v v' : View}

/-- What takes a plain character takes nothing from an opening parenthesis on. -/
theorem contained_open {f : Recogniser α} (hf : f.Contained) (cs : List Char) :
    f ('(' :: cs) = none := by
  rcases h : f ('(' :: cs) with _ | ⟨n, a⟩
  · rfl
  · obtain ⟨m, rfl⟩ : ∃ m, n = m + 1 := ⟨n - 1, by have := hf.pos h; omega⟩
    exact absurd (hf.plain h '(' (by simp)) (by decide)

theorem alike_of_contained {f : Recogniser α} (hf : f.Contained) (ht : φ.token = some ψ)
    (h : View.Alike outer φ s s' v v') :
    Finding.Alike outer ψ s s' (.lexeme v (f v.rest)) (.lexeme v' (f v'.rest)) := by
  obtain ⟨x, hx, hv, hv', hb⟩ := h
  cases φ with
  | before =>
    obtain ⟨y, rfl, -⟩ := hx
    rw [hv, hv', List.cons_append, List.cons_append, contained_open hf, contained_open hf]
    trivial
  | within k =>
    obtain rfl := Option.some.inj ht
    have hc := close_mem_of_closes hx
    rw [hv, hv', hf.append s hc, hf.append s' hc]
    rcases hl : f x with _ | ⟨n, a⟩
    · trivial
    · refine .found (.advance hv hv' (hf.le hl) ?_ fun h0 => ?_) a
      · simp only [Phase.Spans] at hx ⊢
        rw [← List.take_append_drop n x, closes_append (hf.plain hl)] at hx
        exact hx
      · have := hf.pos hl
        omega
  | behind => simp [Phase.token] at ht

theorem alike_blanks {k : Nat} (h : View.Alike outer (.within k) s s' v v') :
    View.Alike outer (.within k) s s' v.skipBlanks v'.skipBlanks := by
  obtain ⟨x, hx, hv, hv', hb⟩ := h
  have hb := hb.resolve_left (by simp)
  simp only [View.skipBlanks]
  rw [hv, hv', blankLength_append s hx, blankLength_append s' hx]
  exact .advance hv hv' (blankLength_le _ _) (closes_drop_blankLength hx) fun _ => hb

theorem separates_eq {k : Nat} (h : View.Alike outer (.within k) s s' v v') :
    v.separates = v'.separates := by
  obtain ⟨x, hx, hv, hv', hb⟩ := h
  have hb := hb.resolve_left (by simp)
  simp only [View.separates]
  rw [hv, hv', blankLength_append s hx, blankLength_append s' hx, hb]
  rcases x with _ | ⟨c, x⟩
  · exact absurd rfl (ne_nil_of_closes hx)
  · rfl

theorem alike_character {c : Char} (ht : φ.character c = some ψ) (hfit : Phase.Fits outer φ ψ)
    (h : View.Alike outer φ s s' v v') :
    Finding.Alike outer ψ s s' (.lexeme v ((char c).lexeme? v))
      (.lexeme v' ((char c).lexeme? v')) := by
  obtain ⟨x, hx, hv, hv', hb⟩ := h
  have hne : x ≠ [] := by
    cases φ with
    | before => obtain ⟨y, rfl, -⟩ := hx; simp
    | within k => exact ne_nil_of_closes hx
    | behind => simp [Phase.character] at ht
  obtain ⟨d, x, rfl⟩ := List.exists_cons_of_ne_nil hne
  have hd : ∀ t : List Char, (d :: x ++ t).head? = some d := fun t => rfl
  simp only [lexeme?, hv, hv', hd]
  split
  · rename_i hc
    obtain rfl := Option.some.inj hc
    refine .found (.advance hv hv' (by simp) ?_ (by simp)) ()
    simp only [List.drop_succ_cons, List.drop_zero]
    cases φ with
    | before =>
      simp only [Phase.character] at ht
      split at ht
      · obtain rfl := Option.some.inj ht
        obtain rfl := hfit (.inl rfl)
        obtain ⟨y, hy, hc⟩ := hx
        obtain ⟨-, rfl⟩ := List.cons.inj hy
        simpa [Phase.Spans] using hc
      · simp at ht
    | within k =>
      simp only [Phase.character] at ht
      split at ht
      · rename_i hd
        obtain rfl := Option.some.inj ht
        subst hd
        exact hx
      · split at ht
        · rename_i hd
          subst hd
          rcases k with _ | k
          · obtain rfl := Option.some.inj ht
            obtain rfl := hfit (.inr rfl)
            exact closes_close_zero.1 hx
          · obtain rfl := Option.some.inj ht
            exact hx
        · split at ht
          · rename_i hd
            obtain rfl := Option.some.inj ht
            simp only [Phase.Spans] at hx ⊢
            rwa [closes_plain hd] at hx
          · simp at ht
    | behind => simp [Phase.character] at ht
  · trivial

theorem alike {t : Terminal α} (ht : t.next φ = some ψ) (hfit : Phase.Fits outer φ ψ)
    (h : View.Alike outer φ s s' v v') :
    Finding.Alike outer ψ s s' (.lexeme v (t.lexeme? v)) (.lexeme v' (t.lexeme? v')) := by
  cases moves_of_next ht with
  | pure a hi =>
    obtain ⟨k, rfl, rfl⟩ := Phase.inner_eq_some.1 hi
    exact .found h a
  | blanks hi =>
    obtain ⟨k, rfl, rfl⟩ := Phase.inner_eq_some.1 hi
    exact .found (alike_blanks h) ()
  | separator hi =>
    obtain ⟨k, rfl, rfl⟩ := Phase.inner_eq_some.1 hi
    simp only [lexeme?, separates_eq h]
    split
    · exact .found (alike_blanks h) ()
    · trivial
  | char c hc => exact alike_character hc hfit h
  | lexeme hf he hφ =>
    rw [he, he]
    exact alike_of_contained hf hφ h

end Terminal

namespace Reader

variable {α β : Type} {outer k : Nat}

theorem alike_opt {r : Reader α} (h : Alike outer (.within k) (.within k) r) :
    Alike outer (.within k) (.within k) (opt r) := fun hv =>
  .orElse (.andThen (h hv) fun _ _ hw => .found hw _) (.found hv _)

theorem alike_separated {r : Reader α} (h : Alike outer (.within k) (.within k) r) :
    Alike outer (.within k) (.within k) (separated r) := by
  intro s s' v v' hv
  simp only [separated, Terminal.separates_eq hv]
  split
  · exact h (Terminal.alike_blanks hv)
  · trivial

theorem alike_separatedUnless {r : Reader α} (h : Alike outer (.within k) (.within k) r)
    (first : Bool) : Alike outer (.within k) (.within k) (separatedUnless first r) := by
  cases first with
  | false => exact alike_separated h
  | true => exact h

theorem alike_more {r : Reader α} (h : Alike outer (.within k) (.within k) r) (hf : r.Forward) :
    Alike outer (.within k) (.within k) (more r) := by
  have ho := @alike_opt _ _ _ _ (alike_separated h)
  intro s s' v v' hv
  have hx := hv
  obtain ⟨x, -, hr, -⟩ := hx
  -- the list goes on inside what is left of the construct, which gets shorter
  induction hn : x.length using Nat.strong_induction_on generalizing x v v' with
  | _ n ih =>
    subst hn
    rw [more_eq hf, more_eq hf]
    refine .andThen (ho hv) fun {w w' a?} hw hw' hww => ?_
    rcases a? with _ | a
    · exact .found hv []
    · obtain ⟨y, hy, hwr, hwr', hb⟩ := hww
      obtain ⟨x', hx', hr', hr'', hb'⟩ := hv
      obtain rfl : x' = x := List.append_cancel_right (hr'.symm.trans hr)
      have hle := (forward_opt (forward_separated hf) hw).length_le
      simp only [hwr, hwr', hr', hr'', List.length_append, Nat.add_right_cancel_iff] at hle ⊢
      split
      · exact .found ⟨x', hx', hr', hr'', hb'⟩ []
      · exact .andThen (ih _ (by omega) ⟨y, hy, hwr, hwr', hb⟩ y hwr rfl) fun _ _ h => .found h _

theorem alike_groupsWithin {r : Reader (List α)} (h : Alike outer (.within k) (.within k) r)
    (hr : ∀ {v w a}, r v = .found w a → w.rest.length < v.rest.length)
    {fuel fuel' : List Char} {first : Bool} {s s' x : List Char} {v v' : View}
    (hv : View.Alike outer (.within k) s s' v v') (hx : v.rest = x ++ s)
    (hf : x.length ≤ fuel.length) (hf' : x.length ≤ fuel'.length) :
    Finding.Alike outer (.within k) s s' (groupsWithin r first fuel v)
      (groupsWithin r first fuel' v') := by
  have ho := fun first => @alike_opt _ _ _ _ (alike_separatedUnless h first)
  have hpos : 0 < x.length := by
    obtain ⟨y, hy, hr, -⟩ := hv
    obtain rfl : y = x := List.append_cancel_right (hr.symm.trans hx)
    exact List.length_pos_of_ne_nil (ne_nil_of_closes hy)
  induction fuel generalizing fuel' first x v v' with
  | nil => simp only [List.length_nil] at hf; omega
  | cons c fuel ih =>
    rcases fuel' with _ | ⟨c', fuel'⟩
    · simp only [List.length_nil] at hf'; omega
    refine .andThen (ho first hv) fun {w w' as?} hw hw' hww => ?_
    rcases as? with _ | as
    · exact .found hv []
    · have hww' := hww
      obtain ⟨y, hy, hwr, -⟩ := hww'
      have hlt : w.rest.length < v.rest.length := by
        obtain ⟨a, ha, -⟩ | ⟨-, -, h0⟩ := opt_eq_found.1 hw
        · cases first with
          | true => exact hr ha
          | false =>
            obtain ⟨-, ha⟩ := separated_eq_found.1 ha
            exact Nat.lt_of_lt_of_le (hr ha) v.rest_skipBlanks_suffix.length_le
        · simp at h0
      simp only [hwr, hx, List.length_append, List.length_cons] at hlt hf hf'
      exact .andThen (ih hww hwr (by omega) (by omega)
        (List.length_pos_of_ne_nil (ne_nil_of_closes hy))) fun _ _ h => .found h _

theorem alike_untypedTail {r : Reader (List α)} (h : Alike outer (.within k) (.within k) r)
    (first : Bool) : Alike outer (.within k) (.within k) (untypedTail first r) := by
  intro s s' v v' hv
  refine .andThen (alike_opt (alike_separatedUnless h first) hv) fun {w w' as?} _ _ hw => ?_
  rcases as? with _ | as
  · exact .found hv []
  · simp only
    split
    · exact .found hv as
    · exact .found hw as

theorem alike_typedList {default : TypeSpec} {r : Reader (List (Typed α))} {t : Reader (List α)}
    (hr : Alike outer (.within k) (.within k) r) (ht : Alike outer (.within k) (.within k) t)
    (hlt : ∀ {v w a}, r v = .found w a → w.rest.length < v.rest.length) :
    Alike outer (.within k) (.within k) (typedList default r t) := by
  intro s s' v v' hv
  have hx := hv
  obtain ⟨x, -, hx, hx', -⟩ := hx
  refine .andThen (alike_groupsWithin hr hlt hv hx (by simp [hx]) (by simp [hx'])) fun _ _ hw => ?_
  exact .andThen (alike_untypedTail ht _ hw) fun _ _ hw' => .found hw' _

/-- A pair of empty parentheses ends before the construct does, whatever stands behind it. -/
theorem emptyParensLength?_append {φ ψ : Phase} (ht : φ.token = some ψ) {x : List Char}
    (hx : φ.Spans outer x) (s : List Char) :
    emptyParensLength? (x ++ s) = emptyParensLength? x ∧
      ∀ n, emptyParensLength? x = some n → n ≤ x.length ∧ ψ.Spans outer (x.drop n) ∧ n ≠ 0 := by
  have hc : ∃ k y c, x = c :: y ∧ (c = '(' → closes false k y = true) := by
    cases φ with
    | before =>
      obtain ⟨y, rfl, hy⟩ := hx
      exact ⟨0, y, _, rfl, fun _ => hy⟩
    | within k =>
      obtain ⟨c, y, rfl⟩ := List.exists_cons_of_ne_nil (ne_nil_of_closes hx)
      exact ⟨outer + k + 1, y, c, rfl, fun h => by subst h; exact hx⟩
    | behind => simp [Phase.token] at ht
  obtain ⟨k, y, c, rfl, hy⟩ := hc
  refine ⟨?_, fun n hn => ⟨emptyParensLength?_le hn, ?_, ?_⟩⟩
  · by_cases hcc : c = '('
    · have hm := close_mem_of_closes (hy hcc)
      subst hcc
      simp only [List.cons_append, emptyParensLength?,
        takeWhile_append_of_mem s hm isWideBlank_close,
        dropWhile_append_of_mem s hm isWideBlank_close]
      have hd := mem_dropWhile_of_mem hm isWideBlank_close
      rcases hy : y.dropWhile isWideBlank with _ | ⟨d, z⟩
      · simp [hy] at hd
      · by_cases hd : d = ')'
        · subst hd; rfl
        · simp [hd]
    · simp [emptyParensLength?, hcc]
  · obtain ⟨blanks, rest, hr, hb, rfl⟩ := emptyParensLength?_eq_some.1 hn
    have hp : ∀ c ∈ blanks, isPlain c = true := fun c hc => isPlain_of_isWideBlank (hb c hc)
    have hd : (c :: y).drop (blanks.length + 2) = rest := by
      rw [hr]
      simp
    rw [hd]
    rw [hr] at hx
    cases φ with
    | before =>
      obtain rfl := Option.some.inj ht
      obtain ⟨z, hz, hcz⟩ := hx
      obtain rfl := (List.cons.inj hz).2
      rw [closes_append hp] at hcz
      exact closes_close_zero.1 hcz
    | within k =>
      obtain rfl := Option.some.inj ht
      simp only [Phase.Spans] at hx ⊢
      rwa [closes_open, closes_append hp, closes_close] at hx
    | behind => simp [Phase.token] at ht
  · obtain ⟨blanks, rest, -, -, rfl⟩ := emptyParensLength?_eq_some.1 hn
    simp

theorem alike_emptyOr {φ ψ : Phase} (ht : φ.token = some ψ) {r : Reader α}
    (h : Alike outer φ ψ r) : Alike outer φ ψ (emptyOr r) := by
  intro s s' v v' hv
  have hv' := hv
  obtain ⟨x, hx, hr, hr', -⟩ := hv'
  obtain ⟨he, hn⟩ := emptyParensLength?_append ht hx s
  have he' := (emptyParensLength?_append ht hx s').1
  simp only [emptyOr, hr, hr', he, he']
  rcases hl : emptyParensLength? x with _ | n
  · exact .andThen (h hv) fun _ _ hw => .found hw _
  · obtain ⟨hle, hs, h0⟩ := hn n hl
    exact .found (.advance hr hr' hle hs fun h => absurd h h0) none

end Reader

/-- **Two texts that agree up to the matching parenthesis are read alike**, whether the construct is
found or not. -/
theorem Grammar.alike {N : Type → Type} {read : {α : Type} → N α → Reader α}
    (hf : ∀ {α : Type} (n : N α), (read n).Forward)
    (hn : ∀ {α : Type} (n : N α) {outer : Nat} {φ ψ : Phase}, φ.token = some ψ →
      Phase.Fits outer φ ψ → (read n).Alike outer φ ψ)
    {α : Type} (g : Grammar N α) {outer : Nat} {φ ψ : Phase} (hg : g.next φ = some ψ)
    (hfit : Phase.Fits outer φ ψ) : (g.denote read).Alike outer φ ψ := by
  induction g generalizing φ ψ with
  | terminal t => exact fun hv => Terminal.alike hg hfit hv
  | call n => exact hn n hg hfit
  | seq g h ihg ihh =>
    intro s s' v v' hv
    obtain ⟨χ, hχ, hψ⟩ := Option.bind_eq_some_iff.1 hg
    have hb : χ ≠ .behind := by rintro rfl; simp [next_behind] at hψ
    have ha : χ ≠ .before := by rintro rfl; exact next_ne_before g φ hχ
    have hg := ihg hχ (fun h => hfit (h.imp_right fun h => absurd h hb)) hv
    exact .andThen hg fun _ _ hw =>
      .andThen (ihh hψ (fun h => hfit (h.imp_left fun h => absurd h ha)) hw) fun _ _ hu =>
        .found hu _
  | refine f g ih =>
    intro s s' v v' hv
    refine .andThen (ih hg hfit hv) fun {w w' a} _ _ hw => ?_
    rcases f a with e | b
    · cases e <;> trivial
    · exact .found hw b
  | orElse g h ihg ihh =>
    simp only [next] at hg
    split at hg
    · rename_i heq
      exact fun hv => .orElse (ihg hg hfit hv) (ihh (heq ▸ hg) hfit hv)
    · simp at hg
  | opt g ih =>
    simp only [next] at hg
    split at hg
    · rename_i heq
      obtain ⟨k, rfl, rfl⟩ := Phase.inner_eq_some.1 hg
      exact Reader.alike_opt (ih heq hfit)
    · simp at hg
  | more g ih =>
    simp only [next] at hg
    split at hg
    · rename_i heq
      obtain ⟨k, rfl, rfl⟩ := Phase.inner_eq_some.1 hg
      exact Reader.alike_more (ih heq hfit) (forward_denote hf g)
    · simp at hg
  | emptyOr g ih =>
    simp only [next] at hg
    split at hg
    · rename_i heq
      exact Reader.alike_emptyOr hg (ih (heq.trans hg) hfit)
    · simp at hg
  | typedList default group values ihg ihv =>
    simp only [next] at hg
    split at hg
    · rename_i heq
      obtain ⟨k, rfl, rfl⟩ := Phase.inner_eq_some.1 hg
      exact Reader.alike_typedList (ihg heq.1 hfit) (ihv heq.2.1 hfit)
        (length_lt_of_consumes hf heq.2.2)
    · simp at hg

/-! ### Nonterminals -/

namespace Nonterminal

variable {α : Type}

/-- Every production begins and ends a construct of its own. -/
theorem next_production_before (n : Nonterminal α) :
    n.production.next .before = some .behind := by
  cases n <;> decide

/-- Every production stays within the forms in which it stands. -/
theorem next_production_within (n : Nonterminal α) :
    n.production.next (.within 0) = some (.within 0) := by
  cases n <;> decide

theorem covers_within {outer k : Nat} {v w : View} :
    Covers outer (.within k) (.within k) v w ↔
      Covers (outer + k) (.within 0) (.within 0) v w := by
  simp [Covers, Phase.Spans]

theorem alike_within {outer k : Nat} {s s' : List Char} {v w : View} :
    View.Alike outer (.within k) s s' v w ↔ View.Alike (outer + k) (.within 0) s s' v w := by
  simp [View.Alike, Phase.Spans]

theorem finding_alike_within {outer k : Nat} {s s' : List Char} {o o' : Finding α} :
    Finding.Alike outer (.within k) s s' o o' ↔
      Finding.Alike (outer + k) (.within 0) s s' o o' := by
  cases o <;> cases o' <;> simp [Finding.Alike, alike_within]

/-- A production may stand in any number of forms. -/
theorem covers_denote (levels : Nat) (n : Nonterminal α) {outer : Nat} {φ ψ : Phase}
    (ht : φ.token = some ψ) (hfit : Phase.Fits outer φ ψ) :
    (n.denote levels).Covers outer φ ψ := by
  induction levels generalizing α outer φ ψ with
  | zero => intro v w a h; simp [Nonterminal.denote] at h
  | succ levels ih =>
    cases φ with
    | before =>
      obtain rfl := Option.some.inj ht
      exact Grammar.covers ih _ n.next_production_before hfit
    | within k =>
      obtain rfl := Option.some.inj ht
      intro v w a h
      exact covers_within.2
        (Grammar.covers ih _ n.next_production_within (by simp [Phase.Fits]) v w a h)
    | behind => simp [Phase.token] at ht

theorem alike_denote (levels : Nat) (n : Nonterminal α) {outer : Nat} {φ ψ : Phase}
    (ht : φ.token = some ψ) (hfit : Phase.Fits outer φ ψ) :
    (n.denote levels).Alike outer φ ψ := by
  induction levels generalizing α outer φ ψ with
  | zero => intro s s' v v' _; trivial
  | succ levels ih =>
    cases φ with
    | before =>
      obtain rfl := Option.some.inj ht
      exact Grammar.alike (fun n => n.forward_denote levels) ih _ n.next_production_before hfit
    | within k =>
      obtain rfl := Option.some.inj ht
      intro s s' v v' hv
      exact finding_alike_within.2 (Grammar.alike (fun n => n.forward_denote levels) ih _
        n.next_production_within (by simp [Phase.Fits]) (alike_within.1 hv))
    | behind => simp [Phase.token] at ht

end Nonterminal

end Pddl
