import Mathlib.Data.List.SplitBy
import Pddl.Grammar.Basic

/-!
# What lexemes take

A lexeme is recognised at the front of the characters that are left.  It takes some of them, it
holds no parenthesis and no semicolon, and it is decided before the next closing parenthesis: what
stands behind that cannot change it.

* `isPlain` : a character that neither opens nor closes anything.
* `Recogniser` : what gives the length and the value of a lexeme in front.
* `Recogniser.Contained` : these properties of a lexeme together, shown for each class of lexemes.
-/

namespace Pddl

/-- The character neither opens nor closes a form or a comment. -/
def isPlain (c : Char) : Bool := c != '(' && c != ')' && c != ';'

/-- What gives the length and the value of a lexeme in front. -/
abbrev Recogniser (α : Type) := List Char → Option (Nat × α)

/-- A lexeme takes plain characters only and is decided before the next closing parenthesis. -/
structure Recogniser.Contained {α : Type} (f : Recogniser α) : Prop where
  pos : ∀ {cs n a}, f cs = some (n, a) → 0 < n
  le : ∀ {cs n a}, f cs = some (n, a) → n ≤ cs.length
  plain : ∀ {cs n a}, f cs = some (n, a) → ∀ c ∈ cs.take n, isPlain c = true
  append : ∀ {x : List Char} (s : List Char), ')' ∈ x → f (x ++ s) = f x

/-! ### Characters -/

theorem isPlain_of_isNameChar {c : Char} (h : isNameChar c = true) : isPlain c = true := by
  simp only [isPlain, Bool.and_eq_true, bne_iff_ne]
  refine ⟨⟨?_, ?_⟩, ?_⟩ <;> rintro rfl <;> simp [isNameChar] at h

theorem isPlain_of_isWideBlank {c : Char} (h : isWideBlank c = true) : isPlain c = true := by
  simp only [isPlain, Bool.and_eq_true, bne_iff_ne]
  refine ⟨⟨?_, ?_⟩, ?_⟩ <;> rintro rfl <;> simp [isWideBlank, wideBlankRanges] at h

theorem isPlain_of_isDigit {c : Char} (h : c.isDigit = true) : isPlain c = true :=
  isPlain_of_isNameChar (by simp [isNameChar, Char.isAlphanum, h])

theorem isDigit_eq_false_of_isNameStart {c : Char} (h : isNameStart c = true) :
    c.isDigit = false := by
  rw [Bool.eq_false_iff]
  intro hd
  have hd : (decide ('0'.val ≤ c.val) && decide (c.val ≤ '9'.val)) = true := hd
  have h : (decide ('A'.val ≤ c.val ∧ c.val ≤ 'Z'.val) ||
    (decide ('a'.val ≤ c.val) && decide (c.val ≤ 'z'.val))) = true := h
  simp only [Bool.or_eq_true, Bool.and_eq_true, decide_eq_true_eq] at h hd
  have hA : '9'.val < 'A'.val := by decide
  have ha : '9'.val < 'a'.val := by decide
  rcases h with h | h
  · exact UInt32.not_le.2 hA (UInt32.le_trans h.1 hd.2)
  · exact UInt32.not_le.2 ha (UInt32.le_trans h.1 hd.2)

/-- No name begins with a digit. -/
theorem isNameStart_of_isDigit {c : Char} (h : c.isDigit = true) : isNameStart c = false := by
  rw [Bool.eq_false_iff]
  intro hs
  rw [isDigit_eq_false_of_isNameStart hs] at h
  exact Bool.false_ne_true h

theorem takeWhile_append_of_mem {p : Char → Bool} {x : List Char} {c : Char} (s : List Char)
    (hc : c ∈ x) (hp : p c = false) : (x ++ s).takeWhile p = x.takeWhile p := by
  induction x with
  | nil => simp at hc
  | cons d x ih =>
    by_cases hd : p d = true
    · have hx : c ∈ x := by
        rcases List.mem_cons.1 hc with rfl | h
        · simp [hd] at hp
        · exact h
      simp [hd, ih hx]
    · simp [hd]

theorem dropWhile_append_of_mem {p : Char → Bool} {x : List Char} {c : Char} (s : List Char)
    (hc : c ∈ x) (hp : p c = false) : (x ++ s).dropWhile p = x.dropWhile p ++ s := by
  induction x with
  | nil => simp at hc
  | cons d x ih =>
    by_cases hd : p d = true
    · have hx : c ∈ x := by
        rcases List.mem_cons.1 hc with rfl | h
        · simp [hd] at hp
        · exact h
      simp [hd, ih hx]
    · simp [hd]

theorem mem_dropWhile_of_mem {p : Char → Bool} {x : List Char} {c : Char} (hc : c ∈ x)
    (hp : p c = false) : c ∈ x.dropWhile p := by
  induction x with
  | nil => simp at hc
  | cons d x ih =>
    by_cases hd : p d = true
    · rcases List.mem_cons.1 hc with rfl | h
      · simp [hd] at hp
      · simpa [hd] using ih h
    · simpa [hd] using hc

theorem take_takeWhile_length (p : Char → Bool) (cs : List Char) :
    cs.take (cs.takeWhile p).length = cs.takeWhile p :=
  (List.prefix_iff_eq_take.1 (List.takeWhile_prefix p)).symm

theorem drop_takeWhile_length (p : Char → Bool) (cs : List Char) :
    cs.drop (cs.takeWhile p).length = cs.dropWhile p := by
  have h := List.takeWhile_append_dropWhile (p := p) (l := cs)
  calc cs.drop (cs.takeWhile p).length
      = (cs.takeWhile p ++ cs.dropWhile p).drop (cs.takeWhile p).length := by rw [h]
    _ = cs.dropWhile p := List.drop_left

theorem of_mem_takeWhile {p : Char → Bool} {cs : List Char} {c : Char}
    (h : c ∈ cs.takeWhile p) : p c = true := by
  have := List.all_takeWhile (p := p) (l := cs)
  exact List.all_eq_true.1 this c h

/-! ### Names -/

theorem isNameChar_close : isNameChar ')' = false := by decide

theorem isWideBlank_close : isWideBlank ')' = false := by decide

theorem nameLexeme?_append {x : List Char} (s : List Char) (h : ')' ∈ x) :
    nameLexeme? (x ++ s) = nameLexeme? x := by
  cases x with
  | nil => simp at h
  | cons c x =>
    simp only [List.cons_append, nameLexeme?]
    split
    · rename_i hc
      have hx : ')' ∈ x := by
        rcases List.mem_cons.1 h with rfl | h
        · exact absurd (isNameChar_of_isNameStart hc) (by decide)
        · exact h
      rw [takeWhile_append_of_mem s hx isNameChar_close]
    · rfl

/-- A name in front, up to a character that is none of its own. -/
theorem eq_append_of_nameLexeme? {cs name : List Char} (h : nameLexeme? cs = some name) :
    ∃ rest, cs = name ++ rest ∧ rest.head?.any isNameChar = false ∧ isName name = true := by
  cases cs with
  | nil => simp [nameLexeme?] at h
  | cons c cs =>
    have hn := isName_of_nameLexeme? h
    simp only [nameLexeme?] at h
    split at h
    · obtain rfl := Option.some.inj h
      refine ⟨cs.dropWhile isNameChar, by simp, ?_, hn⟩
      rcases hd : cs.dropWhile isNameChar with _ | ⟨d, ds⟩
      · rfl
      · have := List.head_dropWhile_not (p := isNameChar) (l := cs) (by simp [hd])
        simpa [hd] using this
    · simp at h

theorem isNameChar_of_mem_name {name : List Char} (h : isName name = true) :
    ∀ c ∈ name, isNameChar c = true := by
  cases name with
  | nil => simp
  | cons d name =>
    simp only [isName, Bool.and_eq_true, List.all_eq_true] at h
    intro c hc
    rcases List.mem_cons.1 hc with rfl | hc
    · exact isNameChar_of_isNameStart h.1
    · exact h.2 c hc

/-! ### Fixed words -/

theorem isPrefixOf?_eq_some {w cs rest : List Char} :
    w.isPrefixOf? cs = some rest ↔ cs = w ++ rest := by
  induction w generalizing cs with
  | nil => simp [List.isPrefixOf?, eq_comm]
  | cons c w ih =>
    cases cs with
    | nil => simp [List.isPrefixOf?]
    | cons d cs =>
      by_cases h : c = d
      · subst h; simp [List.isPrefixOf?, ih]
      · simp [List.isPrefixOf?, h, Ne.symm h]

theorem isPrefixOf?_append {w x : List Char} (s : List Char) (hw : ')' ∉ w) (h : ')' ∈ x) :
    w.isPrefixOf? (x ++ s) = (w.isPrefixOf? x).map (· ++ s) := by
  induction w generalizing x with
  | nil => simp [List.isPrefixOf?]
  | cons c w ih =>
    cases x with
    | nil => simp at h
    | cons d x =>
      by_cases hcd : c = d
      · subst hcd
        simp only [List.mem_cons, not_or] at hw
        have hx : ')' ∈ x := (List.mem_cons.1 h).resolve_left hw.1
        simpa [List.isPrefixOf?] using ih hw.2 hx
      · simp [List.isPrefixOf?, hcd]

/-- The words and the white space between them that are taken by several words. -/
theorem wordsLength?_cons {w cs : List Char} {ws : List (List Char)} {n : Nat} :
    wordsLength? (w :: ws) cs = some n ↔
      ∃ rest, cs = w ++ rest ∧
        (ws = [] ∧ n = w.length ∨
          ws ≠ [] ∧ ∃ m, wordsLength? ws (rest.dropWhile isWideBlank) = some m ∧
            rest.takeWhile isWideBlank ≠ [] ∧
            n = w.length + (rest.takeWhile isWideBlank).length + m) := by
  rw [wordsLength?]
  simp only [Option.bind_eq_bind, Option.bind_eq_some_iff, isPrefixOf?_eq_some]
  refine exists_congr fun rest => and_congr_right fun _ => ?_
  rcases ws with _ | ⟨w', ws⟩
  · simp [eq_comm (a := n)]
  · by_cases hb : rest.takeWhile isWideBlank = []
    · simp [hb]
    · simp only [List.isEmpty_cons, Bool.false_eq_true, ↓reduceIte, List.length_eq_zero_iff, hb,
        drop_takeWhile_length, reduceCtorEq, false_and, ne_eq, not_false_eq_true, true_and,
        false_or, pure, Option.bind_eq_some_iff]
      exact exists_congr fun m => and_congr_right fun _ => by rw [Option.some.injEq, eq_comm]

theorem wordsLength?_le {ws : List (List Char)} {cs : List Char} {n : Nat}
    (h : wordsLength? ws cs = some n) : n ≤ cs.length := by
  induction ws generalizing cs n with
  | nil => simp [wordsLength?] at h; omega
  | cons w ws ih =>
    obtain ⟨rest, rfl, ⟨-, rfl⟩ | ⟨-, m, hm, -, rfl⟩⟩ := wordsLength?_cons.1 h
    · simp
    · have hm := ih hm
      have hl := congrArg List.length (List.takeWhile_append_dropWhile (p := isWideBlank) (l := rest))
      simp only [List.length_append] at hl ⊢
      omega

theorem wordsLength?_plain {ws : List (List Char)} (hws : ∀ w ∈ ws, ∀ c ∈ w, isPlain c = true)
    {cs : List Char} {n : Nat} (h : wordsLength? ws cs = some n) :
    ∀ c ∈ cs.take n, isPlain c = true := by
  induction ws generalizing cs n with
  | nil => simp [wordsLength?] at h; simp [← h]
  | cons w ws ih =>
    have hw := hws w (by simp)
    obtain ⟨rest, rfl, ⟨-, rfl⟩ | ⟨-, m, hm, -, rfl⟩⟩ := wordsLength?_cons.1 h
    · simpa using hw
    · have hm := ih (fun w hw => hws w (List.mem_cons_of_mem _ hw)) hm
      intro c hc
      rw [Nat.add_assoc, List.take_append, List.take_of_length_le (by omega), List.mem_append] at hc
      rcases hc with hc | hc
      · exact hw c hc
      · rw [Nat.add_sub_cancel_left, List.take_add, take_takeWhile_length, drop_takeWhile_length,
          List.mem_append] at hc
        rcases hc with hc | hc
        · exact isPlain_of_isWideBlank (of_mem_takeWhile hc)
        · exact hm c hc

theorem wordsLength?_append {ws : List (List Char)} (hws : ∀ w ∈ ws, ∀ c ∈ w, isPlain c = true)
    {x : List Char} (s : List Char) (h : ')' ∈ x) :
    wordsLength? ws (x ++ s) = wordsLength? ws x := by
  induction ws generalizing x with
  | nil => rfl
  | cons w ws ih =>
    have hw : ')' ∉ w := fun hc => absurd (hws w (by simp) _ hc) (by decide)
    have ih := fun x => @ih (fun w hw => hws w (List.mem_cons_of_mem _ hw)) x
    rw [wordsLength?, wordsLength?, isPrefixOf?_append s hw h]
    rcases hp : w.isPrefixOf? x with _ | rest
    · rfl
    · obtain rfl := isPrefixOf?_eq_some.1 hp
      have hr : ')' ∈ rest := (List.mem_append.1 h).resolve_left hw
      simp only [Option.map_some, Option.bind_eq_bind, Option.bind_some, drop_takeWhile_length,
        takeWhile_append_of_mem s hr isWideBlank_close,
        dropWhile_append_of_mem s hr isWideBlank_close,
        ih _ (mem_dropWhile_of_mem hr isWideBlank_close)]

/-- The word is not blank, and no character of it opens or closes anything. -/
def IsPlainWord (w : String) : Prop := w.toList.all isPlain = true ∧ wordsOf w.toList ≠ []

instance (w : String) : Decidable (IsPlainWord w) := inferInstanceAs (Decidable (_ ∧ _))

theorem mem_of_mem_wordsOf {cs w : List Char} {c : Char} (hw : w ∈ wordsOf cs) (hc : c ∈ w) :
    c ∈ cs := by
  have hw := (List.mem_filter.1 hw).1
  rw [← List.flatten_splitBy (fun a b => isWideBlank a == isWideBlank b) cs]
  exact List.mem_flatten.2 ⟨w, hw, hc⟩

theorem ne_nil_of_mem_wordsOf {cs w : List Char} (hw : w ∈ wordsOf cs) : w ≠ [] := by
  rintro rfl
  simpa using (List.mem_filter.1 hw).2

theorem isPlain_of_mem_wordsOf {w : String} (h : IsPlainWord w) :
    ∀ part ∈ wordsOf w.toList, ∀ c ∈ part, isPlain c = true :=
  fun _ hp _ hc => List.all_eq_true.1 h.1 _ (mem_of_mem_wordsOf hp hc)

/-- A fixed word is in front if its words are and it does not run into a longer name. -/
theorem keywordLength?_eq_some {w : String} {cs : List Char} {n : Nat} :
    keywordLength? w cs = some n ↔
      wordsLength? (wordsOf w.toList) cs = some n ∧
        (w.toList.getLast?.any isNameChar && (cs.drop n).head?.any isNameChar) = false := by
  unfold keywordLength?
  rcases wordsLength? (wordsOf w.toList) cs with _ | m
  · simp
  · simp only [Option.bind_eq_bind, Option.bind_some, pure]
    split
    · rename_i hr
      simp only [reduceCtorEq, false_iff, Option.some.injEq, not_and, Bool.not_eq_false]
      rintro rfl
      exact hr
    · rename_i hr
      simp only [Option.some.injEq]
      constructor
      · rintro rfl; exact ⟨rfl, by simpa using hr⟩
      · exact fun h => h.1

theorem keywordLength?_le {w : String} {cs : List Char} {n : Nat}
    (h : keywordLength? w cs = some n) : n ≤ cs.length :=
  wordsLength?_le (keywordLength?_eq_some.1 h).1

theorem keywordLength?_pos {w : String} (hw : IsPlainWord w) {cs : List Char} {n : Nat}
    (h : keywordLength? w cs = some n) : 0 < n := by
  have h := (keywordLength?_eq_some.1 h).1
  rcases hws : wordsOf w.toList with _ | ⟨part, parts⟩
  · exact absurd hws hw.2
  · rw [hws] at h
    have hpart : part ≠ [] := ne_nil_of_mem_wordsOf (show part ∈ wordsOf w.toList by simp [hws])
    have := List.length_pos_of_ne_nil hpart
    obtain ⟨rest, -, ⟨-, rfl⟩ | ⟨-, m, -, -, rfl⟩⟩ := wordsLength?_cons.1 h <;> omega

theorem close_mem_drop {x : List Char} {n : Nat} (h : ')' ∈ x)
    (hp : ∀ c ∈ x.take n, isPlain c = true) : ')' ∈ x.drop n := by
  rw [← List.take_append_drop n x, List.mem_append] at h
  exact h.resolve_left fun hc => absurd (hp _ hc) (by decide)

theorem keywordLength?_append {w : String} (hw : IsPlainWord w) {x : List Char} (s : List Char)
    (h : ')' ∈ x) : keywordLength? w (x ++ s) = keywordLength? w x := by
  unfold keywordLength?
  rw [wordsLength?_append (isPlain_of_mem_wordsOf hw) s h]
  rcases hn : wordsLength? (wordsOf w.toList) x with _ | n
  · rfl
  · have hd := close_mem_drop h (wordsLength?_plain (isPlain_of_mem_wordsOf hw) hn)
    simp only [Option.bind_eq_bind, Option.bind_some]
    rw [List.drop_append_of_le_length (wordsLength?_le hn), List.head?_append,
      Option.or_of_isSome (by
        rw [List.isSome_head?]; exact List.ne_nil_of_mem hd)]

/-! ### Empty parentheses -/

/-- A pair of empty parentheses: blanks of any kind between them. -/
theorem emptyParensLength?_eq_some {cs : List Char} {n : Nat} :
    emptyParensLength? cs = some n ↔
      ∃ blanks rest, cs = '(' :: (blanks ++ ')' :: rest) ∧
        (∀ c ∈ blanks, isWideBlank c = true) ∧ n = blanks.length + 2 := by
  constructor
  · intro h
    unfold emptyParensLength? at h
    split at h
    · rename_i cs
      have hcs := List.takeWhile_append_dropWhile (p := isWideBlank) (l := cs)
      split at h
      · rename_i rest hd
        rw [hd] at hcs
        exact ⟨cs.takeWhile isWideBlank, rest, by rw [hcs], fun c hc => of_mem_takeWhile hc,
          (Option.some.inj h).symm⟩
      · simp at h
    · simp at h
  · rintro ⟨blanks, rest, rfl, hb, rfl⟩
    simp [emptyParensLength?, List.dropWhile_append_of_pos hb, List.takeWhile_append_of_pos hb,
      isWideBlank_close]

theorem emptyParensLength?_le {cs : List Char} {n : Nat} (h : emptyParensLength? cs = some n) :
    n ≤ cs.length := by
  obtain ⟨blanks, rest, rfl, -, rfl⟩ := emptyParensLength?_eq_some.1 h
  simp only [List.length_cons, List.length_append]
  omega

/-! ### Terminals -/

namespace Terminal

/-- The number of characters of a symbol in front, and the symbol. -/
def symbolLexeme? (kind : SymbolKind) : Recogniser (Symbol kind) := fun cs => do
  let name ← nameLexeme? (← kind.sigil.toList.isPrefixOf? cs)
  let symbol ← Symbol.ofString? kind (String.ofList name)
  return (kind.sigil.toList.length + name.length, symbol)

/-- The number of characters of a flag in front, and the flag. -/
def flagLexeme? : Recogniser String := fun cs =>
  (Token.keyword.lexeme? cs).map fun lexeme => (lexeme.length, String.ofList lexeme)

/-- The number of characters of a decimal number in front, and the number. -/
def decimalLexeme? : Recogniser Decimal := fun cs =>
  (decimalParts? cs).map fun (whole, places) =>
    ((decimalLexeme whole places).length, ⟨natOfDigits (whole ++ places), -places.length⟩)

/-- The number of characters of a whole number in front, and the number. -/
def integerLexeme? : Recogniser Nat := fun cs =>
  match cs.takeWhile Char.isDigit with
  | [] => none
  | digits => some (digits.length, natOfDigits digits)

end Terminal

open Terminal Recogniser

/-- A recogniser is contained if what it takes is a prefix of plain characters that is found again
when the characters behind a closing parenthesis are changed. -/
theorem Recogniser.Contained.of_extent {α : Type} {f : Recogniser α}
    (take : ∀ {cs n a}, f cs = some (n, a) →
      ∃ p rest, cs = p ++ rest ∧ n = p.length ∧ p ≠ [] ∧ ∀ c ∈ p, isPlain c = true)
    (append : ∀ {x : List Char} (s : List Char), ')' ∈ x → f (x ++ s) = f x) : Contained f where
  pos h := by
    obtain ⟨p, rest, -, rfl, hp, -⟩ := take h
    exact List.length_pos_of_ne_nil hp
  le h := by
    obtain ⟨p, rest, rfl, rfl, -, -⟩ := take h
    simp
  plain h := by
    obtain ⟨p, rest, rfl, rfl, -, hp⟩ := take h
    simpa using hp
  append := append

/-- The characters of a symbol: its sigil and its name. -/
theorem symbolLexeme?_eq_some {kind : SymbolKind} {cs : List Char} {n : Nat} {s : Symbol kind}
    (h : symbolLexeme? kind cs = some (n, s)) :
    ∃ rest, cs = kind.sigil.toList ++ s.text.toList ++ rest ∧
      n = (kind.sigil.toList ++ s.text.toList).length ∧ rest.head?.any isNameChar = false := by
  simp only [symbolLexeme?, Option.bind_eq_bind, Option.bind_eq_some_iff, Option.pure_def,
    Option.some.injEq, Prod.mk.injEq] at h
  obtain ⟨rest, hp, name, hn, s', hs, rfl, rfl⟩ := h
  obtain rfl := isPrefixOf?_eq_some.1 hp
  obtain ⟨rest', rfl, hr, -⟩ := eq_append_of_nameLexeme? hn
  rw [Symbol.ofString?_eq_some_iff] at hs
  exact ⟨rest', by simp [hs], by simp [hs], hr⟩

theorem isPlain_of_mem_sigil (kind : SymbolKind) : ∀ c ∈ kind.sigil.toList, isPlain c = true := by
  have h : kind.sigil.toList.all isPlain = true := by cases kind <;> decide
  exact List.all_eq_true.1 h

theorem contained_symbolLexeme? (kind : SymbolKind) : Contained (symbolLexeme? kind) := by
  refine .of_extent (fun {cs n s} h => ?_) (fun {x} s hx => ?_)
  · obtain ⟨rest, rfl, rfl, -⟩ := symbolLexeme?_eq_some h
    have hs : s.text.toList ≠ [] := by
      intro hs
      have := s.valid
      simp [hs, isName] at this
    refine ⟨_, rest, rfl, rfl, by simp [hs], fun c hc => ?_⟩
    rcases List.mem_append.1 hc with hc | hc
    · exact isPlain_of_mem_sigil kind c hc
    · exact isPlain_of_isNameChar (isNameChar_of_mem_name s.valid c hc)
  · have hs : ')' ∉ kind.sigil.toList := fun hc => absurd (isPlain_of_mem_sigil kind _ hc) (by decide)
    unfold symbolLexeme?
    rw [isPrefixOf?_append s hs hx]
    rcases hp : kind.sigil.toList.isPrefixOf? x with _ | rest
    · rfl
    · obtain rfl := isPrefixOf?_eq_some.1 hp
      have hr : ')' ∈ rest := (List.mem_append.1 hx).resolve_left hs
      simp only [Option.map_some, Option.bind_eq_bind, Option.bind_some, nameLexeme?_append s hr]

theorem contained_keyword {w : String} (hw : IsPlainWord w) :
    Contained fun cs => (keywordLength? w cs).map fun n => (n, ()) where
  pos h := by
    obtain ⟨n, hn, h⟩ := Option.map_eq_some_iff.1 h
    obtain ⟨rfl, -⟩ := Prod.mk.inj h
    exact keywordLength?_pos hw hn
  le h := by
    obtain ⟨n, hn, h⟩ := Option.map_eq_some_iff.1 h
    obtain ⟨rfl, -⟩ := Prod.mk.inj h
    exact keywordLength?_le hn
  plain h := by
    obtain ⟨n, hn, h⟩ := Option.map_eq_some_iff.1 h
    obtain ⟨rfl, -⟩ := Prod.mk.inj h
    exact wordsLength?_plain (isPlain_of_mem_wordsOf hw) (keywordLength?_eq_some.1 hn).1
  append s h := by rw [keywordLength?_append hw s h]

/-- The entry that is found is one of the entries, and its word is in front. -/
theorem firstMatch?_eq_some {α : Type} {cs : List Char} {entries : List (String × α)} {n : Nat}
    {a : α} (h : firstMatch? cs entries = some (n, a)) :
    ∃ w, (w, a) ∈ entries ∧ keywordLength? w cs = some n := by
  induction entries with
  | nil => simp [firstMatch?] at h
  | cons e entries ih =>
    obtain ⟨w, b⟩ := e
    rw [firstMatch?] at h
    split at h
    · rename_i hn
      obtain ⟨rfl, rfl⟩ := Prod.mk.inj (Option.some.inj h)
      exact ⟨w, by simp, hn⟩
    · obtain ⟨w', hw', hn⟩ := ih h
      exact ⟨w', List.mem_cons_of_mem _ hw', hn⟩

theorem firstMatch?_append {α : Type} {entries : List (String × α)}
    (he : ∀ e ∈ entries, IsPlainWord e.1) {x : List Char} (s : List Char) (h : ')' ∈ x) :
    firstMatch? (x ++ s) entries = firstMatch? x entries := by
  induction entries with
  | nil => rfl
  | cons e entries ih =>
    rw [firstMatch?, firstMatch?, keywordLength?_append (he e (by simp)) s h,
      ih fun e he' => he e (List.mem_cons_of_mem _ he')]

theorem mem_longestFirst {α : Type} {entries : List (String × α)} {e : String × α} :
    e ∈ longestFirst entries ↔ e ∈ entries := List.mem_mergeSort

theorem contained_oneOf {α : Type} {entries : List (String × α)}
    (he : ∀ e ∈ entries, IsPlainWord e.1) :
    Contained fun cs => firstMatch? cs (longestFirst entries) where
  pos h := by
    obtain ⟨w, hw, hn⟩ := firstMatch?_eq_some h
    exact keywordLength?_pos (he _ (mem_longestFirst.1 hw)) hn
  le h := by
    obtain ⟨w, -, hn⟩ := firstMatch?_eq_some h
    exact keywordLength?_le hn
  plain h := by
    obtain ⟨w, hw, hn⟩ := firstMatch?_eq_some h
    exact (contained_keyword (he _ (mem_longestFirst.1 hw))).plain
      (Option.map_eq_some_iff.2 ⟨_, hn, rfl⟩)
  append s h := firstMatch?_append (fun e h => he e (mem_longestFirst.1 h)) s h

theorem contained_flagLexeme? : Contained flagLexeme? := by
  refine .of_extent (fun {cs n a} h => ?_) (fun {x} s hx => ?_)
  · obtain ⟨lexeme, hl, h⟩ := Option.map_eq_some_iff.1 h
    obtain ⟨rfl, -⟩ := Prod.mk.inj h
    rcases cs with _ | ⟨c, cs⟩
    · simp [Token.lexeme?, markedLexeme?] at hl
    · simp only [Token.lexeme?, markedLexeme?] at hl
      split at hl
      · rename_i hc
        obtain ⟨name, hn, rfl⟩ := Option.map_eq_some_iff.1 hl
        obtain ⟨rest, rfl, -, hv⟩ := eq_append_of_nameLexeme? hn
        refine ⟨c :: name, rest, rfl, rfl, by simp, fun d hd => ?_⟩
        rcases List.mem_cons.1 hd with rfl | hd
        · rw [beq_iff_eq] at hc; subst hc; decide
        · exact isPlain_of_isNameChar (isNameChar_of_mem_name hv d hd)
      · simp at hl
  · rcases x with _ | ⟨c, x⟩
    · simp at hx
    · simp only [flagLexeme?, Token.lexeme?, markedLexeme?, List.cons_append]
      split
      · rename_i hc
        have hx : ')' ∈ x := (List.mem_cons.1 hx).resolve_left (by rintro rfl; simp at hc)
        rw [nameLexeme?_append s hx]
      · rfl

theorem isDigit_close : Char.isDigit ')' = false := by decide

/-- The characters of a decimal number: digits, perhaps followed by a point and digits. -/
theorem decimalParts?_eq_some {cs whole places : List Char}
    (h : decimalParts? cs = some (whole, places)) :
    ∃ rest, cs = decimalLexeme whole places ++ rest ∧ whole ≠ [] ∧
      (∀ c ∈ whole, c.isDigit = true) ∧ ∀ c ∈ places, c.isDigit = true := by
  have hcs := List.takeWhile_append_dropWhile (p := Char.isDigit) (l := cs)
  have hw : ∀ c ∈ cs.takeWhile Char.isDigit, c.isDigit = true := fun c hc => of_mem_takeWhile hc
  unfold decimalParts? at h
  simp only at h
  split at h
  · simp at h
  · rename_i hne
    have hne : cs.takeWhile Char.isDigit ≠ [] := by simpa using hne
    split at h
    · rename_i rest hd
      obtain ⟨rfl, rfl⟩ := Prod.mk.inj (Option.some.inj h)
      have hr := List.takeWhile_append_dropWhile (p := Char.isDigit) (l := rest)
      rw [hd] at hcs
      by_cases he : rest.takeWhile Char.isDigit = []
      · exact ⟨'.' :: rest, by simp [decimalLexeme, he, hcs], hne, hw, by simp [he]⟩
      · refine ⟨rest.dropWhile Char.isDigit, ?_, hne, hw, fun c hc => of_mem_takeWhile hc⟩
        simpa [decimalLexeme, he, hr] using hcs.symm
    · obtain ⟨rfl, rfl⟩ := Prod.mk.inj (Option.some.inj h)
      exact ⟨cs.dropWhile Char.isDigit, by simp [decimalLexeme], hne, hw, by simp⟩

theorem contained_decimalLexeme? : Contained decimalLexeme? := by
  refine .of_extent (fun {cs n a} h => ?_) (fun {x} s hx => ?_)
  · obtain ⟨⟨whole, places⟩, hp, h⟩ := Option.map_eq_some_iff.1 h
    obtain ⟨rfl, -⟩ := Prod.mk.inj h
    obtain ⟨rest, rfl, hne, hw, hpl⟩ := decimalParts?_eq_some hp
    refine ⟨_, rest, rfl, rfl, by simp [decimalLexeme, hne], fun c hc => ?_⟩
    simp only [decimalLexeme, List.mem_append] at hc
    rcases hc with hc | hc
    · exact isPlain_of_isDigit (hw c hc)
    · split at hc
      · simp at hc
      · rcases List.mem_cons.1 hc with rfl | hc
        · decide
        · exact isPlain_of_isDigit (hpl c hc)
  · have hd := mem_dropWhile_of_mem hx isDigit_close
    unfold decimalLexeme? decimalParts?
    simp only [takeWhile_append_of_mem s hx isDigit_close,
      dropWhile_append_of_mem s hx isDigit_close]
    rcases hr : x.dropWhile Char.isDigit with _ | ⟨c, rest⟩
    · simp [hr] at hd
    · by_cases hc : c = '.'
      · subst hc
        have hm : ')' ∈ rest := by simpa [hr] using hd
        simp [takeWhile_append_of_mem s hm isDigit_close]
      · split <;> simp_all

theorem contained_integerLexeme? : Contained integerLexeme? := by
  refine .of_extent (fun {cs n a} h => ?_) (fun {x} s hx => ?_)
  · unfold integerLexeme? at h
    split at h
    · simp at h
    · rename_i hne
      obtain ⟨rfl, -⟩ := Prod.mk.inj (Option.some.inj h)
      exact ⟨cs.takeWhile Char.isDigit, cs.dropWhile Char.isDigit, by simp, rfl, hne,
        fun c hc => isPlain_of_isDigit (of_mem_takeWhile hc)⟩
  · simp only [integerLexeme?, takeWhile_append_of_mem s hx isDigit_close]

end Pddl
