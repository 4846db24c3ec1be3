import Pddl.Proofs.Lexeme

/-!
# Words behind which something ends

Written constructs are followed by a closing parenthesis, by a blank or by nothing.  There a word is
recognised as a whole, and no other word is taken for it.

* `Delimited` : what may follow a written construct.
* `Apart` : one fixed word is not in front of another.
* `keywordLength?_self`, `keywordLength?_of_apart` : fixed words that are and are not in front.
* `symbolLexeme?_written` : a written symbol is in front.
-/

namespace Pddl

/-! ### What follows -/

/-- What may follow a written construct: nothing, a closing parenthesis or a blank. -/
def Delimited (r : List Char) : Prop := ∀ c ∈ r.head?, c = ')' ∨ isBlank c = true

namespace Delimited

@[simp] theorem nil : Delimited [] := by simp [Delimited]

@[simp] theorem close (r : List Char) : Delimited (')' :: r) := by simp [Delimited]

theorem blank {c : Char} (h : isBlank c = true) (r : List Char) : Delimited (c :: r) := by
  simp [Delimited, h]

/-- Where something else would go on, nothing does. -/
theorem any_eq_false {r : List Char} (h : Delimited r) {p : Char → Bool} (hc : p ')' = false)
    (hb : ∀ c, isBlank c = true → p c = false) : r.head?.any p = false := by
  cases r with
  | nil => rfl
  | cons c r =>
    rcases h c (by simp) with rfl | h
    · simpa using hc
    · simpa using hb c h

theorem any_isNameChar {r : List Char} (h : Delimited r) : r.head?.any isNameChar = false :=
  h.any_eq_false (by decide) fun c hc => by
    rw [Bool.eq_false_iff]
    intro hn
    rw [isBlank_eq_false_of_isNameChar hn] at hc
    exact Bool.false_ne_true hc

theorem any_isDigit {r : List Char} (h : Delimited r) : r.head?.any Char.isDigit = false := by
  have h := h.any_isNameChar
  rcases r with _ | ⟨c, r⟩
  · rfl
  · simp only [List.head?_cons, Option.any_some, isNameChar, Bool.or_eq_false_iff,
      Char.isAlphanum] at h ⊢
    exact h.1.1.2

theorem head?_ne {r : List Char} (h : Delimited r) {c : Char} (hc : c ≠ ')')
    (hb : isBlank c = false) : r.head? ≠ some c := by
  intro hr
  rcases h c hr with rfl | h
  · exact hc rfl
  · rw [hb] at h
    exact Bool.false_ne_true h

end Delimited

theorem takeWhile_append_of_delimited {p : Char → Bool} {x r : List Char} (hx : ∀ c ∈ x, p c = true)
    (hr : r.head?.any p = false) : (x ++ r).takeWhile p = x := by
  induction x with
  | nil =>
    cases r with
    | nil => rfl
    | cons c r => simp [show p c = false by simpa using hr]
  | cons c x ih =>
    rw [List.cons_append, List.takeWhile_cons_of_pos (hx c (by simp)),
      ih fun c hc => hx c (List.mem_cons_of_mem _ hc)]

theorem dropWhile_append_of_delimited {p : Char → Bool} {x r : List Char} (hx : ∀ c ∈ x, p c = true)
    (hr : r.head?.any p = false) : (x ++ r).dropWhile p = r := by
  have h := List.takeWhile_append_dropWhile (p := p) (l := x ++ r)
  rw [takeWhile_append_of_delimited hx hr] at h
  exact List.append_cancel_left h

/-! ### Symbols -/

theorem nameLexeme?_written {name r : List Char} (h : isName name = true)
    (hr : r.head?.any isNameChar = false) : nameLexeme? (name ++ r) = some name := by
  cases name with
  | nil => simp [isName] at h
  | cons c name =>
    simp only [isName, Bool.and_eq_true, List.all_eq_true] at h
    rw [List.cons_append, nameLexeme?, if_pos h.1, takeWhile_append_of_delimited h.2 hr]

namespace Terminal

/-- A written symbol is in front. -/
theorem symbolLexeme?_written {kind : SymbolKind} (s : Symbol kind) {r : List Char}
    (hr : r.head?.any isNameChar = false) :
    symbolLexeme? kind (s.written.toList ++ r) = some (s.written.toList.length, s) := by
  have hp : kind.sigil.toList.isPrefixOf? (kind.sigil.toList ++ (s.text.toList ++ r)) =
      some (s.text.toList ++ r) := isPrefixOf?_eq_some.2 rfl
  have hs : Symbol.ofString? kind s.text = some s := Symbol.ofString?_eq_some_iff.2 rfl
  simp [symbolLexeme?, hp, nameLexeme?_written s.valid hr, hs, Symbol.written, String.toList_append]

/-- Symbols without a sigil begin like names. -/
theorem symbolLexeme?_eq_none {kind : SymbolKind} {cs : List Char} (hk : kind.sigil = "")
    (h : cs.head?.any isNameStart = false) : symbolLexeme? kind cs = none := by
  have hp : kind.sigil.toList.isPrefixOf? cs = some cs := isPrefixOf?_eq_some.2 (by simp [hk])
  have hn : nameLexeme? cs = none := by
    cases cs with
    | nil => rfl
    | cons c cs => simpa [nameLexeme?] using h
  simp [symbolLexeme?, hp, hn]

/-- Variables begin with a question mark. -/
theorem symbolLexeme?_var_eq_none {cs : List Char} (h : cs.head? ≠ some '?') :
    symbolLexeme? .var cs = none := by
  have hp : (['?'] : List Char).isPrefixOf? cs = none := by
    cases cs with
    | nil => rfl
    | cons c cs =>
      have hc : '?' ≠ c := fun hc => h (by rw [hc]; rfl)
      simp [List.isPrefixOf?, hc]
  simp [symbolLexeme?, SymbolKind.sigil, hp]

end Terminal

/-! ### Fixed words -/

/-- The fixed word is not in front of the given word. -/
def Apart (w : String) (h : List Char) : Bool :=
  match wordsOf w.toList with
  | [] => false
  | part :: parts =>
    match part.isPrefixOf? h with
    | none => true
    | some rest =>
      if parts.isEmpty then w.toList.getLast?.any isNameChar && rest.head?.any isNameChar
      else rest.head?.any fun c => !isWideBlank c

/-- A fixed word of one part, which holds neither parentheses nor blanks. -/
def IsWord (w : String) : Prop := IsPlainWord w ∧ wordsOf w.toList = [w.toList]

instance (w : String) : Decidable (IsWord w) := inferInstanceAs (Decidable (_ ∧ _))

theorem isWideBlank_of_mem_wordsOf {cs w : List Char} {c : Char} (hw : w ∈ wordsOf cs) (hc : c ∈ w) :
    isWideBlank c = false := by
  obtain ⟨hw, hall⟩ := List.mem_filter.1 hw
  have hall : ∃ d ∈ w, isWideBlank d = false := by simpa using hall
  obtain ⟨d, hd, hdb⟩ := hall
  -- the characters of one part are all white space or none of them is
  have hchain : w.IsChain fun a b => isWideBlank a = isWideBlank b :=
    (List.isChain_of_mem_splitBy hw).imp fun a b h => beq_iff_eq.1 h
  have : IsTrans Char fun a b => isWideBlank a = isWideBlank b := ⟨fun _ _ _ => Eq.trans⟩
  have : Std.Symm fun a b : Char => isWideBlank a = isWideBlank b := ⟨fun _ _ => Eq.symm⟩
  have hcd : isWideBlank c = isWideBlank d :=
    List.Pairwise.forall_of_forall (R := fun a b => isWideBlank a = isWideBlank b) (fun _ _ => rfl)
      (List.isChain_iff_pairwise.1 hchain) hc hd
  rw [hcd, hdb]

/-- A fixed word of one part is in front of no other name. -/
theorem apart_of_isName {w : String} (hw : IsWord w) {name : List Char} (hn : isName name = true)
    (hne : name ≠ w.toList) : Apart w name = true := by
  unfold Apart
  rw [hw.2]
  rcases hp : w.toList.isPrefixOf? name with _ | rest
  · simp [hp]
  -- the name goes on behind the word, which is then made of name characters itself
  · obtain rfl := isPrefixOf?_eq_some.1 hp
    have hchars := isNameChar_of_mem_name hn
    rcases rest with _ | ⟨c, rest⟩
    · simp at hne
    · rcases hl : w.toList.getLast? with _ | d
      · exact absurd (List.getLast?_eq_none_iff.1 hl)
          (ne_nil_of_mem_wordsOf (show w.toList ∈ wordsOf w.toList by simp [hw.2]))
      · simp [hp, hchars c (by simp),
          hchars d (List.mem_append_left _ (List.mem_of_getLast? hl))]

/-- A fixed word is in front where it runs into no longer name. -/
theorem keywordLength?_append_self {w : String} (hw : IsWord w) {r : List Char}
    (hr : r.head?.any isNameChar = false) :
    keywordLength? w (w.toList ++ r) = some w.toList.length := by
  rw [keywordLength?_eq_some, hw.2, wordsLength?_cons]
  exact ⟨⟨r, rfl, .inl ⟨rfl, rfl⟩⟩, by simp [hr]⟩

/-- A written fixed word is in front. -/
theorem keywordLength?_self {w : String} (hw : IsWord w) {r : List Char} (hr : Delimited r) :
    keywordLength? w (w.toList ++ r) = some w.toList.length :=
  keywordLength?_append_self hw hr.any_isNameChar

/-- Another fixed word is not in front of a written one. -/
theorem keywordLength?_of_apart {w : String} {h r : List Char} (ha : Apart w h = true)
    (hw : IsPlainWord w) (hr : Delimited r) : keywordLength? w (h ++ r) = none := by
  rcases hn : keywordLength? w (h ++ r) with _ | n
  · rfl
  obtain ⟨hn, hon⟩ := keywordLength?_eq_some.1 hn
  unfold Apart at ha
  rcases hws : wordsOf w.toList with _ | ⟨part, parts⟩
  · exact absurd hws hw.2
  rw [hws] at hn
  simp only [hws] at ha
  obtain ⟨rest, hcs, hrest⟩ := wordsLength?_cons.1 hn
  have hpart : part ∈ wordsOf w.toList := by simp [hws]
  -- the first part of the word lies within the written word
  obtain ⟨x, rfl⟩ : ∃ x, h = part ++ x := by
    rcases List.append_eq_append_iff.1 hcs with ⟨x, hx, hr'⟩ | ⟨x, hx, -⟩
    · rcases x with _ | ⟨c, x⟩
      · exact ⟨[], by simpa using hx.symm⟩
      · have hc : c ∈ part := by simp [hx]
        rcases hr c (by simp [hr']) with rfl | hb
        · exact absurd (isPlain_of_mem_wordsOf hw part hpart _ hc) (by decide)
        · have := isWideBlank_of_mem_wordsOf hpart hc
          rw [isWideBlank_of_isBlank hb] at this
          exact absurd this (by decide)
    · exact ⟨x, hx⟩
  rw [isPrefixOf?_eq_some.2 rfl] at ha
  simp only at ha
  obtain rfl : rest = x ++ r := by simpa using hcs.symm
  rcases hrest with ⟨rfl, rfl⟩ | ⟨hne, m, -, hb, -⟩
  · rcases x with _ | ⟨c, x⟩
    · simp at ha
    · simp_all
  · rcases x with _ | ⟨c, x⟩
    · simp [hne] at ha
    · simp_all

end Pddl
