/-!
# Character classes

Classes of characters decide where the tokens of a planning text begin and end.

* `isBlank` : the six ASCII blanks that may stand between tokens.
* `isWideBlank` : every Unicode white-space character and the four ASCII separators; inside a
  keyword of several words, inside an empty pair of parentheses, and in front of a list element
  these count as blanks too.
* `isWhiteSpace` : the white-space characters without those separators.
* `isNameChar` : the characters that may continue a name; `isName` is the shape of a whole name.

The narrow class is part of the wide one (`isWideBlank_of_isBlank`), and no name holds a blank
(`isBlank_eq_false_of_isNameChar`).
-/

namespace Pddl

/-- The blanks between tokens: space, tab, line feed, vertical tab, form feed, carriage return. -/
def isBlank (c : Char) : Bool :=
  c == ' ' || (9 ≤ c.toNat && c.toNat ≤ 13)

/-- The Unicode white-space characters, together with the separators U+001C to U+001F, as
inclusive ranges of code points. -/
def wideBlankRanges : List (Nat × Nat) :=
  [(0x09, 0x0D), (0x1C, 0x20), (0x85, 0x85), (0xA0, 0xA0), (0x1680, 0x1680), (0x2000, 0x200A),
    (0x2028, 0x2029), (0x202F, 0x202F), (0x205F, 0x205F), (0x3000, 0x3000)]

/-- The character is white space anywhere in Unicode. -/
def isWideBlank (c : Char) : Bool :=
  wideBlankRanges.any fun (lo, hi) => lo ≤ c.toNat && c.toNat ≤ hi

/-- The character is white space in Unicode; the ASCII separators are not. -/
def isWhiteSpace (c : Char) : Bool := isWideBlank c && !(0x1C ≤ c.toNat && c.toNat ≤ 0x1F)

/-- The text without the white space at either end. -/
def trimWhiteSpace (cs : List Char) : List Char :=
  ((cs.dropWhile isWhiteSpace).reverse.dropWhile isWhiteSpace).reverse

/-- A name begins with an ASCII letter. -/
def isNameStart (c : Char) : Bool := c.isAlpha

/-- A name goes on with ASCII letters, digits, hyphens and underscores. -/
def isNameChar (c : Char) : Bool := c.isAlphanum || c == '-' || c == '_'

/-- The characters form a name: a letter, then name characters. -/
def isName : List Char → Bool
  | [] => false
  | c :: cs => isNameStart c && cs.all isNameChar

theorem isWideBlank_of_isBlank {c : Char} (h : isBlank c = true) : isWideBlank c = true := by
  have h20 : ' '.toNat = 32 := rfl
  simp only [isBlank, Bool.or_eq_true, beq_iff_eq, Bool.and_eq_true, decide_eq_true_eq] at h
  rcases h with rfl | h
  · decide
  · simp only [isWideBlank, wideBlankRanges, List.any_cons, Bool.or_eq_true, Bool.and_eq_true,
      decide_eq_true_eq]
    exact .inl (by omega)

theorem isNameChar_of_isNameStart {c : Char} (h : isNameStart c = true) : isNameChar c = true := by
  simp only [isNameStart] at h
  simp [isNameChar, Char.isAlphanum, h]

theorem isNameChar_blank {n : Nat} (h : n = 32 ∨ 9 ≤ n ∧ n ≤ 13) :
    isNameChar (Char.ofNat n) = false := by
  have hn : n = 32 ∨ n = 9 ∨ n = 10 ∨ n = 11 ∨ n = 12 ∨ n = 13 := by omega
  rcases hn with rfl | rfl | rfl | rfl | rfl | rfl <;> decide

theorem isBlank_eq_false_of_isNameChar {c : Char} (h : isNameChar c = true) :
    isBlank c = false := by
  rw [Bool.eq_false_iff]
  intro hb
  have hn : c.toNat = 32 ∨ 9 ≤ c.toNat ∧ c.toNat ≤ 13 := by
    simp only [isBlank, Bool.or_eq_true, beq_iff_eq, Bool.and_eq_true, decide_eq_true_eq] at hb
    exact hb.imp (fun hc => by rw [hc]; rfl) id
  have hc := isNameChar_blank hn
  rw [Char.ofNat_toNat] at hc
  rw [hc] at h
  exact Bool.false_ne_true h

end Pddl
