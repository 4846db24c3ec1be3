import Pddl.Number.Numeral
import Pddl.Symbol

/-!
# Lexemes

The smallest pieces of a planning text, each recognised at the beginning of the remaining
characters.  A lexeme never takes blanks in front of it along; blanks and comments are a lexeme of
their own.

* `Token` : the classes of lexemes and how they are called in messages.
* `blankLength` : blanks and comments; a comment runs from a semicolon up to the end of its line.
* `nameLexeme?`, `Token.lexeme?` : the characters of a lexeme of some class.
* `Keyword` : a fixed word, perhaps of several parts, and how far it reaches.
* `emptyParensLength?` : a pair of parentheses with at most blanks between them.
-/

namespace Pddl

/-! ### Blanks and comments -/

/-- The number of characters of the blanks and comments in front, given whether a comment is
open. -/
def blankLength (inComment : Bool) : List Char → Nat
  | [] => 0
  | c :: cs =>
    if inComment then 1 + blankLength (c != '\n') cs
    else if isBlank c then 1 + blankLength false cs
    else if c == ';' then 1 + blankLength true cs
    else 0

theorem blankLength_le (inComment : Bool) (cs : List Char) :
    blankLength inComment cs ≤ cs.length := by
  induction cs generalizing inComment with
  | nil => simp [blankLength]
  | cons c cs ih =>
    simp only [blankLength, List.length_cons]
    split
    · have := ih (c != '\n'); omega
    · split
      · have := ih false; omega
      · split
        · have := ih true; omega
        · omega

/-! ### Tokens -/

/-- A class of lexemes. -/
inductive Token where
  | name | var | keyword | number | whitespace
  deriving DecidableEq, Repr

/-- What a lexeme of the class is called in messages. -/
def Token.description : Token → String
  | name => "a name"
  | var => "a variable"
  | keyword => "a keyword"
  | number => "a number"
  | whitespace => "a whitespace"

/-- The longest name in front. -/
def nameLexeme? : List Char → Option (List Char)
  | [] => none
  | c :: cs => if isNameStart c then some (c :: cs.takeWhile isNameChar) else none

theorem isName_of_nameLexeme? {cs name : List Char} (h : nameLexeme? cs = some name) :
    isName name = true := by
  cases cs with
  | nil => simp [nameLexeme?] at h
  | cons c cs =>
    simp only [nameLexeme?] at h
    split at h
    · rename_i hc
      obtain rfl := Option.some.inj h
      simp only [isName, hc, Bool.true_and, List.all_eq_true]
      intro x hx
      induction cs with
      | nil => simp at hx
      | cons d ds ih =>
        by_cases hd : isNameChar d = true
        · simp only [List.takeWhile_cons_of_pos hd, List.mem_cons] at hx
          rcases hx with rfl | hx
          · exact hd
          · exact ih (by simp) hx
        · simp [hd] at hx
    · simp at h

/-- The longest name behind a mark in front. -/
def markedLexeme? (mark : Char) : List Char → Option (List Char)
  | [] => none
  | c :: cs => if c == mark then (nameLexeme? cs).map (c :: ·) else none

/-- The decimal number in front: its digits before and behind the point. -/
def decimalParts? (cs : List Char) : Option (List Char × List Char) :=
  let whole := cs.takeWhile Char.isDigit
  if whole.isEmpty then none
  else
    match cs.dropWhile Char.isDigit with
    | '.' :: rest => some (whole, rest.takeWhile Char.isDigit)
    | _ => some (whole, [])

/-- The characters of a decimal number. -/
def decimalLexeme (whole places : List Char) : List Char :=
  whole ++ if places.isEmpty then [] else '.' :: places

/-- The characters of the lexeme of a class in front. -/
def Token.lexeme? (cs : List Char) : Token → Option (List Char)
  | name => nameLexeme? cs
  | var => markedLexeme? '?' cs
  | keyword => markedLexeme? ':' cs
  | number => (decimalParts? cs).map fun (whole, places) => decimalLexeme whole places
  | whitespace =>
    match blankLength false cs with
    | 0 => none
    | n => some (cs.take n)

/-! ### Fixed words -/

/-- The parts of a text that white space separates. -/
def wordsOf (cs : List Char) : List (List Char) :=
  (cs.splitBy fun a b => isWideBlank a == isWideBlank b).filter fun part =>
    !part.all isWideBlank

/-- The number of characters of the given words in front, with white space of any length between
two of them. -/
def wordsLength? : List (List Char) → List Char → Option Nat
  | [], _ => some 0
  | word :: words, cs => do
    let rest ← word.isPrefixOf? cs
    if words.isEmpty then return word.length
    let blanks := (rest.takeWhile isWideBlank).length
    if blanks = 0 then none
    else return word.length + blanks + (← wordsLength? words (rest.drop blanks))

/-- The number of characters of a fixed word in front.  A word that ends in a name character must
not run into a longer name. -/
def keywordLength? (word : String) (cs : List Char) : Option Nat := do
  let length ← wordsLength? (wordsOf word.toList) cs
  let runsOn := word.toList.getLast?.any isNameChar && (cs.drop length).head?.any isNameChar
  if runsOn then none else return length

/-- The number of characters of a pair of parentheses in front that holds at most blanks. -/
def emptyParensLength? : List Char → Option Nat
  | '(' :: cs =>
    match cs.dropWhile isWideBlank with
    | ')' :: _ => some ((cs.takeWhile isWideBlank).length + 2)
    | _ => none
  | _ => none

end Pddl
