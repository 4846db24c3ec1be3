/-!
# Similar words

How much two words resemble each other is measured by what they have in common: their longest
common block, then what is left and right of it in both, and so on.

* `longestBlock` : the first of the longest blocks that two words have in common.
* `commonLength` : how many characters two words have in common, block by block.
* `resembles` : at least three fifths of the characters of both words are common ones.
* `similarWords` : the words of a list that resemble a word most, three of them at most.
-/

namespace Pddl

/-- The length of what two words begin with in common. -/
def commonPrefixLength : List Char → List Char → Nat
  | a :: as, b :: bs => if a == b then commonPrefixLength as bs + 1 else 0
  | _, _ => 0

/-- A block that two words have in common. -/
structure CommonBlock where
  /-- How many characters stand before it in the first word. -/
  left : Nat
  /-- How many characters stand before it in the second word. -/
  right : Nat
  /-- Its length. -/
  length : Nat

/-- The blocks that two words have in common, by where they begin in the first word, then in the
second. -/
def commonBlocks (a b : List Char) : List CommonBlock :=
  (List.range a.length).flatMap fun i =>
    (List.range b.length).map fun j => ⟨i, j, commonPrefixLength (a.drop i) (b.drop j)⟩

/-- The first of the longest blocks that two words have in common. -/
def longestBlock (a b : List Char) : CommonBlock :=
  (commonBlocks a b).foldl (fun best block => if best.length < block.length then block else best)
    ⟨0, 0, 0⟩

/-- How many characters two words have in common, given at least as much fuel as the first word has
characters. -/
def commonLengthWithin : (fuel : Nat) → List Char → List Char → Nat
  | 0, _, _ => 0
  | fuel + 1, a, b =>
    let block := longestBlock a b
    if block.length = 0 then 0
    else
      commonLengthWithin fuel (a.take block.left) (b.take block.right) + block.length +
        commonLengthWithin fuel (a.drop (block.left + block.length))
          (b.drop (block.right + block.length))

/-- How many characters two words have in common.  Every block takes a character of the first word
away, so its length is fuel enough. -/
def commonLength (a b : List Char) : Nat := commonLengthWithin a.length a b

/-- A candidate for a word, with how many characters they have in common. -/
structure Candidate where
  /-- The candidate. -/
  text : String
  /-- The number of characters in common. -/
  common : Nat
  /-- The number of characters of both. -/
  total : Nat

/-- The candidate for a word. -/
def Candidate.of (word text : String) : Candidate where
  text := text
  common := commonLength text.toList word.toList
  total := text.length + word.length

/-- At least three fifths of the characters of both are common ones. -/
def Candidate.resembles (c : Candidate) : Bool := 3 * c.total ≤ 10 * c.common

/-- The first candidate resembles the word at least as much; of two that do so equally, it is the
later one in the order of texts. -/
def Candidate.precedes (c d : Candidate) : Bool :=
  d.common * c.total < c.common * d.total ||
    (d.common * c.total == c.common * d.total && d.text ≤ c.text)

/-- The words of a list that resemble a word most, three of them at most. -/
def similarWords (word : String) (texts : List String) : List String :=
  let near := texts.filter fun text => 3 * (text.length + word.length) ≤
    10 * min text.length word.length
  let candidates := (near.map (Candidate.of word)).filter Candidate.resembles
  ((candidates.mergeSort Candidate.precedes).take 3).map Candidate.text

end Pddl
