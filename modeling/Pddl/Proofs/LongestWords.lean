import Pddl.Proofs.TimedEffects

/-!
# The longest word of a vocabulary

The words of a vocabulary are prefixes of one another (`<` and `<=`) and of ordinary names (`end`
and `ending`), and the hyphen is an operator as well as a character of names.  Which word is read at
a place is said here without the order in which the words are tried: it is the longest one that
stands there.

* `StandsAt` : a word stands at an offset of a text and does not run into a longer name.
* `Vocabulary.IsLongestAt` : a member whose word stands there, where no longer word does.
* `Terminal.firstMatch?_longest` : of words with the longer ones first, the longest one is found.
* `Vocabulary.TakesLongest` : a member is read exactly where a word stands, it is the one with the
  longest word, and the place behind that word is where reading goes on.
* `Rule.parse_longest_word` : **every vocabulary of the grammar takes the longest word.**
-/

namespace Pddl

instance : PlainVocabulary VariadicOp where
  isWord a := by cases a <;> decide
  injective a b := by cases a <;> cases b <;> decide

instance : PlainVocabulary RateOp where
  isWord a := by cases a <;> decide
  injective a b := by cases a <;> cases b <;> decide

instance : PlainVocabulary DurationComparator where
  isWord a := by cases a <;> decide
  injective a b := by cases a <;> cases b <;> decide

instance : PlainVocabulary Interval where
  isWord a := by cases a; decide
  injective a b := by cases a; cases b; decide

/-! ### Words at a place -/

/-- The word stands at the offset of the text, and if it ends in a name character, then none of
those follows it. -/
def StandsAt (w : String) (text : List Char) (offset : Nat) : Prop :=
  ∃ front back, text = front ++ w.toList ++ back ∧ front.length = offset ∧
    (w.toList.getLast?.any isNameChar = true → back.head?.any isNameChar = false)

/-- Of two words at one place, the one that is no longer is a beginning of the other. -/
theorem StandsAt.prefix {v w : String} {text : List Char} {offset : Nat} (hv : StandsAt v text offset)
    (hw : StandsAt w text offset) (hlen : v.length ≤ w.length) : v.toList <+: w.toList := by
  obtain ⟨front, back, hv, hoffset, -⟩ := hv
  obtain ⟨front', back', hw, hoffset', -⟩ := hw
  rw [hv, List.append_assoc, List.append_assoc] at hw
  obtain ⟨rfl, h⟩ := List.append_inj hw (hoffset.trans hoffset'.symm)
  exact List.prefix_of_prefix_length_le (h ▸ List.prefix_append ..) (List.prefix_append ..) hlen

/-- A single word is taken exactly where it stands, and nothing but its own characters. -/
theorem keywordLength?_eq_some_iff_standsAt {w : String} (hw : IsWord w) (c : Cursor) {n : Nat} :
    keywordLength? w c.rest = some n ↔ StandsAt w c.text c.offset ∧ n = w.length := by
  have hpos : w.toList ≠ [] := fun h => hw.1.2 (by rw [h]; rfl)
  rw [keywordLength?_eq_some, hw.2, wordsLength?_cons, c.rest_eq]
  constructor
  · rintro ⟨⟨back, hrest, ⟨-, rfl⟩ | ⟨hne, -⟩⟩, hends⟩
    · refine ⟨⟨c.text.take c.offset, back, ?_, ?_, fun hlast => ?_⟩,
        String.length_toList⟩
      · rw [List.append_assoc, ← hrest, List.take_append_drop]
      · -- a word has characters, and so the offset is not beyond the end of the text
        have hlen := congrArg List.length hrest
        have := List.length_pos_of_ne_nil hpos
        simp only [List.length_drop, List.length_append] at hlen
        rw [List.length_take, Nat.min_eq_left (by omega)]
      · rw [hrest, List.drop_left, hlast, Bool.true_and] at hends
        exact hends
    · exact absurd rfl hne
  · rintro ⟨⟨front, back, htext, hoffset, hends⟩, rfl⟩
    have hdrop : c.text.drop c.offset = w.toList ++ back := by
      rw [htext, ← hoffset, List.append_assoc, List.drop_left]
    refine ⟨⟨back, hdrop, .inl ⟨rfl, String.length_toList.symm⟩⟩, ?_⟩
    rw [hdrop, ← String.length_toList, List.drop_left, Bool.and_eq_false_imp]
    exact hends

/-! ### The order of the trials -/

namespace Terminal

variable {α : Type} {s : List Char} {entries : List (String × α)} {n : Nat} {a : α}

/-- Of words with the longer ones first, the one that is found is the longest one in front. -/
theorem firstMatch?_longest (hsorted : entries.Pairwise fun a b => b.1.length ≤ a.1.length)
    (h : firstMatch? s entries = some (n, a)) :
    ∃ w, (w, a) ∈ entries ∧ keywordLength? w s = some n ∧
      ∀ e ∈ entries, keywordLength? e.1 s ≠ none → e.1.length ≤ w.length := by
  induction entries with
  | nil => simp [firstMatch?] at h
  | cons e entries ih =>
    rw [List.pairwise_cons] at hsorted
    rw [firstMatch?] at h
    rcases he : keywordLength? e.1 s with _ | m
    · rw [he] at h
      obtain ⟨w, hw, hn, hmax⟩ := ih hsorted.2 h
      refine ⟨w, List.mem_cons_of_mem _ hw, hn, fun x hx hfront => ?_⟩
      rcases List.mem_cons.1 hx with rfl | hx
      · exact absurd he hfront
      · exact hmax x hx hfront
    · rw [he] at h
      obtain ⟨rfl, rfl⟩ := Prod.mk.inj (Option.some.inj h)
      refine ⟨e.1, by simp, he, fun x hx _ => ?_⟩
      rcases List.mem_cons.1 hx with rfl | hx
      · exact Nat.le_refl _
      · exact hsorted.1 x hx

theorem keywordLength?_of_firstMatch?_eq_none (h : firstMatch? s entries = none) :
    ∀ e ∈ entries, keywordLength? e.1 s = none := by
  induction entries with
  | nil => simp
  | cons e entries ih =>
    rw [firstMatch?] at h
    split at h
    · simp at h
    · rename_i he
      exact List.forall_mem_cons.2 ⟨he, ih h⟩

end Terminal

/-! ### The word that is taken -/

namespace Vocabulary

variable {ω : Type} [Vocabulary ω]

theorem mem_longestFirst_entries {e : String × ω} :
    e ∈ Terminal.longestFirst (entries ω) ↔ e.1 = keyword e.2 := by
  rw [mem_longestFirst, entries, List.mem_map]
  constructor
  · rintro ⟨a, -, rfl⟩
    rfl
  · exact fun h => ⟨e.2, complete e.2, by rw [← h]⟩

/-- The member's word stands at the offset of the text, and no longer word of the vocabulary
does. -/
structure IsLongestAt (a : ω) (text : List Char) (offset : Nat) : Prop where
  stands : StandsAt (keyword a) text offset
  longest : ∀ b : ω, StandsAt (keyword b) text offset → (keyword b).length ≤ (keyword a).length

variable (ω) in
/-- A member of the vocabulary is read at a place exactly if the word of some member stands there.
It is the member with the longest word, and the place behind is the one behind that word.
Otherwise the words of the vocabulary are reported as missing at the very place. -/
def TakesLongest : Prop :=
  ∀ c : Cursor,
    ((∃ d a, Rule.parse (Grammar.keyword ω) c = .ok (d, a)) ↔
      ∃ a : ω, StandsAt (keyword a) c.text c.offset) ∧
    (∀ d a, Rule.parse (Grammar.keyword ω) c = .ok (d, a) ↔
      IsLongestAt a c.text c.offset ∧ d = c.moveTo (c.offset + (keyword a).length)) ∧
    ((¬∃ a : ω, StandsAt (keyword a) c.text c.offset) →
      Rule.parse (Grammar.keyword ω) c =
        .error (.mismatch (c.mismatch (.oneOf ((members (α := ω)).map keyword)))))

variable [PlainVocabulary ω]

/-- At a place, only one word is the longest. -/
theorem IsLongestAt.unique {a b : ω} {text : List Char} {offset : Nat}
    (ha : IsLongestAt a text offset) (hb : IsLongestAt b text offset) : a = b := by
  have hlen : (keyword a).length = (keyword b).length :=
    Nat.le_antisymm (hb.longest a ha.stands) (ha.longest b hb.stands)
  have hstarts := ha.stands.prefix hb.stands (Nat.le_of_eq hlen)
  exact PlainVocabulary.injective a b
    (String.toList_inj.1 (hstarts.eq_of_length hlen))

theorem keywordLength?_eq_some_iff (a : ω) (c : Cursor) {n : Nat} :
    keywordLength? (keyword a) c.rest = some n ↔
      StandsAt (keyword a) c.text c.offset ∧ n = (keyword a).length :=
  keywordLength?_eq_some_iff_standsAt (PlainVocabulary.isWord a) c

/-- What is found among the words is the member with the longest one. -/
theorem isLongestAt_of_firstMatch? {c : Cursor} {n : Nat} {a : ω}
    (h : Terminal.firstMatch? c.rest (Terminal.longestFirst (entries ω)) = some (n, a)) :
    IsLongestAt a c.text c.offset ∧ n = (keyword a).length := by
  obtain ⟨w, hw, hn, hmax⟩ := Terminal.firstMatch?_longest (pairwise_longestFirst _) h
  obtain rfl : w = keyword a := mem_longestFirst_entries.1 hw
  obtain ⟨hstands, hn⟩ := (keywordLength?_eq_some_iff a c).1 hn
  refine ⟨⟨hstands, fun b hb => ?_⟩, hn⟩
  have hfront := (keywordLength?_eq_some_iff b c).2 ⟨hb, rfl⟩
  exact hmax (keyword b, b) (mem_longestFirst_entries.2 rfl) (by simp [hfront])

/-- Either the longest word is read, or no word stands there. -/
theorem parse_keyword (c : Cursor) :
    (∃ a : ω, IsLongestAt a c.text c.offset ∧
      Rule.parse (Grammar.keyword ω) c = .ok (c.moveTo (c.offset + (keyword a).length), a)) ∨
    (∀ a : ω, ¬StandsAt (keyword a) c.text c.offset) ∧
      Rule.parse (Grammar.keyword ω) c =
        .error (.mismatch (c.mismatch (.oneOf ((members (α := ω)).map keyword)))) := by
  have hparse : Rule.parse (Grammar.keyword ω) c = Terminal.parseOneOf (entries ω) c := rfl
  rw [hparse, Terminal.parseOneOf]
  rcases hfirst : Terminal.firstMatch? c.rest (Terminal.longestFirst (entries ω)) with _ | ⟨n, a⟩
  · have hwords : (entries ω).map Prod.fst = (members (α := ω)).map keyword := by
      simp [entries, Function.comp_def]
    refine .inr ⟨fun a ha => ?_, by rw [hwords]⟩
    have hnone := Terminal.keywordLength?_of_firstMatch?_eq_none hfirst (keyword a, a)
      (mem_longestFirst_entries.2 rfl)
    rw [(keywordLength?_eq_some_iff a c).2 ⟨ha, rfl⟩] at hnone
    exact nomatch hnone
  · obtain ⟨hlongest, rfl⟩ := isLongestAt_of_firstMatch? hfirst
    refine .inl ⟨a, hlongest, ?_⟩
    rw [← Cursor.advance_eq_moveTo]

/-- A vocabulary of different single words takes the longest one. -/
theorem takesLongest : TakesLongest ω := by
  intro c
  rcases parse_keyword (ω := ω) c with ⟨a, ha, hparse⟩ | ⟨hnone, hparse⟩
  · refine ⟨⟨fun _ => ⟨a, ha.stands⟩, fun _ => ⟨_, _, hparse⟩⟩, fun d b => ?_,
      fun h => absurd ⟨a, ha.stands⟩ h⟩
    rw [hparse]
    constructor
    · intro h
      obtain ⟨rfl, rfl⟩ := Prod.mk.inj (Except.ok.inj h)
      exact ⟨ha, rfl⟩
    · rintro ⟨hb, rfl⟩
      obtain rfl := ha.unique hb
      rfl
  · refine ⟨⟨?_, fun ⟨a, ha⟩ => absurd ha (hnone a)⟩, fun d b => ?_, fun _ => hparse⟩
    · rintro ⟨d, a, h⟩
      rw [hparse] at h
      exact nomatch h
    · rw [hparse]
      exact ⟨nofun, fun h => absurd h.1.stands (hnone b)⟩

end Vocabulary

open Vocabulary

/-- Every vocabulary of the grammar takes the longest word that stands at a place. -/
theorem Rule.parse_longest_word :
    TakesLongest Comparator ∧ TakesLongest ArithmeticOp ∧ TakesLongest VariadicOp ∧
      TakesLongest AssignOp ∧ TakesLongest RateOp ∧ TakesLongest DurationComparator ∧
      TakesLongest TimePoint ∧ TakesLongest Interval ∧ TakesLongest Optimization :=
  ⟨takesLongest, takesLongest, takesLongest, takesLongest, takesLongest, takesLongest,
    takesLongest, takesLongest, takesLongest⟩

end Pddl
