import Mathlib.Data.List.Basic
import Pddl.Cursor

/-!
# Tables of lines

The table of a text holds exactly the offsets at which lines begin, in order, and the binary search
in it finds the last of them at or before an offset.  So positions are what a reader counts.

* `IsLineStart` : where the lines of a text begin; `mem_lineStarts_iff` : the table holds them.
* `splitsAt_bisectRight` : entries below the index are not beyond what is searched for, all others
  are.
* `Position.of_line` : **the line is one more than the number of line feeds before the offset.**
* `Position.exists_lineStart` : **the column counts from the last line start.**
-/

namespace Pddl

/-- A line of the text begins at the offset: at the beginning, or just behind a line feed. -/
def IsLineStart (text : List Char) (offset : Nat) : Prop :=
  offset = 0 ∨ charBefore text offset = some '\n'

/-! ### The table -/

theorem mem_startsBehind_iff {text : List Char} {base offset : Nat} :
    offset ∈ startsBehind base text ↔ ∃ i, text[i]? = some '\n' ∧ offset = base + i + 1 := by
  induction text generalizing base with
  | nil => simp [startsBehind]
  | cons c cs ih =>
    have hrest : offset ∈ startsBehind (base + 1) cs ↔
        ∃ i, (c :: cs)[i + 1]? = some '\n' ∧ offset = base + (i + 1) + 1 := by
      rw [ih]
      exact exists_congr fun i => and_congr Iff.rfl ⟨fun h => by omega, fun h => by omega⟩
    by_cases hc : c = '\n'
    · rw [startsBehind, if_pos hc, List.mem_cons, hrest]
      constructor
      · rintro (rfl | ⟨i, hi, ho⟩)
        · exact ⟨0, by simp [hc], rfl⟩
        · exact ⟨i + 1, hi, ho⟩
      · rintro ⟨_ | i, hi, ho⟩
        · exact .inl ho
        · exact .inr ⟨i, hi, ho⟩
    · rw [startsBehind, if_neg hc, hrest]
      constructor
      · rintro ⟨i, hi, ho⟩
        exact ⟨i + 1, hi, ho⟩
      · rintro ⟨_ | i, hi, ho⟩
        · exact absurd (by simpa using hi) hc
        · exact ⟨i, hi, ho⟩

theorem lt_of_mem_startsBehind {text : List Char} {base offset : Nat}
    (h : offset ∈ startsBehind base text) : base < offset := by
  obtain ⟨i, -, rfl⟩ := mem_startsBehind_iff.1 h
  omega

theorem pairwise_startsBehind (text : List Char) (base : Nat) :
    (startsBehind base text).Pairwise (· < ·) := by
  induction text generalizing base with
  | nil => exact .nil
  | cons c cs ih =>
    rw [startsBehind]
    split
    · exact .cons (fun _ h => lt_of_mem_startsBehind h) (ih _)
    · exact ih _

/-- Line feeds are counted by the lines that begin behind them. -/
theorem countP_startsBehind (text : List Char) (base n : Nat) :
    (startsBehind base text).countP (· ≤ base + n) = (text.take n).count '\n' := by
  induction text generalizing base n with
  | nil => simp [startsBehind]
  | cons c cs ih =>
    cases n with
    | zero =>
      rw [List.take_zero, List.count_nil, List.countP_eq_zero]
      intro o ho
      simpa using lt_of_mem_startsBehind ho
    | succ n =>
      have hrest : (startsBehind (base + 1) cs).countP (· ≤ base + (n + 1)) =
          (cs.take n).count '\n' := by
        rw [← ih, Nat.add_right_comm, Nat.add_assoc]
      rw [startsBehind, List.take_succ_cons, List.count_cons, ← hrest]
      by_cases hc : c = '\n'
      · rw [if_pos hc, List.countP_cons_of_pos (by simp), if_pos (by simpa using hc)]
      · rw [if_neg hc, if_neg (by simpa using hc)]
        rfl

variable {text : List Char} {offset : Nat}

theorem toList_lineStarts (text : List Char) :
    (lineStarts text).toList = 0 :: startsBehind 0 text := rfl

theorem pairwise_lineStarts (text : List Char) : (lineStarts text).toList.Pairwise (· < ·) :=
  .cons (fun _ h => lt_of_mem_startsBehind h) (pairwise_startsBehind text 0)

/-- **The table of a text holds the offsets at which its lines begin.** -/
theorem mem_lineStarts_iff : offset ∈ (lineStarts text).toList ↔ IsLineStart text offset := by
  rw [toList_lineStarts, List.mem_cons, mem_startsBehind_iff, IsLineStart]
  refine or_congr Iff.rfl ⟨?_, fun h => ?_⟩
  · rintro ⟨i, hi, rfl⟩
    rw [Nat.zero_add]
    exact hi
  · cases offset with
    | zero => cases h
    | succ i => exact ⟨i, h, by omega⟩

/-! ### The search -/

/-- The index splits the entries of an array: those before it are not beyond `x`, all others are. -/
structure SplitsAt (entries : Array Nat) (x index : Nat) : Prop where
  index_le : index ≤ entries.size
  le : ∀ i < index, entries.getD i 0 ≤ x
  lt : ∀ i < entries.size, index ≤ i → x < entries.getD i 0

/-- **The binary search splits an array in order**, if it does so outside the bounds. -/
theorem splitsAt_bisectRight {entries : Array Nat} {x low high : Nat}
    (hsorted : ∀ i j, i ≤ j → j < entries.size → entries.getD i 0 ≤ entries.getD j 0)
    (hbounds : low ≤ high) (hhigh : high ≤ entries.size)
    (hle : ∀ i < low, entries.getD i 0 ≤ x)
    (hlt : ∀ i < entries.size, high ≤ i → x < entries.getD i 0) :
    SplitsAt entries x (bisectRight entries x low high) := by
  fun_induction bisectRight entries x low high with
  | case1 low high h middle hx ih =>
    exact ih (by omega) (by omega) hle fun i hi hmiddle =>
      Nat.lt_of_lt_of_le hx (hsorted _ _ hmiddle hi)
  | case2 low high h middle hx ih =>
    refine ih (by omega) hhigh (fun i hi => ?_) hlt
    exact Nat.le_trans (hsorted i middle (by omega) (by omega)) (Nat.le_of_not_lt hx)
  | case3 low high h =>
    obtain rfl : low = high := by omega
    exact ⟨hhigh, hle, hlt⟩

theorem getD_of_getElem? {entries : Array Nat} {i a : Nat} (h : entries.toList[i]? = some a) :
    i < entries.size ∧ entries.getD i 0 = a := by
  obtain ⟨hi, rfl⟩ := List.getElem?_eq_some_iff.1 h
  exact ⟨hi, by simp [Array.getD, show i < entries.size from hi]⟩

/-- The index is the number of entries that are not beyond `x`. -/
theorem SplitsAt.countP_eq {entries : Array Nat} {x index : Nat} (h : SplitsAt entries x index) :
    entries.toList.countP (· ≤ x) = index := by
  have hfront : (entries.toList.take index).countP (· ≤ x) = index := by
    rw [List.countP_eq_length.2, List.length_take, Array.length_toList, Nat.min_eq_left h.index_le]
    intro a ha
    obtain ⟨i, hi⟩ := List.mem_iff_getElem?.1 ha
    have hlt : i < index := by
      by_contra hge
      rw [List.getElem?_take_eq_none (Nat.le_of_not_lt hge)] at hi
      cases hi
    rw [List.getElem?_take_of_lt hlt] at hi
    obtain ⟨-, rfl⟩ := getD_of_getElem? hi
    simpa using h.le i hlt
  have hback : (entries.toList.drop index).countP (· ≤ x) = 0 := by
    rw [List.countP_eq_zero]
    intro a ha
    obtain ⟨i, hi⟩ := List.mem_iff_getElem?.1 ha
    rw [List.getElem?_drop] at hi
    obtain ⟨hlt, rfl⟩ := getD_of_getElem? hi
    simpa using h.lt _ hlt (Nat.le_add_right _ _)
  rw [← List.take_append_drop index entries.toList, List.countP_append, hfront, hback]
  rfl

theorem getD_lineStarts_le {text : List Char} {i j : Nat} (hij : i ≤ j)
    (hj : j < (lineStarts text).size) : (lineStarts text).getD i 0 ≤ (lineStarts text).getD j 0 := by
  have hi : i < (lineStarts text).size := Nat.lt_of_le_of_lt hij hj
  obtain rfl | hlt := Nat.eq_or_lt_of_le hij
  · exact Nat.le_refl _
  · have h := List.pairwise_iff_getElem.1 (pairwise_lineStarts text) i j hi hj hlt
    simpa [Array.getD, hi, hj] using Nat.le_of_lt h

/-- The search for an offset splits the table of a text at its line. -/
theorem splitsAt_line (text : List Char) (offset : Nat) :
    SplitsAt (lineStarts text) offset (Position.of text offset).line :=
  splitsAt_bisectRight (fun _ _ => getD_lineStarts_le) (Nat.zero_le _) (Nat.le_refl _) nofun
    fun _ hi hge => absurd hi (Nat.not_lt_of_le hge)

/-! ### Positions -/

namespace Position

/-- **The line of an offset is one more than the number of line feeds before it.** -/
theorem of_line (text : List Char) (offset : Nat) :
    (Position.of text offset).line = 1 + (text.take offset).count '\n' := by
  have hcount := countP_startsBehind text 0 offset
  rw [Nat.zero_add] at hcount
  rw [← (splitsAt_line text offset).countP_eq, toList_lineStarts, List.countP_cons_of_pos (by simp),
    hcount, Nat.add_comm]

/-- **The column of an offset counts from the last line start at or before it.** -/
theorem exists_lineStart (text : List Char) (offset : Nat) :
    ∃ start ≤ offset, IsLineStart text start ∧
      (∀ s ≤ offset, IsLineStart text s → s ≤ start) ∧
        (Position.of text offset).column = offset - start := by
  have hsplits := splitsAt_line text offset
  have hline : 0 < (Position.of text offset).line := by
    rw [of_line]
    omega
  have hlast : (Position.of text offset).line - 1 < (lineStarts text).size := by
    have := hsplits.index_le
    omega
  refine ⟨(lineStarts text).getD ((Position.of text offset).line - 1) 0,
    hsplits.le _ (by omega), mem_lineStarts_iff.1 ?_, fun s hs hstart => ?_, rfl⟩
  · rw [Array.getD, dif_pos hlast]
    exact Array.getElem_mem_toList hlast
  · obtain ⟨i, hi⟩ := List.mem_iff_getElem?.1 (mem_lineStarts_iff.2 hstart)
    obtain ⟨hsize, rfl⟩ := getD_of_getElem? hi
    refine getD_lineStarts_le ?_ hlast
    by_contra hbeyond
    exact absurd hs (Nat.not_le_of_lt (hsplits.lt i hsize (by omega)))

end Position

end Pddl
