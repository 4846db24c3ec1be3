import Pddl.Cursor

/-!
# What a cursor remembers

On its way through a text a cursor recovers from mismatches, in any order and at any place, and
keeps one of them.  Which one that is depends on where the cursor stood whenever it recovered, and
not on where it stands in the end: it is the first one of the largest offset among those that lay
ahead of the place where they were recovered from.

* `IsFirstFurthest` : the first one of the largest offset in a list of mismatches.
* `Cursor.Step`, `Cursor.run` : moving on, nesting and recovering, and a sequence of such steps.
* `Cursor.recoveredAhead` : the mismatches that lay ahead of the place where a sequence of steps
  recovered from them.
* `Cursor.isFirstFurthest_step` : **one step** remembers the furthest one if that held before.
* `Cursor.run_remembers` : **a fresh cursor remembers the furthest mismatch** after any steps, and
  what it reports is that one if it still lies ahead.
-/

namespace Pddl

/-- The mismatch is the first one of the largest offset in the list; there is none only in the empty
list. -/
def IsFirstFurthest (l : List Mismatch) : Option Mismatch → Prop
  | none => l = []
  | some m => ∃ before after, l = before ++ m :: after ∧
      (∀ x ∈ before, x.offset < m.offset) ∧ ∀ x ∈ after, x.offset ≤ m.offset

namespace IsFirstFurthest

variable {l : List Mismatch} {known : Option Mismatch} {m e : Mismatch}

theorem mem (h : IsFirstFurthest l (some m)) : m ∈ l := by
  obtain ⟨before, after, rfl, -⟩ := h
  simp

theorem offset_le (h : IsFirstFurthest l (some m)) (he : e ∈ l) : e.offset ≤ m.offset := by
  obtain ⟨before, after, rfl, hbefore, hafter⟩ := h
  rcases List.mem_append.1 he with he | he
  · exact Nat.le_of_lt (hbefore e he)
  · rcases List.mem_cons.1 he with rfl | he
    · exact Nat.le_refl _
    · exact hafter e he

/-- A list has only one first mismatch of the largest offset. -/
theorem unique {x y : Mismatch} (hx : IsFirstFurthest l (some x))
    (hy : IsFirstFurthest l (some y)) : x = y := by
  have heq : x.offset = y.offset := Nat.le_antisymm (hy.offset_le hx.mem) (hx.offset_le hy.mem)
  obtain ⟨before, after, rfl, hbefore, -⟩ := hx
  obtain ⟨before', after', hl, hbefore', -⟩ := hy
  obtain ⟨mid, hb, h⟩ | ⟨mid, hb, h⟩ := List.append_eq_append_iff.1 hl
  · rcases mid with _ | ⟨z, mid⟩
    · exact (List.cons.inj h).1
    · obtain rfl := (List.cons.inj h).1
      have := hbefore' x (by simp [hb])
      omega
  · rcases mid with _ | ⟨z, mid⟩
    · exact (List.cons.inj h).1.symm
    · obtain rfl := (List.cons.inj h).1
      have := hbefore y (by simp [hb])
      omega

/-- A mismatch that lies further on than all others takes their place. -/
theorem concat_of_lt (h : ∀ x ∈ l, x.offset < m.offset) : IsFirstFurthest (l ++ [m]) (some m) :=
  ⟨l, [], rfl, h, by simp⟩

/-- A mismatch that does not lie further on changes nothing. -/
theorem concat_of_le (h : IsFirstFurthest l (some m)) (he : e.offset ≤ m.offset) :
    IsFirstFurthest (l ++ [e]) (some m) := by
  obtain ⟨before, after, rfl, hbefore, hafter⟩ := h
  refine ⟨before, after ++ [e], by simp, hbefore, fun x hx => ?_⟩
  rcases List.mem_append.1 hx with hx | hx
  · exact hafter x hx
  · rwa [List.mem_singleton.1 hx]

end IsFirstFurthest

namespace Cursor

/-! ### Steps -/

/-- What a parser does with a cursor between two lexemes. -/
inductive Step where
  /-- Some characters on. -/
  | advance (count : Nat)
  /-- To an offset of the text. -/
  | moveTo (offset : Nat)
  /-- To another depth of nesting. -/
  | withDepth (depth : Nat)
  /-- One level of nesting deeper. -/
  | nested
  /-- Recovering from a mismatch. -/
  | recovered (m : Mismatch)
  deriving DecidableEq, Repr

/-- The cursor behind a step, which is missing where the nesting exceeds the ceiling. -/
def step (c : Cursor) : Step → Except Failure Cursor
  | .advance count => .ok (c.advance count)
  | .moveTo offset => .ok (c.moveTo offset)
  | .withDepth depth => .ok (c.withDepth depth)
  | .nested => c.deeper?
  | .recovered m => .ok (c.recovered m)

/-- The cursor behind a sequence of steps. -/
def run (c : Cursor) (steps : List Step) : Except Failure Cursor := steps.foldlM step c

/-- The offset behind a step. -/
def Step.place (offset : Nat) : Step → Nat
  | advance count => offset + count
  | moveTo offset => offset
  | withDepth _ | nested | recovered _ => offset

/-- The mismatch that a step recovers from, if it lies ahead of the place of the step. -/
def Step.ahead (offset : Nat) : Step → List Mismatch
  | recovered m => if offset < m.offset then [m] else []
  | advance _ | moveTo _ | withDepth _ | nested => []

/-- The mismatches that lay ahead of the place where the steps recovered from them, in the order of
the steps. -/
def recoveredAhead (offset : Nat) : List Step → List Mismatch
  | [] => []
  | s :: steps => s.ahead offset ++ recoveredAhead (s.place offset) steps

/-! ### Recovering -/

variable {c d : Cursor} {l : List Mismatch}

theorem recovered_offset (c : Cursor) (m : Mismatch) : (c.recovered m).offset = c.offset := by
  unfold recovered
  split
  · rfl
  · split
    · split <;> rfl
    · rfl

/-- Recovering takes a mismatch into account exactly if it lies ahead. -/
theorem isFirstFurthest_recovered (h : IsFirstFurthest l c.furthest) (m : Mismatch) :
    IsFirstFurthest (l ++ (Step.recovered m).ahead c.offset) (c.recovered m).furthest := by
  have hahead : (Step.recovered m).ahead c.offset = if c.offset < m.offset then [m] else [] := rfl
  rw [hahead, recovered]
  by_cases hm : m.offset ≤ c.offset
  · rw [if_pos hm, if_neg (Nat.not_lt.2 hm), List.append_nil]
    exact h
  · rw [if_neg hm, if_pos (Nat.not_le.1 hm)]
    rcases hknown : c.furthest with _ | known
    · rw [hknown] at h
      obtain rfl : l = [] := h
      exact .concat_of_lt (by simp)
    · rw [hknown] at h
      dsimp only
      split
      · rename_i hle
        rw [hknown]
        exact h.concat_of_le hle
      · rename_i hlt
        exact .concat_of_lt fun x hx => Nat.lt_of_le_of_lt (h.offset_le hx) (Nat.not_le.1 hlt)

theorem deeper?_eq_ok (h : c.deeper? = .ok d) : d = c.withDepth (c.depth + 1) := by
  unfold deeper? at h
  split at h
  · exact (Except.ok.inj h).symm
  · exact nomatch h

/-- One step goes to its place, and the furthest mismatch is remembered behind it if it was
before. -/
theorem isFirstFurthest_step {s : Step} (hs : c.step s = .ok d)
    (h : IsFirstFurthest l c.furthest) :
    d.offset = s.place c.offset ∧ IsFirstFurthest (l ++ s.ahead c.offset) d.furthest := by
  cases s with
  | advance count =>
    obtain rfl := Except.ok.inj hs
    rw [advance_eq_moveTo]
    exact ⟨rfl, by simpa [Step.ahead, Cursor.moveTo] using h⟩
  | moveTo offset =>
    obtain rfl := Except.ok.inj hs
    exact ⟨rfl, by simpa [Step.ahead, Cursor.moveTo] using h⟩
  | withDepth depth =>
    obtain rfl := Except.ok.inj hs
    exact ⟨rfl, by simpa [Step.ahead, Cursor.withDepth] using h⟩
  | nested =>
    obtain rfl := deeper?_eq_ok hs
    exact ⟨rfl, by simpa [Step.ahead, Cursor.withDepth] using h⟩
  | recovered m =>
    obtain rfl := Except.ok.inj hs
    exact ⟨c.recovered_offset m, isFirstFurthest_recovered h m⟩

/-- A sequence of steps remembers the furthest mismatch behind it if it was before. -/
theorem isFirstFurthest_run {steps : List Step} (hrun : c.run steps = .ok d)
    (h : IsFirstFurthest l c.furthest) :
    IsFirstFurthest (l ++ recoveredAhead c.offset steps) d.furthest := by
  induction steps generalizing c l with
  | nil =>
    obtain rfl := Except.ok.inj hrun
    simpa [recoveredAhead] using h
  | cons s steps ih =>
    rw [run, List.foldlM_cons] at hrun
    rcases hs : c.step s with e | c'
    · rw [hs] at hrun
      exact nomatch hrun
    · rw [hs] at hrun
      obtain ⟨hoffset, hstep⟩ := isFirstFurthest_step hs h
      have hsteps := ih hrun hstep
      rwa [hoffset, List.append_assoc] at hsteps

/-! ### Reporting -/

/-- What is remembered is reported if it lies ahead. -/
theorem report_of_lt {m : Mismatch} (h : c.furthest = some m) (hm : c.offset < m.offset)
    (expected : Expectation) : c.report .unmatched expected = m := by
  rw [report, mismatch, h]
  exact if_pos hm

/-- What is expected is reported at the very place if nothing that lies ahead is remembered. -/
theorem report_of_forall_le (h : ∀ m, c.furthest = some m → m.offset ≤ c.offset)
    (expected : Expectation) : c.report .unmatched expected = ⟨.unmatched, expected, c.offset⟩ := by
  rw [report, mismatch]
  rcases hm : c.furthest with _ | m
  · rfl
  · exact if_neg (Nat.not_lt.2 (h m hm))

/-- Behind any steps from a fresh cursor, the first one of the furthest mismatches that were
recovered from ahead of their place is remembered.  It is what is reported as long as it lies ahead;
otherwise the expectation is reported at the very place, and so it always is for any other cause. -/
theorem run_remembers (text : List Char) (offset depth ceiling : Nat) (steps : List Step)
    (hrun : (ofOffset text offset depth ceiling).run steps = .ok c) :
    IsFirstFurthest (recoveredAhead offset steps) c.furthest ∧
      (∀ expected m, IsFirstFurthest (recoveredAhead offset steps) (some m) → c.offset < m.offset →
        c.report .unmatched expected = m) ∧
      (∀ expected, (∀ m ∈ recoveredAhead offset steps, m.offset ≤ c.offset) →
        c.report .unmatched expected = ⟨.unmatched, expected, c.offset⟩) ∧
      (∀ cause expected, cause ≠ .unmatched →
        c.report cause expected = ⟨cause, expected, c.offset⟩) := by
  have h : IsFirstFurthest (recoveredAhead offset steps) c.furthest :=
    isFirstFurthest_run (l := []) hrun rfl
  refine ⟨h, fun expected m hm hlt => ?_, fun expected hle => ?_, fun cause expected hcause => ?_⟩
  · rcases hc : c.furthest with _ | m'
    · rw [hc] at h
      obtain h : recoveredAhead offset steps = [] := h
      exact absurd hm.mem (by simp [h])
    · rw [hc] at h
      obtain rfl := hm.unique h
      exact report_of_lt hc hlt expected
  · refine report_of_forall_le (fun m hm => hle m ?_) expected
    rw [hm] at h
    exact h.mem
  · cases cause with
    | unmatched => exact absurd rfl hcause
    | unknownRequirement => rfl
    | trailingInput => rfl

/-- Of two mismatches at one offset the first one is kept, and one that has been passed is not. -/
theorem run_remembers_first :
    let steps : List Step :=
      [.recovered ⟨.unmatched, .integer, 5⟩, .advance 2, .nested,
        .recovered ⟨.unmatched, .separation, 5⟩, .recovered ⟨.unmatched, .alternative, 1⟩, .moveTo 4]
    ∃ c, (ofOffset "(a (b))".toList 0 0 2).run steps = .ok c ∧
      c.furthest = some ⟨.unmatched, .integer, 5⟩ ∧
      c.report .unmatched .endOfInput = ⟨.unmatched, .integer, 5⟩ ∧
      c.report .trailingInput .endOfInput = ⟨.trailingInput, .endOfInput, 4⟩ := by
  intro steps
  refine ⟨_, rfl, rfl, ?_⟩
  obtain ⟨-, hahead, -, hother⟩ := run_remembers "(a (b))".toList 0 0 2 steps rfl
  exact ⟨hahead .endOfInput _ ⟨[], [⟨.unmatched, .separation, 5⟩], rfl, by simp, by simp⟩ (by decide),
    hother .trailingInput .endOfInput (by decide)⟩

end Cursor

end Pddl
