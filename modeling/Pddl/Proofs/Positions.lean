import Pddl.Proofs.LineTables
import Pddl.Proofs.Remembering

/-!
# Where failures are reported

A failure is reported at an offset that lies in the text, also where it was remembered from an
earlier attempt, and the line and the column of its report are those of that offset.

* `Invariant.withinText` : places, remembered mismatches and failures lie in the text.
* `Rule.position_of_failure` : **every failure to read a text is reported where it is.**
-/

namespace Pddl

/-! ### Failures lie in the text -/

namespace Cursor

variable {c : Cursor}

/-- The place and the remembered mismatch lie in the text. -/
structure Inside (c : Cursor) : Prop where
  place : c.offset ≤ c.text.length
  furthest : ∀ m, c.furthest = some m → m.offset ≤ c.text.length

theorem Inside.advance (h : c.Inside) {n : Nat} (hn : n ≤ c.rest.length) :
    (c.advance n).text = c.text ∧ (c.advance n).Inside := by
  have hl := leadsTo_advance hn
  refine ⟨hl.text, hl.text ▸ hl.offset_le_length h.place, fun m hm => ?_⟩
  cases n with
  | zero => exact h.furthest m hm
  | succ n => exact h.furthest m hm

theorem Inside.recovered (h : c.Inside) {m : Mismatch} (hm : m.offset ≤ c.text.length) :
    (c.recovered m).text = c.text ∧ (c.recovered m).Inside := by
  have change : { c with furthest := some m }.text = c.text ∧
      { c with furthest := some m }.Inside :=
    ⟨rfl, h.place, fun m' hm' => Option.some.inj hm' ▸ hm⟩
  unfold Cursor.recovered
  split
  · exact ⟨rfl, h⟩
  · split
    · split
      · exact ⟨rfl, h⟩
      · exact change
    · exact change

theorem Inside.mismatch (h : c.Inside) (x : Expectation) :
    (c.mismatch x).offset ≤ c.text.length := by
  unfold Cursor.mismatch
  split
  · rename_i m hm
    split
    · exact h.furthest m hm
    · exact h.place
  · exact h.place

end Cursor

/-- Parsers stay in their text, and whatever they report lies there too. -/
def Invariant.withinText : Invariant where
  step c d := c.Inside → d.text = c.text ∧ d.Inside
  fails c e := c.Inside → ∀ offset, e.offset? = some offset → offset ≤ c.text.length
  trans h k hc := by
    obtain ⟨hd, hi⟩ := h hc
    obtain ⟨he, hj⟩ := k hi
    exact ⟨he.trans hd, hj⟩
  advance hn h := h.advance hn
  recovered hm h := h.recovered (hm h _ rfl)
  nested h hc := by
    obtain ⟨ht, hi⟩ := h ⟨hc.place, hc.furthest⟩
    exact ⟨ht, hi.place, hi.furthest⟩
  behind h k hc o ho := by
    obtain ⟨ht, hi⟩ := h hc
    exact ht ▸ k hi o ho
  inside h hc := h ⟨hc.place, hc.furthest⟩
  mismatch h o ho := Option.some.inj ho ▸ h.mismatch _
  complaint x h o ho := by
    cases x with
    | unmet x => exact Option.some.inj ho ▸ h.mismatch x
    | unknownRequirement => exact Option.some.inj ho ▸ h.place
    | infiniteNumber => simp [Complaint.failure, Failure.offset?] at ho
  tooDeep h o ho := Option.some.inj ho ▸ h.place

namespace Rule

variable {α : Type} {g : Rule α} {settings : Settings} {text : List Char} {e : Failure}

theorem inside_ofText (text : List Char) (ceiling : Nat) :
    (Cursor.ofText text ceiling).Inside := ⟨Nat.zero_le _, nofun⟩

/-- A failure to read a text lies in the text. -/
theorem offset_le_of_read (h : g.read settings text = .error e) {offset : Nat}
    (ho : e.offset? = some offset) : offset ≤ text.length := by
  have hin := inside_ofText text settings.ceiling
  have hk := g.keeps_parse .withinText
  unfold read at h
  rcases hp : g.parse (Cursor.ofText text settings.ceiling) with e' | ⟨c, a⟩
  · simp only [hp, Except.error.injEq] at h
    subst h
    exact hk.failed hp hin offset ho
  · -- what is left behind the construct is no more than blanks, or it is trailing
    obtain ⟨ht, hc⟩ := hk.found hp hin
    obtain ⟨ht', hb⟩ := hc.advance (blankLength_le false c.rest)
    simp only [hp] at h
    split at h
    · obtain rfl := Except.error.inj h
      obtain rfl := Option.some.inj ho
      have hle := hb.place
      rwa [ht', ht] at hle
    · simp at h

/-- A failure on a bounded stack is one to read the text, or it is reported at the beginning. -/
theorem offset_le_of_readOnStack (h : g.readOnStack settings text = .error e) {offset : Nat}
    (ho : e.offset? = some offset) : offset ≤ text.length := by
  unfold readOnStack at h
  split at h
  · exact offset_le_of_read h ho
  · split at h
    · obtain rfl := Except.error.inj h
      obtain rfl := Option.some.inj ho
      exact Nat.zero_le _
    · exact offset_le_of_read h ho

/-- **Every failure to read a text is reported where it is**, unless it is a number beyond every
finite value, which is reported without a place: its offset lies in the text, its line is one more
than the number of line feeds before, and its column counts from the last line start. -/
theorem position_of_failure
    (h : g.read settings text = .error e ∨ g.readOnStack settings text = .error e)
    (he : e ≠ .infiniteNumber) :
    ∃ offset, e.offset? = some offset ∧ offset ≤ text.length ∧
      (Position.of text offset).line = 1 + (text.take offset).count '\n' ∧
      ∃ start ≤ offset, IsLineStart text start ∧
        (∀ s ≤ offset, IsLineStart text s → s ≤ start) ∧
          (Position.of text offset).column = offset - start := by
  obtain ⟨offset, ho⟩ : ∃ offset, e.offset? = some offset := by
    cases e with
    | mismatch m => exact ⟨_, rfl⟩
    | tooDeep ceiling offset => exact ⟨_, rfl⟩
    | infiniteNumber => exact absurd rfl he
  have hle : offset ≤ text.length :=
    h.elim (offset_le_of_read · ho) (offset_le_of_readOnStack · ho)
  exact ⟨offset, ho, hle, Position.of_line text offset,
    Position.exists_lineStart text offset⟩

/-- Parameters whose type is no type. -/
def untypedText : List Char := "(?x\n - (either a ?))".toList

/-- The mismatch is remembered from the type, and reported where the list is not closed. -/
theorem position_of_failure_remembered :
    ∃ e, read Grammar.parameters .standard untypedText = .error e ∧ e ≠ .infiniteNumber ∧
      ∃ offset, e.offset? = some offset ∧ offset ≤ untypedText.length ∧
        (Position.of untypedText offset).line = 2 ∧
        ∃ start ≤ offset, IsLineStart untypedText start ∧
          (∀ s ≤ offset, IsLineStart untypedText s → s ≤ start) ∧
            (Position.of untypedText offset).column = offset - start := by
  have h : read Grammar.parameters .standard untypedText =
      .error (.mismatch ⟨.unmatched, .word ")", 17⟩) := failure?_eq_some.1 (by decide +kernel)
  obtain ⟨offset, ho, hle, hline, hcolumn⟩ := position_of_failure (.inl h) nofun
  obtain rfl := Option.some.inj ho
  exact ⟨_, h, nofun, _, rfl, hle, hline.trans (by decide), hcolumn⟩

end Rule

end Pddl
