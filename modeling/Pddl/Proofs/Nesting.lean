import Pddl.Proofs.Outcome
import Pddl.Proofs.Context

/-!
# What counts as too deep

The ceiling bounds how many nonterminals are open at once, and without a parenthesis in between at
most two of them follow one another.  So a text that is too deep for a ceiling has about half as
many forms open at once as the ceiling allows levels, not always more.

* `Rule.exists_balance_of_tooDeep` : **where the nesting is too deep, so many forms are open.**
* `Rule.tooDeep_argument` : the forms need not be more than the levels.
-/

namespace Pddl

namespace Rule

variable {α : Type} {g : Rule α}

/-- A named rule may stand in any number of forms. -/
theorem next_within_of_named {whole : Bool} (h : Named whole g) :
    g.next (.within 0) = some (.within 0) := by
  cases h <;> decide

theorem calm_ofText (text : List Char) (ceiling : Nat) : (Cursor.ofText text ceiling).Calm :=
  Cursor.calm_ofOffset text 0 0 ceiling

/-- What is too deep to be parsed is too deep to be read at the view. -/
theorem look_of_parse_tooDeep (hg : g.Settled) {c : Cursor} (hc : c.Calm) {ceiling offset : Nat}
    (h : g.parse c = .error (.tooDeep ceiling offset)) :
    g.look (c.ceiling - c.depth) c.view = .tooDeep := by
  have hagree := parse_agrees hg hc
  rw [h] at hagree
  exact hagree

/-- What is not too deep to be parsed is not too deep to be read at the view. -/
theorem look_ne_tooDeep_of_parse (hg : g.Settled) {c : Cursor} (hc : c.Calm)
    (h : ∀ limit offset, g.parse c ≠ .error (.tooDeep limit offset)) :
    g.look (c.ceiling - c.depth) c.view ≠ .tooDeep := by
  intro htoo
  rcases (parse_agrees hg hc).cases with ⟨e, he, hfinding⟩ | ⟨d, a, -, -, hfound⟩
  · rw [htoo] at hfinding
    cases e with
    | tooDeep limit offset => exact h limit offset he
    | mismatch m => cases hm : m.committed <;> simp [Failure.finding, hm] at hfinding
    | infiniteNumber => cases hfinding
  · exact Finding.found_ne_tooDeep (hfound.symm.trans htoo)

/-- With more than twice as many levels as forms are open at once, nothing is too deep. -/
theorem parse_ne_tooDeep {whole : Bool} (hg : Named whole g) {text : List Char} {ceiling : Nat}
    (h : 2 * nesting false text + 1 < ceiling) (limit offset : Nat) :
    g.parse (Cursor.ofText text ceiling) ≠ .error (.tooDeep limit offset) := fun hp =>
  look_ne_tooDeep (next_within_of_named hg) h
    (look_of_parse_tooDeep (settled_of_named hg) (calm_ofText _ _) hp)

theorem parse_of_read_tooDeep {settings : Settings} {text : List Char} {ceiling offset : Nat}
    (h : g.read settings text = .error (.tooDeep ceiling offset)) :
    g.parse (Cursor.ofText text settings.ceiling) = .error (.tooDeep ceiling offset) := by
  unfold read at h
  rcases hp : g.parse (Cursor.ofText text settings.ceiling) with e | ⟨c, a⟩
  · simpa [hp] using h
  · simp only [hp] at h
    split at h <;> simp at h

/-- **Where the nesting of a text is too deep, so many forms are open at some place of it** that
twice their number, and one, reaches the ceiling. -/
theorem exists_balance_of_tooDeep {whole : Bool} (hg : Named whole g) {settings : Settings}
    {text : List Char} {ceiling offset : Nat}
    (h : g.read settings text = .error (.tooDeep ceiling offset)) :
    ∃ n ≤ text.length, (settings.ceiling : Int) ≤ 2 * balance false (text.take n) + 1 := by
  have hlook := look_of_parse_tooDeep (settled_of_named hg) (calm_ofText _ _)
    (parse_of_read_tooDeep h)
  have hle : settings.ceiling ≤ 2 * nesting false text + 1 := by
    by_contra hlt
    exact look_ne_tooDeep (next_within_of_named hg) (Nat.lt_of_not_le hlt) hlook
  obtain ⟨n, hn, hbalance⟩ := exists_balance_take false text
  exact ⟨n, hn, by omega⟩

/-- Settings with a ceiling and nothing else of their own. -/
def settingsUnder (ceiling : Nat) (h : 0 < ceiling) : Settings :=
  { Settings.standard with ceiling := ceiling, ceiling_pos := h }

/-- An operand of `and` that is not there takes a level too, within one form. -/
theorem exists_balance_of_tooDeep_conjunction :
    preconditions.read (settingsUnder 2 (by decide)) "(and p)".toList = .error (.tooDeep 2 5) ∧
      ∃ n ≤ 7, (2 : Int) ≤ 2 * balance false ("(and p)".toList.take n) + 1 := by
  have hdeep : preconditions.read (settingsUnder 2 (by decide)) "(and p)".toList =
      .error (.tooDeep 2 5) := failure?_eq_some.1 (by decide +kernel)
  exact ⟨hdeep, exists_balance_of_tooDeep .preconditions hdeep⟩

/-- A text may be too deep for a ceiling without having more forms open at once than that: the
argument of a predicate is a level of its own. -/
theorem tooDeep_argument :
    ¬∀ (whole : Bool) (α : Type) (g : Rule α), Named whole g → ∀ (settings : Settings)
      (text : List Char) (ceiling offset : Nat),
      g.read settings text = .error (.tooDeep ceiling offset) →
        ∃ n ≤ text.length, (settings.ceiling : Int) < balance false (text.take n) := by
  intro h
  have hdeep : goal.read (settingsUnder 1 (by decide)) "(p x)".toList = .error (.tooDeep 1 3) :=
    failure?_eq_some.1 (by decide +kernel)
  obtain ⟨n, -, hn⟩ := h _ _ _ .goal _ _ _ _ hdeep
  have hlt : (1 : Int) < balance false ("(p x)".toList.take n) := hn
  have hle := balance_take_le false "(p x)".toList n
  have hone : nesting false "(p x)".toList = 1 := by decide
  omega

end Rule

end Pddl
