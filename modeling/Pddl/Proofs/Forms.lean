import Pddl.Proofs.Progress

/-!
# Reading forms

The shapes that rules are made of, as equations on what they read.

* `Grammar.denote_map_eq_found`, `Grammar.denote_padded_eq_found`, … : what it takes for a shape to
  be found.
-/

namespace Pddl

namespace Grammar

variable {N : Type → Type} {read : {α : Type} → N α → Reader α} {α β : Type} {v w : View}

theorem denote_map_eq_found {f : α → β} {g : Grammar N α} {b : β} :
    (f <$> g).denote read v = .found w b ↔ ∃ a, g.denote read v = .found w a ∧ f a = b := by
  simp [Functor.map, denote, Reader.refine_eq_found]

theorem denote_seqLeft_eq_found {g : Grammar N α} {h : Grammar N β} {a : α} :
    (g <* h).denote read v = .found w a ↔
      ∃ u b, g.denote read v = .found u a ∧ h.denote read u = .found w b := by
  simp only [SeqLeft.seqLeft, denote_map_eq_found, denote, Reader.seq_eq_found]
  constructor
  · rintro ⟨⟨a', b⟩, ⟨u, hu, hw⟩, rfl⟩
    exact ⟨u, b, hu, hw⟩
  · rintro ⟨u, b, hu, hw⟩
    exact ⟨(a, b), ⟨u, hu, hw⟩, rfl⟩

theorem denote_seqRight_eq_found {g : Grammar N α} {h : Grammar N β} {b : β} :
    (g *> h).denote read v = .found w b ↔
      ∃ u a, g.denote read v = .found u a ∧ h.denote read u = .found w b := by
  simp only [SeqRight.seqRight, denote_map_eq_found, denote, Reader.seq_eq_found]
  constructor
  · rintro ⟨⟨a, b'⟩, ⟨u, hu, hw⟩, rfl⟩
    exact ⟨u, a, hu, hw⟩
  · rintro ⟨u, a, hu, hw⟩
    exact ⟨(a, b), ⟨u, hu, hw⟩, rfl⟩

theorem denote_blanks (v : View) : (blanks : Grammar N Unit).denote read v = .found v.skipBlanks () :=
  rfl

theorem denote_padded_eq_found {g : Grammar N α} {a : α} :
    (padded g).denote read v = .found w a ↔
      ∃ u, g.denote read v.skipBlanks = .found u a ∧ w = u.skipBlanks := by
  simp only [padded, denote_seqLeft_eq_found, denote_seqRight_eq_found, denote_blanks,
    Finding.found.injEq]
  constructor
  · rintro ⟨u, -, ⟨-, -, ⟨rfl, -⟩, hu⟩, rfl, -⟩
    exact ⟨u, hu, rfl⟩
  · rintro ⟨u, hu, rfl⟩
    exact ⟨u, (), ⟨_, (), ⟨rfl, trivial⟩, hu⟩, rfl, trivial⟩

/-- What is behind a construct in parentheses stands behind a parenthesis. -/
theorem before_of_denote_parens {g : Grammar N α} {a : α}
    (h : (parens g).denote read v = .found w a) : w.before = some ')' := by
  simp only [parens, denote_seqLeft_eq_found] at h
  obtain ⟨u, b, -, hw⟩ := h
  simp only [denote, Terminal.lexeme?] at hw
  split at hw
  · rename_i hc
    obtain ⟨rfl, -⟩ := Finding.found.inj hw
    simpa [View.advance, List.head?_eq_getElem?] using hc
  · simp [Finding.lexeme] at hw

end Grammar

end Pddl
