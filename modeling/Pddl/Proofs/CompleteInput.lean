import Pddl.Proofs.Comments
import Pddl.Proofs.Nesting
import Pddl.Proofs.Presence

/-!
# Texts that go on

A text that is read, and ends in a closing parenthesis outside comments, is read the same whatever
is put behind it; what is put there is trailing unless it is blank.

* `Finding.Same` : two findings that differ at most in what is left.
* `Grammar.same_denote` : a construct without parentheses is decided before the next closing one.
* `Rule.parse_append` : a construct is parsed the same if the text goes on.
* `Rule.read_append` : **a complete text goes on with blanks and comments only**, and what else
  follows is reported where it begins.
-/

namespace Pddl

/-! ### Constructs without parentheses -/

/-- Two findings that differ at most in what is left. -/
def Finding.Same {α : Type} : Finding α → Finding α → Prop
  | found _ a, found _ b => a = b
  | missing, missing => True
  | unknownFlag, unknownFlag => True
  | tooDeep, tooDeep => True
  | infinite, infinite => True
  | _, _ => False

namespace Finding

variable {α β : Type} {o o' : Finding α}

theorem Same.andThen {k k' : View → α → Finding β} (h : Same o o')
    (hk : ∀ {w w' a}, o = found w a → o' = found w' a → Same (k w a) (k' w' a)) :
    Same (o.andThen k) (o'.andThen k') := by
  cases o <;> cases o' <;> simp only [Same] at h
  · subst h
    exact hk rfl rfl
  all_goals trivial

theorem Same.orElse {q q' : Finding α} (h : Same o o') (hq : Same q q') :
    Same (o.orElse q) (o'.orElse q') := by
  cases o <;> cases o' <;> simp only [Same] at h
  · exact h
  · exact hq
  all_goals trivial

theorem Same.exists_found {w : View} {a : α} (h : Same (found w a) o) : ∃ w', o = found w' a := by
  cases o with
  | found w' b => exact ⟨w', by rw [show a = b from h]⟩
  | _ => exact absurd h (by simp [Same])

end Finding

/-- Two views of the same characters up to a closing parenthesis, none of which opens a form at
the beginning. -/
def View.Unopened (v v' : View) : Prop :=
  ∃ x s s', v.rest = x ++ s ∧ v'.rest = x ++ s' ∧ ')' ∈ x ∧ x.head? ≠ some '('

theorem View.Unopened.head?_ne {v v' : View} (h : v.Unopened v') :
    v.rest.head? ≠ some '(' ∧ v'.rest.head? ≠ some '(' := by
  obtain ⟨x, s, s', hv, hv', hc, hx⟩ := h
  obtain ⟨d, x, rfl⟩ := List.exists_cons_of_ne_nil (List.ne_nil_of_mem hc)
  exact ⟨by simpa [hv] using hx, by simpa [hv'] using hx⟩

theorem emptyParensLength?_of_head? {cs : List Char} (h : cs.head? ≠ some '(') :
    emptyParensLength? cs = none := by
  rcases hn : emptyParensLength? cs with _ | n
  · rfl
  · obtain ⟨blanks, rest, rfl, -⟩ := emptyParensLength?_eq_some.1 hn
    simp at h

/-- Two findings with the same result, which is there only if the construct has been read. -/
def Finding.Decided {α : Type} (ψ : Phase) (o o' : Finding α) : Prop :=
  o.Same o' ∧ (ψ ≠ .behind → ∀ w a, o ≠ found w a)

theorem Terminal.decided {α : Type} {t : Terminal α} {ψ : Phase} (ht : t.next .before = some ψ)
    {v v' : View} (h : v.Unopened v') :
    Finding.Decided ψ (.lexeme v (t.lexeme? v)) (.lexeme v' (t.lexeme? v')) := by
  cases moves_of_next ht with
  | pure a hi => simp [Phase.inner] at hi
  | blanks hi => simp [Phase.inner] at hi
  | separator hi => simp [Phase.inner] at hi
  | char c hc =>
    obtain rfl : c = '(' := by
      simp only [Phase.character] at hc
      split at hc
      · assumption
      · simp at hc
    obtain ⟨hv, hv'⟩ := h.head?_ne
    rw [lexeme?, lexeme?, if_neg hv, if_neg hv']
    exact ⟨trivial, fun _ w a h => by cases h⟩
  | @lexeme _ _ f hf he hφ =>
    obtain ⟨x, s, s', hv, hv', hc, -⟩ := h
    obtain rfl := Option.some.inj hφ
    refine ⟨?_, fun hψ => absurd rfl hψ⟩
    rw [he, he, hv, hv', hf.append s hc, hf.append s' hc]
    rcases f x with _ | ⟨n, a⟩
    · trivial
    · rfl

/-- **A construct without parentheses is decided before the next closing one.** -/
theorem Grammar.decided_denote {N : Type → Type} {read : {α : Type} → N α → Reader α}
    {v v' : View} (h : v.Unopened v')
    (hn : ∀ {α : Type} (n : N α), (read n v).Same (read n v')) {α : Type} {g : Grammar N α}
    {ψ : Phase} (hg : g.next .before = some ψ) :
    Finding.Decided ψ (g.denote read v) (g.denote read v') := by
  induction g generalizing ψ with
  | terminal t => exact t.decided hg h
  | call n =>
    obtain rfl := Option.some.inj hg
    exact ⟨hn n, fun hψ => absurd rfl hψ⟩
  | seq g h' ihg _ =>
    obtain ⟨χ, hχ, hψ⟩ := Option.bind_eq_some_iff.1 hg
    have hb : χ ≠ .behind := by rintro rfl; simp [next_behind] at hψ
    obtain ⟨hs, hno⟩ := ihg hχ
    refine ⟨hs.andThen fun hw _ => absurd hw (hno hb _ _), fun _ w a ha => ?_⟩
    obtain ⟨u, hu, -⟩ := Reader.seq_eq_found.1 ha
    exact hno hb _ _ hu
  | refine f g ih =>
    obtain ⟨hs, hno⟩ := ih hg
    refine ⟨hs.andThen fun {w w' a} _ _ => ?_, fun hψ w b hb => ?_⟩
    · rcases f a with e | b
      · cases e <;> trivial
      · rfl
    · obtain ⟨a, ha, -⟩ := Reader.refine_eq_found.1 hb
      exact hno hψ _ _ ha
  | orElse g h' ihg ihh =>
    simp only [next] at hg
    split at hg
    · rename_i heq
      obtain ⟨hs, hno⟩ := ihg hg
      obtain ⟨hs', hno'⟩ := ihh (heq ▸ hg)
      refine ⟨hs.orElse hs', fun hψ w a ha => ?_⟩
      obtain ha | ⟨-, ha⟩ := Finding.orElse_eq_found.1 ha
      · exact hno hψ _ _ ha
      · exact hno' hψ _ _ ha
    · simp at hg
  | opt g _ | more g _ | typedList default group values _ _ =>
    simp only [next] at hg
    split at hg <;> simp [Phase.inner] at hg
  | emptyOr g ih =>
    simp only [next] at hg
    split at hg
    · rename_i heq
      obtain ⟨hv, hv'⟩ := h.head?_ne
      obtain ⟨hs, hno⟩ := ih (heq.trans hg)
      simp only [denote, Reader.emptyOr, emptyParensLength?_of_head? hv,
        emptyParensLength?_of_head? hv']
      refine ⟨hs.andThen fun _ _ => rfl, fun hψ w a ha => ?_⟩
      obtain ⟨u, b, hb, -⟩ := Finding.andThen_eq_found.1 ha
      exact hno hψ _ _ hb
    · simp at hg

theorem Nonterminal.same_denote {α : Type} (levels : Nat) (n : Nonterminal α) {v v' : View}
    (h : v.Unopened v') : (n.denote levels v).Same (n.denote levels v') := by
  induction levels generalizing α with
  | zero => trivial
  | succ levels ih => exact (Grammar.decided_denote h ih n.next_production_before).1

/-! ### Texts that go on behind a parenthesis -/

theorem Cursor.offset_skipBlanks (c : Cursor) :
    c.skipBlanks.offset = c.offset + blankLength false c.rest := by
  rw [skipBlanks, advance_eq_moveTo]
  rfl

theorem Cursor.rest_skipBlanks (c : Cursor) :
    c.skipBlanks.rest = c.rest.drop (blankLength false c.rest) := by
  rw [skipBlanks, advance_eq_moveTo, c.rest_eq, List.drop_drop]
  rfl

namespace Rule

variable {α : Type} {g : Rule α} {whole : Bool}

/-- What is found in a text with a closing parenthesis is found in the text with more behind it. -/
theorem look_append (hg : Named whole g) {levels : Nat} {b : Option Char} {x : List Char}
    (hx : ')' ∈ x) {w : View} {a : α} (h : g.look levels ⟨b, x⟩ = .found w a) (y : List Char) :
    ∃ w', g.look levels ⟨b, x ++ y⟩ = .found w' a := by
  obtain ⟨p, hp⟩ := forward_look g levels h
  have hp : x = p ++ w.rest := hp.symm
  cases whole with
  | true =>
    obtain ⟨u, hu, -⟩ := look_whole_in_context hg h hp b (w.rest ++ y)
    exact ⟨u, by rwa [hp, List.append_assoc]⟩
  | false =>
    have hnext := next_before_of_named hg
    by_cases hhead : x.head? = some '('
    · obtain ⟨-, -, -, hclose⟩ := (covers_of_look hnext h).exists_span hhead
      obtain ⟨p', hp', -, hlook⟩ := look_in_context hnext h hclose
      obtain rfl : p = p' := List.append_cancel_right (hp.symm.trans hp')
      exact ⟨_, by rw [hp, List.append_assoc]; exact hlook b (w.rest ++ y)⟩
    · have hun : View.Unopened ⟨b, x⟩ ⟨b, x ++ y⟩ := ⟨x, [], y, by simp, rfl, hx, hhead⟩
      have hsame : (g.look levels ⟨b, x⟩).Same (g.look levels ⟨b, x ++ y⟩) :=
        (Grammar.decided_denote hun (fun n => n.same_denote levels hun) hnext).1
      rw [h] at hsame
      exact hsame.exists_found

variable {s t : List Char} {ceiling : Nat} {c : Cursor} {a : α}

/-- A construct is parsed the same if the text goes on behind a closing parenthesis. -/
theorem parse_append (hg : Named whole g) (ht : ')' ∈ t)
    (h : g.parse (Cursor.ofText t ceiling) = .ok (c, a)) (y : List Char) :
    ∃ d, g.parse (Cursor.ofText (t ++ y) ceiling) = .ok (d, a) := by
  have hsettled := settled_of_named hg
  obtain ⟨-, hlook⟩ := look_of_parse hsettled (calm_ofText _ _) h
  obtain ⟨w, hw⟩ := look_append hg (b := none) ht hlook y
  obtain ⟨d, hd, -⟩ := parse_of_look hsettled (calm_ofText (t ++ y) ceiling) hw
  exact ⟨d, hd⟩

/-- If only blanks and comments are left of a text that ends in a closing parenthesis outside
comments, nothing is left. -/
theorem rest_eq_nil_of_atEnd (hg : Named whole g) (hs : leavesComment false s = false)
    (h : g.parse (Cursor.ofText (s ++ [')']) ceiling) = .ok (c, a))
    (hc : c.skipBlanks.rest = []) : c.rest = [] := by
  obtain ⟨-, hlook⟩ := look_of_parse (settled_of_named hg) (calm_ofText _ _) h
  obtain ⟨x, hx, hc' | hx'⟩ := clear_look (next_within_of_named hg) hlook
  · exact hc'
  have hx : s ++ [')'] = x ++ c.rest := hx
  rcases List.eq_nil_or_concat' c.rest with hnil | ⟨z, last, hz⟩
  · exact hnil
  · -- the closing parenthesis is left, and it is no blank
    rw [hz, ← List.append_assoc] at hx
    obtain ⟨hxz, hlast⟩ := List.append_inj' hx rfl
    obtain rfl : ')' = last := by simpa using hlast
    have hopen : leavesComment false z = false := by
      rw [hxz, leavesComment_append, hx'] at hs
      exact hs
    have hle : blankLength false c.rest ≤ z.length :=
      blankLength_le_of_isSignificant ⟨by simpa [hz] using hopen, ')', by simp [hz], by decide,
        by decide⟩
    have hge : c.rest.length ≤ blankLength false c.rest := by
      rw [Cursor.rest_skipBlanks] at hc
      exact List.drop_eq_nil_iff.1 hc
    rw [hz, List.length_append, List.length_singleton] at hge
    rw [hz] at hle
    omega

/-- A whole text is parsed the same if it goes on, and behind it blanks and comments are
skipped. -/
theorem parse_append_of_rest_eq_nil (hg : Named whole g) (hs : leavesComment false s = false)
    (h : g.parse (Cursor.ofText (s ++ [')']) ceiling) = .ok (c, a)) (hc : c.rest = [])
    (y : List Char) :
    ∃ d, g.parse (Cursor.ofText (s ++ [')'] ++ y) ceiling) = .ok (d, a) ∧
      d.skipBlanks.offset = (s ++ [')']).length + blankLength false y ∧
        d.skipBlanks.rest = y.drop (blankLength false y) := by
  obtain ⟨hfollows, -⟩ := look_of_parse (settled_of_named hg) (calm_ofText _ _) h
  have hk : c.offset = (s ++ [')']).length := by
    have hoff := hfollows.offset
    simp only [hc, List.length_nil, Cursor.ofText, Cursor.ofOffset, List.drop_zero] at hoff
    omega
  obtain ⟨d, hd, hoff⟩ := parse_in_context hg h hk (by simp [charBefore]) [] y
  rw [List.take_length, List.nil_append] at hd
  have hopen : leavesComment false (s ++ [')']) = false := by
    rw [leavesComment_append, hs]
    rfl
  rw [List.take_length, overrun, hopen, List.length_nil, Nat.zero_add] at hoff
  have hrest : d.rest = y.drop (if whole then blankLength false y else 0) := by
    obtain ⟨hd', -⟩ := look_of_parse (settled_of_named hg) (calm_ofText _ _) hd
    have htext : d.text = s ++ [')'] ++ y := hd'.text
    rw [d.rest_eq, htext, hoff, List.drop_append, List.drop_eq_nil_of_le (Nat.le_add_right _ _),
      Nat.add_sub_cancel_left, List.nil_append]
  have hskip : blankLength false d.rest =
      blankLength false y - (d.offset - (s ++ [')']).length) := by
    rw [hrest, hoff]
    cases whole <;> simp [blankLength_drop]
  refine ⟨d, hd, ?_, ?_⟩
  · rw [Cursor.offset_skipBlanks, hskip]
    cases whole <;> simp [hoff]
  · rw [Cursor.rest_skipBlanks, hskip, hrest, List.drop_drop, hoff]
    cases whole <;> simp

/-! ### Reading texts that go on -/

variable {settings : Settings}

theorem read_eq_ok_iff : g.read settings t = .ok a ↔
    ∃ c, g.parse (Cursor.ofText t settings.ceiling) = .ok (c, a) ∧
      (settings.completeInput = true → c.skipBlanks.rest = []) := by
  unfold read
  rcases g.parse (Cursor.ofText t settings.ceiling) with e | ⟨c, b⟩
  · simp
  · cases settings.completeInput <;> cases h : c.skipBlanks.rest <;> simp [Cursor.atEnd, h]

theorem read_trailing (h : g.parse (Cursor.ofText t settings.ceiling) = .ok (c, a))
    (hs : settings.completeInput = true) (hc : c.skipBlanks.rest ≠ []) :
    g.read settings t =
      .error (.mismatch ⟨.trailingInput, .endOfInput, c.skipBlanks.offset⟩) := by
  simp [read, h, hs, Cursor.atEnd, hc, Cursor.mismatchHere]

/-- What is read on a bounded stack is read under a ceiling, and so is what is read behind it. -/
theorem exists_read_of_readOnStack {r : List Char → Except Failure α}
    (hr : r = g.read settings ∨ r = g.readOnStack settings) :
    ∃ settings' : Settings, settings'.completeInput = settings.completeInput ∧
      (∀ t a, r t = .ok a ↔ g.read settings' t = .ok a) ∧
        ∀ t m, g.read settings' t = .error (.mismatch m) → r t = .error (.mismatch m) := by
  obtain rfl | rfl := hr
  · exact ⟨settings, rfl, fun _ _ => Iff.rfl, fun _ _ h => h⟩
  by_cases hle : settings.ceiling ≤ stackLevels
  · exact ⟨settings, rfl, fun _ _ => by rw [readOnStack, if_pos hle],
      fun _ _ h => by rw [readOnStack, if_pos hle, h]⟩
  · refine ⟨{ settings with ceiling := stackLevels, ceiling_pos := stackLevels_pos }, rfl,
      fun t a => ?_, fun t m h => ?_⟩
    · rw [readOnStack, if_neg hle]
      split <;> simp_all
    · rw [readOnStack, if_neg hle, h]

/-- **A complete text goes on with blanks and comments only.**  If a text that ends in a closing
parenthesis outside comments is read, then with blanks and comments behind it, or with anything
behind it where the settings allow that, the same construct is read; where they do not, what is
neither is reported as trailing, at its first character. -/
theorem read_append (hg : Named whole g) {r : List Char → Except Failure α}
    (hr : r = g.read settings ∨ r = g.readOnStack settings)
    (hs : leavesComment false s = false) (h : r (s ++ [')']) = .ok a) (y : List Char) :
    ((∀ i, ¬IsSignificant y i) → r (s ++ [')'] ++ y) = .ok a) ∧
      (settings.completeInput = false → r (s ++ [')'] ++ y) = .ok a) ∧
        (settings.completeInput = true →
          ∀ i, IsSignificant y i → (∀ j < i, ¬IsSignificant y j) →
            r (s ++ [')'] ++ y) =
              .error (.mismatch ⟨.trailingInput, .endOfInput, (s ++ [')']).length + i⟩)) := by
  obtain ⟨settings', hcomplete, hok, hmismatch⟩ := exists_read_of_readOnStack hr
  obtain ⟨c, hc, hend⟩ := read_eq_ok_iff.1 ((hok _ _).1 h)
  rw [← hcomplete]
  have hany (hno : settings'.completeInput = false) : r (s ++ [')'] ++ y) = .ok a := by
    obtain ⟨d, hd⟩ := parse_append hg (by simp) hc y
    exact (hok _ _).2 (read_eq_ok_iff.2 ⟨d, hd, by simp [hno]⟩)
  -- under settings that ask for complete input, the text has been read to its end
  have hall (hyes : settings'.completeInput = true) :=
    parse_append_of_rest_eq_nil hg hs hc (rest_eq_nil_of_atEnd hg hs hc (hend hyes)) y
  refine ⟨fun hblank => ?_, hany, fun hyes i hi hfirst => ?_⟩
  · cases hcomp : settings'.completeInput with
    | false => exact hany hcomp
    | true =>
      obtain ⟨d, hd, -, hrest⟩ := hall hcomp
      refine (hok _ _).2 (read_eq_ok_iff.2 ⟨d, hd, fun _ => ?_⟩)
      rw [hrest, blankLength_eq_length_iff.2 hblank, List.drop_length]
  · obtain ⟨d, hd, hoff, hrest⟩ := hall hyes
    rw [blankLength_eq_of_isSignificant hi hfirst] at hoff hrest
    refine hmismatch _ _ ?_
    rw [← hoff]
    refine read_trailing hd hyes ?_
    obtain ⟨-, x, hx, -⟩ := hi
    rw [hrest]
    intro hnil
    have := (List.getElem?_eq_some_iff.1 hx).1
    have := List.drop_eq_nil_iff.1 hnil
    omega

/-- Behind a goal, a comment is read over, and another goal is trailing. -/
theorem read_append_goal :
    ∃ a, goal.read .standard "(p)".toList = .ok a ∧
      goal.read .standard "(p) ;c".toList = .ok a ∧
        goal.read .standard "(p) ;c\n(q)".toList =
          .error (.mismatch ⟨.trailingInput, .endOfInput, 7⟩) := by
  have hs : leavesComment false "(p".toList = false := by decide
  obtain ⟨a, ha⟩ : ∃ a, goal.read .standard ("(p".toList ++ [')']) = .ok a := by
    rcases hr : goal.read .standard ("(p".toList ++ [')']) with e | a
    · exact absurd (failure?_eq_some.2 hr) (ne_of_eq_of_ne (b := none) (by decide +kernel) nofun)
    · exact ⟨a, rfl⟩
  have happend := read_append .goal (.inl rfl) hs ha
  refine ⟨a, ha, (happend " ;c".toList).1 ?_, (happend " ;c\n(q)".toList).2.2 rfl 4 ?_ ?_⟩
  · exact blankLength_eq_length_iff.1 (by decide)
  · exact ⟨by decide, '(', by decide, by decide, by decide⟩
  · intro j hj hsig
    have := blankLength_le_of_isSignificant hsig
    have : blankLength false " ;c\n(q)".toList = 4 := by decide
    omega

end Rule

end Pddl
