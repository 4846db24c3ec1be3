import Pddl.Proofs.Outcome

/-!
# Remembered mismatches matter only further on

A mismatch that was remembered at a place up to the present one is never reported again, and it does
not keep later ones from being remembered.  So two readings that start at the same place go on alike
if they remember the same further on, whatever else they remember.

* `Cursor.pending?` : the remembered mismatch, if it lies further on.
* `Cursor.Resembles` : the same place, with the same mismatch further on.
* `Parser.Regards` : the parser gives the same at places that resemble each other.
* `Rule.parse_resembles` : **every rule does.**
-/

namespace Pddl

/-! ### What lies further on -/

namespace Cursor

variable {c d e : Cursor} {m : Mismatch} {n : Nat}

/-- The remembered mismatch, if it lies further on than the place. -/
def pending? (c : Cursor) : Option Mismatch := c.furthest.filter fun m => c.offset < m.offset

/-- The mismatch to report is the one further on, if there is one. -/
theorem mismatch_eq (c : Cursor) (x : Expectation) :
    c.mismatch x = c.pending?.getD (c.mismatchHere .unmatched x) := by
  rw [mismatch, pending?]
  rcases c.furthest with _ | m
  · rfl
  · by_cases hm : c.offset < m.offset <;> simp [hm, Option.filter_some]

theorem pending?_moveTo (hn : c.offset ≤ n) :
    (c.moveTo n).pending? = c.pending?.filter fun m => n < m.offset := by
  show c.furthest.filter _ = (c.furthest.filter _).filter _
  rcases c.furthest with _ | m
  · rfl
  · by_cases hm : n < m.offset
    · have hc : c.offset < m.offset := hn.trans_lt hm
      simp [hm, hc, Option.filter_some, moveTo]
    · by_cases hc : c.offset < m.offset <;> simp [hm, hc, Option.filter_some, moveTo]

/-- A mismatch that is recovered from is further on if it lies beyond the place and beyond the one
that was further on before. -/
theorem pending?_recovered (c : Cursor) (m : Mismatch) : (c.recovered m).pending? =
    if m.offset ≤ c.offset then c.pending?
    else some ((c.pending?.filter fun k => m.offset ≤ k.offset).getD m) := by
  by_cases hm : m.offset ≤ c.offset
  · rw [recovered, if_pos hm, if_pos hm]
  rw [recovered, if_neg hm, if_neg hm, pending?, pending?]
  rcases hf : c.furthest with _ | k
  · simp [Nat.lt_of_not_le hm]
  · by_cases hk : m.offset ≤ k.offset
    · have hck : c.offset < k.offset := by omega
      simp [hf, hk, hck, Option.filter_some]
    · by_cases hck : c.offset < k.offset <;>
        simp [hk, hck, Nat.lt_of_not_le hm, Option.filter_some]

/-- The cursors are at the same place, and remember the same of what lies further on. -/
structure Resembles (c d : Cursor) : Prop where
  text : c.text = d.text
  offset : c.offset = d.offset
  depth : c.depth = d.depth
  ceiling : c.ceiling = d.ceiling
  pending : c.pending? = d.pending?

/-- A place that remembers nothing further on resembles one that remembers nothing at all. -/
theorem resembles_ofOffset (h : ∀ m, c.furthest = some m → m.offset ≤ c.offset) :
    c.Resembles (ofOffset c.text c.offset c.depth c.ceiling) := by
  refine ⟨rfl, rfl, rfl, rfl, ?_⟩
  rw [pending?, Option.filter_eq_none_iff.2 fun m hm => by simpa using h m hm]
  rfl

namespace Resembles

variable (h : c.Resembles d)

include h

theorem rest : c.rest = d.rest := by rw [c.rest_eq, d.rest_eq, h.text, h.offset]

theorem view : c.view = d.view := by
  rw [Cursor.view, Cursor.view, c.previous_eq, d.previous_eq, h.rest, h.text, h.offset]

theorem mismatch (x : Expectation) : c.mismatch x = d.mismatch x := by
  rw [mismatch_eq, mismatch_eq, h.pending, mismatchHere, mismatchHere, h.offset]

theorem advance (n : Nat) : (c.advance n).Resembles (d.advance n) := by
  rw [advance_eq_moveTo, advance_eq_moveTo]
  refine ⟨h.text, congrArg (· + n) h.offset, h.depth, h.ceiling, ?_⟩
  rw [pending?_moveTo (Nat.le_add_right _ _), pending?_moveTo (Nat.le_add_right _ _), h.pending,
    h.offset]

theorem skipBlanks : c.skipBlanks.Resembles d.skipBlanks := by
  rw [Cursor.skipBlanks, Cursor.skipBlanks, h.rest]
  exact h.advance _

theorem recovered (m : Mismatch) : (c.recovered m).Resembles (d.recovered m) := by
  have hsame (c : Cursor) : (c.recovered m).text = c.text ∧ (c.recovered m).offset = c.offset ∧
      (c.recovered m).depth = c.depth ∧ (c.recovered m).ceiling = c.ceiling := by
    unfold Cursor.recovered
    split
    · exact ⟨rfl, rfl, rfl, rfl⟩
    · split
      · split <;> exact ⟨rfl, rfl, rfl, rfl⟩
      · exact ⟨rfl, rfl, rfl, rfl⟩
  obtain ⟨htext, hoffset, hdepth, hceiling⟩ := hsame c
  obtain ⟨htext', hoffset', hdepth', hceiling'⟩ := hsame d
  refine ⟨?_, ?_, ?_, ?_, ?_⟩
  · rw [htext, htext', h.text]
  · rw [hoffset, hoffset', h.offset]
  · rw [hdepth, hdepth', h.depth]
  · rw [hceiling, hceiling', h.ceiling]
  · rw [pending?_recovered, pending?_recovered, h.pending, h.offset]

theorem withDepth (n : Nat) : (c.withDepth n).Resembles (d.withDepth n) :=
  ⟨h.text, h.offset, rfl, h.ceiling, h.pending⟩

theorem failure (x : Complaint) : x.failure c = x.failure d := by
  cases x with
  | unmet x => exact congrArg Failure.mismatch (h.mismatch x)
  | unknownRequirement =>
    simp only [Complaint.failure, mismatchHere, h.offset]
  | infiniteNumber => rfl

end Resembles

end Cursor

/-! ### Parsers -/

/-- The outcomes are the same failure, or the same construct and places that resemble each other. -/
def SameOutcome {α : Type} (r r' : Except Failure (Cursor × α)) : Prop :=
  (∃ e, r = .error e ∧ r' = .error e) ∨
    ∃ d d' a, r = .ok (d, a) ∧ r' = .ok (d', a) ∧ d.Resembles d'

theorem SameOutcome.error {α : Type} (e : Failure) :
    SameOutcome (.error e : Except Failure (Cursor × α)) (.error e) := .inl ⟨e, rfl, rfl⟩

theorem SameOutcome.ok {α : Type} {d d' : Cursor} (h : d.Resembles d') (a : α) :
    SameOutcome (.ok (d, a)) (.ok (d', a)) := .inr ⟨d, d', a, rfl, rfl, h⟩

namespace Parser

variable {α β : Type} {p : Parser α} {q : Parser β} {c d : Cursor}

/-- The parser gives the same at places that resemble each other. -/
def Regards (p : Parser α) : Prop := ∀ {c d : Cursor}, c.Resembles d → SameOutcome (p c) (p d)

theorem regards_terminal (t : Terminal α) : Regards t.parse := fun {c d} h => by
  obtain ⟨x, hx⟩ := t.parse_eq
  rw [hx, hx, h.view]
  rcases t.lexeme? d.view with _ | ⟨n, a⟩
  · rw [Cursor.lexeme, Cursor.lexeme, h.mismatch]
    exact .error _
  · exact .ok (h.advance n) a

theorem regards_seq (hp : Regards p) (hq : Regards q) : Regards (seq p q) := fun {c d} h => by
  unfold seq
  obtain ⟨e, hc, hd⟩ | ⟨u, u', a, hc, hd, hu⟩ := hp h
  · simp only [hc, hd]
    exact .error e
  simp only [hc, hd]
  obtain ⟨e, hc, hd⟩ | ⟨w, w', b, hc, hd, hw⟩ := hq hu
  · simp only [hc, hd]
    exact .error e
  · simp only [hc, hd]
    exact .ok hw (a, b)

theorem regards_refine (f : α → Except Complaint β) (hp : Regards p) : Regards (refine f p) :=
  fun {c d} h => by
    unfold refine
    obtain ⟨e, hc, hd⟩ | ⟨u, u', a, hc, hd, hu⟩ := hp h
    · simp only [hc, hd]
      exact .error e
    simp only [hc, hd]
    rcases f a with x | b
    · simp only [h.failure]
      exact .error _
    · exact .ok hu b

theorem regards_orElse {q : Parser α} (hp : Regards p) (hq : Regards q) : Regards (orElse p q) :=
  fun {c d} h => by
    unfold orElse
    obtain ⟨e, hc, hd⟩ | ⟨u, u', a, hc, hd, hu⟩ := hp h
    · simp only [hc, hd]
      rcases e.recoverable? with _ | m
      · exact .error e
      obtain ⟨e', hc', hd'⟩ | ⟨u, u', a, hc', hd', hu⟩ := hq h
      · simp only [hc', hd']
        rcases e'.recoverable? with _ | m' <;> exact .error _
      · simp only [hc', hd']
        exact .ok hu a
    · simp only [hc, hd]
      exact .ok hu a

theorem regards_opt (hp : Regards p) : Regards (opt p) := fun {c d} h => by
  unfold opt
  obtain ⟨e, hc, hd⟩ | ⟨u, u', a, hc, hd, hu⟩ := hp h
  · simp only [hc, hd]
    rcases e.recoverable? with _ | m
    · exact .error e
    · exact .ok (h.recovered m) none
  · simp only [hc, hd]
    exact .ok hu (some a)

theorem regards_separated (hp : Regards p) : Regards (separated p) := fun {c d} h => by
  unfold separated
  rw [Cursor.separated?_eq, Cursor.separated?_eq, h.view]
  by_cases hv : d.view.separates = true
  · simp only [hv, ↓reduceIte]
    exact hp h.skipBlanks
  · simp only [hv, Bool.false_eq_true, ↓reduceIte, h.mismatch]
    exact .error _

theorem regards_separatedUnless (hp : Regards p) (first : Bool) :
    Regards (separatedUnless first p) := by
  cases first with
  | false => exact regards_separated hp
  | true => exact hp

theorem regards_moreWithin (hp : Regards p) (fuel : List Char) : Regards (moreWithin p fuel) := by
  intro c d h
  induction fuel generalizing c d with
  | nil | cons x fuel ih =>
    unfold moreWithin
    obtain ⟨e, hc, hd⟩ | ⟨u, u', a, hc, hd, hu⟩ := regards_separated hp h
    · simp only [hc, hd]
      rcases e.recoverable? with _ | m
      · exact .error e
      · exact .ok (h.recovered m) []
    simp only [hc, hd, hu.offset, h.offset]
    split
    · exact .ok h []
    first
    | exact .ok h []
    | obtain ⟨e, hc, hd⟩ | ⟨w, w', as, hc, hd, hw⟩ := ih hu
      · simp only [hc, hd]
        exact .error e
      · simp only [hc, hd]
        exact .ok hw (a :: as)

theorem regards_more (hp : Regards p) : Regards (more p) := fun {c d} h => by
  rw [more, more, h.rest]
  exact regards_moreWithin hp _ h

theorem regards_emptyOr (hp : Regards p) : Regards (emptyOr p) := fun {c d} h => by
  unfold emptyOr
  rw [h.rest]
  rcases emptyParensLength? d.rest with _ | n
  · obtain ⟨e, hc, hd⟩ | ⟨u, u', a, hc, hd, hu⟩ := hp h
    · simp only [hc, hd]
      exact .error e
    · simp only [hc, hd]
      exact .ok hu (some a)
  · exact .ok (h.advance n) none

theorem regards_nested (hp : Regards p) : Regards (nested p) := fun {c d} h => by
  unfold nested Cursor.deeper?
  rw [h.depth, h.ceiling, h.offset]
  by_cases hd : d.depth < d.ceiling
  · simp only [hd, ↓reduceIte]
    obtain ⟨e, hc, hd⟩ | ⟨u, u', a, hc, hd, hu⟩ := hp (h.withDepth (d.depth + 1))
    · simp only [hc, hd]
      exact .error e
    · simp only [hc, hd]
      exact .ok (hu.withDepth d.depth) a
  · simp only [hd, ↓reduceIte]
    exact .error _

theorem regards_groupsWithin {p : Parser (List α)} (hp : Regards p) (first : Bool)
    (fuel : List Char) : Regards (groupsWithin p first fuel) := by
  intro c d h
  induction fuel generalizing first c d with
  | nil | cons x fuel ih =>
    unfold groupsWithin
    obtain ⟨e, hc, hd⟩ | ⟨u, u', as, hc, hd, hu⟩ := regards_separatedUnless hp first h
    · simp only [hc, hd]
      cases e with
      | mismatch m => exact .ok (h.recovered m) []
      | _ => exact .error _
    simp only [hc, hd]
    first
    | exact .ok hu as
    | obtain ⟨e, hc, hd⟩ | ⟨w, w', bs, hc, hd, hw⟩ := ih (first && as.isEmpty) hu
      · simp only [hc, hd]
        exact .error e
      · simp only [hc, hd]
        exact .ok hw (as ++ bs)

theorem regards_untypedTail {p : Parser (List α)} (hp : Regards p) (first : Bool) :
    Regards (untypedTail first p) := fun {c d} h => by
  unfold untypedTail
  obtain ⟨e, hc, hd⟩ | ⟨u, u', as, hc, hd, hu⟩ := regards_separatedUnless hp first h
  · simp only [hc, hd]
    cases e with
    | mismatch m => exact .ok (h.recovered m) []
    | _ => exact .error _
  · simp only [hc, hd]
    split
    · exact .ok h as
    · exact .ok hu as

theorem regards_typedList (default : TypeSpec) {p : Parser (List (Typed α))} {q : Parser (List α)}
    (hp : Regards p) (hq : Regards q) : Regards (typedList default p q) := fun {c d} h => by
  unfold typedList
  rw [h.rest]
  obtain ⟨e, hc, hd⟩ | ⟨u, u', as, hc, hd, hu⟩ := regards_groupsWithin hp true d.rest h
  · simp only [hc, hd]
    exact .error e
  simp only [hc, hd]
  obtain ⟨e, hc, hd⟩ | ⟨w, w', bs, hc, hd, hw⟩ := regards_untypedTail hq as.isEmpty hu
  · simp only [hc, hd]
    exact .error e
  · simp only [hc, hd]
    exact .ok hw _

end Parser

/-- Running a grammar regards what its nonterminals regard. -/
theorem Grammar.regards_run {N : Type → Type} {parse : {α : Type} → N α → Parser α}
    (hn : ∀ {α : Type} (n : N α), (parse n).Regards) {α : Type} (g : Grammar N α) :
    (g.run parse).Regards := by
  induction g with
  | terminal t => exact Parser.regards_terminal t
  | call n => exact Parser.regards_nested (hn n)
  | seq g h ihg ihh => exact Parser.regards_seq ihg ihh
  | refine f g ih => exact Parser.regards_refine f ih
  | orElse g h ihg ihh => exact Parser.regards_orElse ihg ihh
  | opt g ih => exact Parser.regards_opt ih
  | more g ih => exact Parser.regards_more ih
  | emptyOr g ih => exact Parser.regards_emptyOr ih
  | typedList default group values ihg ihv => exact Parser.regards_typedList default ihg ihv

theorem Nonterminal.regards_parse (levels : Nat) {α : Type} (n : Nonterminal α) :
    (n.parse levels).Regards := by
  induction levels generalizing α with
  | zero =>
    intro c d h
    show SameOutcome (.error (.tooDeep c.ceiling c.offset)) (.error (.tooDeep d.ceiling d.offset))
    rw [h.ceiling, h.offset]
    exact .error _
  | succ levels ih => exact Grammar.regards_run (fun n => ih n) n.production

/-- **Every rule gives the same at places that resemble each other.** -/
theorem Rule.parse_resembles {α : Type} (g : Rule α) {c d : Cursor} (h : c.Resembles d) :
    SameOutcome (g.parse c) (g.parse d) := by
  unfold Rule.parse
  rw [h.ceiling, h.depth]
  exact Grammar.regards_run (fun n => n.regards_parse _) g h

end Pddl
