import Pddl.Proofs.Outcome

/-!
# Final mismatches

An unknown requirement flag is a final mismatch.  Alternatives, optional parts and lists, which
recover from every other mismatch, hand it on, and so it ends the whole run.

* `Parser.Aborts` : the parser meets a final mismatch.
* `Grammar.Tries` : a run of a grammar comes to one of its parts at a cursor.
* `Grammar.Tries.run_eq_error` : **a final mismatch of a part that is tried is that of the whole run.**

Typed lists are the exception, and so they are left out of `Grammar.Tries`: their groups end at
every mismatch, also at a final one, and so does what follows the groups
(`Parser.typedList_recovers`, `Parser.typedList_recovers_from_final`).
-/

namespace Pddl

namespace Parser

variable {α β : Type} {p : Parser α} {q : Parser β} {c d : Cursor} {m : Mismatch}

/-- The parser meets a final mismatch. -/
def Aborts (p : Parser α) (c : Cursor) (m : Mismatch) : Prop :=
  p c = .error (.mismatch m) ∧ m.committed = true

theorem Aborts.recoverable? (h : p.Aborts c m) : (Failure.mismatch m).recoverable? = none := by
  simp [Failure.recoverable?, h.2]

/-! ### One after the other -/

theorem Aborts.seq (h : p.Aborts c m) (q : Parser β) : (Parser.seq p q).Aborts c m :=
  ⟨by rw [Parser.seq, h.1], h.2⟩

theorem Aborts.seq_behind {a : α} (hp : p c = .ok (d, a)) (h : q.Aborts d m) :
    (Parser.seq p q).Aborts c m := ⟨by rw [Parser.seq, hp]; simp only [h.1], h.2⟩

theorem Aborts.refine (f : α → Except Complaint β) (h : p.Aborts c m) :
    (Parser.refine f p).Aborts c m := ⟨by rw [Parser.refine, h.1], h.2⟩

/-! ### Alternatives and optional parts -/

theorem Aborts.orElse (h : p.Aborts c m) (q : Parser α) : (Parser.orElse p q).Aborts c m := by
  refine ⟨?_, h.2⟩
  rw [Parser.orElse, h.1]
  simp only [h.recoverable?]

theorem Aborts.orElse_behind {q : Parser α} {m' : Mismatch} (hp : p c = .error (.mismatch m'))
    (hm : m'.committed = false) (h : q.Aborts c m) : (Parser.orElse p q).Aborts c m := by
  refine ⟨?_, h.2⟩
  rw [Parser.orElse, hp]
  simp only [Failure.recoverable?_eq_some.2 ⟨rfl, hm⟩, h.1, h.recoverable?]

theorem Aborts.opt (h : p.Aborts c m) : (Parser.opt p).Aborts c m := by
  refine ⟨?_, h.2⟩
  rw [Parser.opt, h.1]
  simp only [h.recoverable?]

theorem Aborts.emptyOr (hc : emptyParensLength? c.rest = none) (h : p.Aborts c m) :
    (Parser.emptyOr p).Aborts c m := ⟨by rw [Parser.emptyOr, hc]; simp only [h.1], h.2⟩

/-! ### Lists -/

theorem Aborts.separated (hd : c.separated? = .ok d) (h : p.Aborts d m) :
    (Parser.separated p).Aborts c m := ⟨by rw [Parser.separated, hd]; exact h.1, h.2⟩

theorem Aborts.moreWithin (fuel : List Char) (h : (Parser.separated p).Aborts c m) :
    (Parser.moreWithin p fuel).Aborts c m := by
  refine ⟨?_, h.2⟩
  unfold Parser.moreWithin
  simp only [h.1, h.recoverable?]

theorem Aborts.moreWithin_behind {a : α} {x : Char} {fuel : List Char}
    (hp : Parser.separated p c = .ok (d, a)) (hd : d.offset ≠ c.offset)
    (h : (Parser.moreWithin p fuel).Aborts d m) : (Parser.moreWithin p (x :: fuel)).Aborts c m := by
  refine ⟨?_, h.2⟩
  rw [Parser.moreWithin, hp]
  simp only [hd, ↓reduceIte, h.1]

/-- More fuel mends nothing. -/
theorem Aborts.moreWithin_of_le {fuel fuel' : List Char} (hf : fuel.length ≤ fuel'.length)
    (h : (Parser.moreWithin p fuel).Aborts c m) : (Parser.moreWithin p fuel').Aborts c m := by
  induction fuel generalizing c fuel' with
  | nil =>
    obtain h' | ⟨u, a, x, fuel, hx, -, -⟩ := moreWithin_eq_error h.1
    · exact .moreWithin fuel' ⟨h', h.2⟩
    · simp at hx
  | cons x fuel ih =>
    obtain ⟨x', fuel', rfl⟩ : ∃ y ys, fuel' = y :: ys := by
      rcases fuel' with _ | ⟨y, ys⟩
      · simp at hf
      · exact ⟨y, ys, rfl⟩
    have hsep := h.1
    rw [Parser.moreWithin] at hsep
    rcases hc : Parser.separated p c with e | ⟨d, a⟩
    · -- the first element decides, whatever the fuel
      obtain h' | ⟨u, a, -, -, -, hu, -⟩ := moreWithin_eq_error h.1
      · exact .moreWithin _ ⟨h', h.2⟩
      · simp [hc] at hu
    · simp only [hc] at hsep
      split at hsep
      · simp at hsep
      · rename_i hd
        refine .moreWithin_behind hc hd (ih (by simpa using hf) ⟨?_, h.2⟩)
        rcases hm : Parser.moreWithin p fuel d with e | ⟨d', as⟩
        · simp only [hm] at hsep
          rw [Except.error.inj hsep]
        · simp [hm] at hsep

theorem Aborts.more (h : (Parser.separated p).Aborts c m) : (Parser.more p).Aborts c m :=
  h.moreWithin c.rest

theorem Aborts.more_behind {a : α} (hp : Parser.separated p c = .ok (d, a))
    (hd : d.offset ≠ c.offset) (hlen : d.rest.length < c.rest.length)
    (h : (Parser.more p).Aborts d m) : (Parser.more p).Aborts c m := by
  show (Parser.moreWithin p c.rest).Aborts c m
  rcases hc : c.rest with _ | ⟨x, fuel⟩
  · simp [hc] at hlen
  · rw [hc, List.length_cons, Nat.lt_succ_iff] at hlen
    exact .moreWithin_behind hp hd (moreWithin_of_le hlen h)

/-! ### Typed lists -/

/-- The groups of a typed list end at every mismatch. -/
theorem groupsWithin_recovers {group : Parser (List α)} {first : Bool} (fuel : List Char)
    (h : separatedUnless first group c = .error (.mismatch m)) :
    groupsWithin group first fuel c = .ok (c.recovered m, []) := by
  unfold groupsWithin
  simp only [h]

/-- A typed list ends at every mismatch. -/
theorem untypedTail_recovers {values : Parser (List α)} {first : Bool}
    (h : separatedUnless first values c = .error (.mismatch m)) :
    untypedTail first values c = .ok (c.recovered m, []) := by
  rw [untypedTail, h]

/-- Where neither a group nor a value is there, a typed list is empty, whatever is expected. -/
theorem typedList_recovers (default : TypeSpec) {group : Parser (List (Typed α))}
    {values : Parser (List α)} {m' : Mismatch} (hg : group c = .error (.mismatch m))
    (hv : values (c.recovered m) = .error (.mismatch m')) :
    typedList default group values c = .ok ((c.recovered m).recovered m', ⟨[]⟩) := by
  have hgroups : groupsWithin group true c.rest c = .ok (c.recovered m, []) :=
    groupsWithin_recovers c.rest hg
  have htail : untypedTail true values (c.recovered m) = .ok ((c.recovered m).recovered m', []) :=
    untypedTail_recovers hv
  simp only [typedList, hgroups, List.isEmpty_nil, htail]
  rfl

end Parser

/-! ### Requirement flags -/

namespace Rule

/-- An unknown requirement flag is a final mismatch in front of the flag. -/
theorem aborts_requirement {parse : {α : Type} → Nonterminal α → Parser α} {c : Cursor}
    (flag : List Char) (hf : Token.keyword.lexeme? c.rest = some flag)
    (hu : (Vocabulary.ofKeyword? (String.ofList flag) : Option Requirement) = none) :
    (requirement.run parse).Aborts c ⟨.unknownRequirement, .requirementFlag, c.offset⟩ := by
  refine ⟨?_, rfl⟩
  simp only [requirement, Grammar.run, Parser.refine, Terminal.parse, hf, hu, Option.map_none,
    Option.getD_none, Complaint.failure, Cursor.mismatchHere]

end Rule

/-! ### Runs of grammars -/

namespace Grammar

variable {N : Type → Type} {α β : Type}

/-- The run of a grammar at a cursor tries a part at a cursor, outside of nonterminals and typed
lists.  The first argument says how nonterminals are parsed; the part and its cursor come next. -/
inductive Tries (parse : {α : Type} → N α → Parser α) {β : Type} (k : Grammar N β) (d : Cursor) :
    {α : Type} → Grammar N α → Cursor → Prop where
  /-- It is the part itself. -/
  | here : Tries parse k d k d
  | seq {α γ : Type} {g : Grammar N α} {h : Grammar N γ} {c : Cursor} :
      Tries parse k d g c → Tries parse k d (.seq g h) c
  | seqBehind {α γ : Type} {g : Grammar N α} {h : Grammar N γ} {c u : Cursor} {a : α} :
      g.run parse c = .ok (u, a) → Tries parse k d h u → Tries parse k d (.seq g h) c
  | refine {α γ : Type} {f : α → Except Complaint γ} {g : Grammar N α} {c : Cursor} :
      Tries parse k d g c → Tries parse k d (.refine f g) c
  | orElse {α : Type} {g h : Grammar N α} {c : Cursor} :
      Tries parse k d g c → Tries parse k d (.orElse g h) c
  | orElseBehind {α : Type} {g h : Grammar N α} {c : Cursor} {m : Mismatch} :
      g.run parse c = .error (.mismatch m) → m.committed = false → Tries parse k d h c →
      Tries parse k d (.orElse g h) c
  | opt {α : Type} {g : Grammar N α} {c : Cursor} :
      Tries parse k d g c → Tries parse k d (.opt g) c
  | more {α : Type} {g : Grammar N α} {c u : Cursor} :
      c.separated? = .ok u → Tries parse k d g u → Tries parse k d (.more g) c
  /-- The elements behind one that is there are those of a list behind it. -/
  | moreBehind {α : Type} {g : Grammar N α} {c u : Cursor} {a : α} :
      Parser.separated (g.run parse) c = .ok (u, a) → u.offset ≠ c.offset →
      u.rest.length < c.rest.length → Tries parse k d (.more g) u → Tries parse k d (.more g) c
  | emptyOr {α : Type} {g : Grammar N α} {c : Cursor} :
      emptyParensLength? c.rest = none → Tries parse k d g c → Tries parse k d (.emptyOr g) c

/-- A final mismatch of a part that is tried is that of the whole run. -/
theorem Tries.aborts {parse : {α : Type} → N α → Parser α} {k : Grammar N β} {g : Grammar N α}
    {c d : Cursor} (h : Tries parse k d g c) {m : Mismatch} (hk : (k.run parse).Aborts d m) :
    (g.run parse).Aborts c m := by
  induction h with
  | here => exact hk
  | seq _ ih => exact ih.seq _
  | seqBehind hg _ ih => exact .seq_behind hg ih
  | refine _ ih => exact ih.refine _
  | orElse _ ih => exact ih.orElse _
  | orElseBehind hg hm _ ih => exact .orElse_behind hg hm ih
  | opt _ ih => exact ih.opt
  | more hu _ ih => exact (Parser.Aborts.separated hu ih).more
  | moreBehind hg hoff hlen _ ih => exact .more_behind hg hoff hlen ih
  | emptyOr hc _ ih => exact ih.emptyOr hc

/-- **What recovers from other mismatches does not recover from a final one**: if a part that is tried
fails with it, the whole run fails with the same. -/
theorem Tries.run_eq_error {parse : {α : Type} → N α → Parser α} {k : Grammar N β}
    {g : Grammar N α} {c d : Cursor} (h : Tries parse k d g c) {m : Mismatch}
    (hk : k.run parse d = .error (.mismatch m)) (hm : m.committed = true) :
    g.run parse c = .error (.mismatch m) :=
  (h.aborts ⟨hk, hm⟩).1

/-- A list of flags fails at the unknown one behind a known one. -/
theorem Tries.run_eq_error_unknownRequirement :
    let c := Cursor.ofText ":strips :nope".toList defaultCeiling
    let m : Mismatch := ⟨.unknownRequirement, .requirementFlag, 8⟩
    Tries (Nonterminal.parse 0) Rule.requirement (c.advance 8) (many Rule.requirement) c ∧
      Rule.requirement.run (Nonterminal.parse 0) (c.advance 8) = .error (.mismatch m) ∧
      (many Rule.requirement).run (Nonterminal.parse 0) c = .error (.mismatch m) := by
  intro c m
  have hflag : (Rule.requirement.run (Nonterminal.parse 0)).Aborts (c.advance 8) m :=
    Rule.aborts_requirement ":nope".toList (by decide) (by decide)
  have htries : Tries (Nonterminal.parse 0) Rule.requirement (c.advance 8)
      (many Rule.requirement) c :=
    .refine (.opt (.refine (.seqBehind (u := c.advance 7) (a := .strips) (by rfl)
      (.more (by rfl) .here))))
  exact ⟨htries, hflag.1, htries.run_eq_error hflag.1 hflag.2⟩

end Grammar

namespace Parser

/-- A typed list recovers even from an unknown requirement flag in front of its group and of its
values, and so the flag goes unnoticed. -/
theorem typedList_recovers_from_final :
    ¬∀ (group : Parser (List (Typed Requirement))) (values : Parser (List Requirement)) (c : Cursor)
      (m : Mismatch), group.Aborts c m → (typedList .object group values).Aborts c m := by
  intro h
  let c := Cursor.ofText ":nope - t".toList defaultCeiling
  have hflag : ((Rule.requirement).run (Nonterminal.parse 0)).Aborts c
      ⟨.unknownRequirement, .requirementFlag, 0⟩ :=
    Rule.aborts_requirement ":nope".toList (by decide) (by decide)
  have hflags : ((Grammar.many1 Rule.requirement).run (Nonterminal.parse 0)).Aborts c _ :=
    (hflag.seq _).refine _
  have hgroup : ((Grammar.typedGroup Rule.requirement).run (Nonterminal.parse 0)).Aborts c _ :=
    (hflags.seq _).refine _
  have hvalues : ((Grammar.many Rule.requirement).run (Nonterminal.parse 0)).Aborts c _ :=
    hflags.opt.refine _
  have hlist := typedList_recovers .object hgroup.1 hvalues.1
  simp [(h _ _ c _ hgroup).1] at hlist

end Parser

end Pddl
