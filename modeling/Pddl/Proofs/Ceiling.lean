import Pddl.Proofs.Outcome

/-!
# The ceiling is transparent

A ceiling on nesting only ever stops a reading.  Where it is not exceeded, a higher one changes
neither what is read nor what is reported, since nothing recovers from a nesting that is too deep.

* `Cursor.under` : the same place under another ceiling.
* `Carries` : the outcome under a lower ceiling is carried over to a higher one, or it is that the
  nesting is too deep.
* `Grammar.carriesOver_run` : running a grammar carries over what its nonterminals do.
* `Rule.parse_under` : **a rule does under a higher ceiling what it does under a lower one, unless it
  exceeds the lower one.**
-/

namespace Pddl

/-! ### The same place under another ceiling -/

namespace Cursor

variable (c : Cursor) (ceiling : Nat)

/-- The same place under another ceiling. -/
def under : Cursor := { c with ceiling := ceiling }

@[simp] theorem view_under : (c.under ceiling).view = c.view := rfl

@[simp] theorem rest_under : (c.under ceiling).rest = c.rest := rfl

@[simp] theorem offset_under : (c.under ceiling).offset = c.offset := rfl

@[simp] theorem mismatch_under (e : Expectation) : (c.under ceiling).mismatch e = c.mismatch e := rfl

theorem advance_under (n : Nat) : (c.under ceiling).advance n = (c.advance n).under ceiling := by
  cases n <;> rfl

theorem skipBlanks_under : (c.under ceiling).skipBlanks = c.skipBlanks.under ceiling :=
  c.advance_under ceiling _

theorem recovered_under (m : Mismatch) :
    (c.under ceiling).recovered m = (c.recovered m).under ceiling := by
  by_cases hm : m.offset ≤ c.offset
  · simp [recovered, hm]
  · rcases hf : c.furthest with _ | known
    · simp [recovered, under, hm, hf]
    · by_cases hk : m.offset ≤ known.offset <;> simp [recovered, under, hm, hf, hk]

theorem ceiling_advance (n : Nat) : (c.advance n).ceiling = c.ceiling := by
  cases n <;> rfl

theorem ceiling_recovered (m : Mismatch) : (c.recovered m).ceiling = c.ceiling := by
  unfold recovered
  split
  · rfl
  · split
    · split <;> rfl
    · rfl

end Cursor

theorem Complaint.failure_under (x : Complaint) (c : Cursor) (ceiling : Nat) :
    x.failure (c.under ceiling) = x.failure c := by
  cases x <;> rfl

/-! ### Outcomes under two ceilings -/

/-- The outcome under a lower ceiling is carried over to the higher one, or it is that the nesting
is too deep. -/
inductive Carries (low high : Nat) {α : Type} :
    Except Failure (Cursor × α) → Except Failure (Cursor × α) → Prop where
  | found {d : Cursor} (hd : d.ceiling = low) (a : α) :
      Carries low high (.ok (d, a)) (.ok (d.under high, a))
  | failed (e : Failure) : Carries low high (.error e) (.error e)
  | tooDeep (offset : Nat) (r : Except Failure (Cursor × α)) :
      Carries low high (.error (.tooDeep low offset)) r

/-- What the first parser does under the lower ceiling, the second one does under the higher one,
unless the nesting is too deep. -/
def Parser.CarriesOver (low high : Nat) {α : Type} (p q : Parser α) : Prop :=
  ∀ c : Cursor, c.ceiling = low → Carries low high (p c) (q (c.under high))

namespace Parser

variable {low high : Nat} {α β : Type} {p q : Parser α}

theorem carriesOver_terminal (t : Terminal α) : CarriesOver low high t.parse t.parse := by
  intro c hc
  obtain ⟨e, he⟩ := t.parse_eq
  rw [he, he, Cursor.view_under]
  rcases t.lexeme? c.view with _ | ⟨n, a⟩
  · exact .failed _
  · simp only [Cursor.lexeme, Cursor.advance_under]
    exact .found ((c.ceiling_advance n).trans hc) a

theorem carriesOver_seq {r s : Parser β} (hp : CarriesOver low high p q)
    (hr : CarriesOver low high r s) : CarriesOver low high (seq p r) (seq q s) := by
  intro c hc
  have h := hp c hc
  unfold seq
  generalize p c = x, q (c.under high) = y at h
  cases h with
  | failed e => exact .failed e
  | tooDeep offset y => exact .tooDeep offset _
  | @found d hd a =>
    have h := hr d hd
    dsimp only
    generalize r d = x, s (d.under high) = y at h
    cases h with
    | found hd' b => exact .found hd' (a, b)
    | failed e => exact .failed e
    | tooDeep offset y => exact .tooDeep offset _

theorem carriesOver_refine (f : α → Except Complaint β) (hp : CarriesOver low high p q) :
    CarriesOver low high (refine f p) (refine f q) := by
  intro c hc
  have h := hp c hc
  unfold refine
  generalize p c = x, q (c.under high) = y at h
  cases h with
  | failed e => exact .failed e
  | tooDeep offset y => exact .tooDeep offset _
  | found hd a =>
    rcases hf : f a with x | b
    · simp only [hf, Complaint.failure_under]
      exact .failed _
    · simp only [hf]
      exact .found hd b

/-- The two choices go the same way where the first alternative is not too deep. -/
theorem carriesOver_orElse {r s : Parser α} (hp : CarriesOver low high p q)
    (hr : CarriesOver low high r s) : CarriesOver low high (orElse p r) (orElse q s) := by
  intro c hc
  have h := hp c hc
  have k := hr c hc
  unfold orElse
  generalize p c = x, q (c.under high) = y at h
  cases h with
  | found hd a => exact .found hd a
  | tooDeep offset y => exact .tooDeep offset _
  | failed e =>
    rcases he : e.recoverable? with _ | m
    · simp only [he]
      exact .failed e
    · simp only [he]
      generalize r c = x, s (c.under high) = y at k
      cases k with
      | found hd a => exact .found hd a
      | tooDeep offset y => exact .tooDeep offset _
      | failed e' =>
        dsimp only
        rcases e'.recoverable? with _ | m' <;> exact .failed _

/-- What a recovery leaves under the two ceilings. -/
theorem carries_recovered {c : Cursor} (hc : c.ceiling = low) (m : Mismatch) (a : α) :
    Carries low high (.ok (c.recovered m, a)) (.ok ((c.under high).recovered m, a)) := by
  rw [Cursor.recovered_under]
  exact .found ((c.ceiling_recovered m).trans hc) a

theorem carriesOver_opt (hp : CarriesOver low high p q) : CarriesOver low high (opt p) (opt q) := by
  intro c hc
  have h := hp c hc
  unfold opt
  generalize p c = x, q (c.under high) = y at h
  cases h with
  | found hd a => exact .found hd _
  | tooDeep offset y => exact .tooDeep offset _
  | failed e =>
    rcases he : e.recoverable? with _ | m
    · simp only [he]
      exact .failed e
    · simp only [he]
      exact carries_recovered hc m none

theorem carriesOver_separated (hp : CarriesOver low high p q) :
    CarriesOver low high (separated p) (separated q) := by
  intro c hc
  unfold separated
  rw [Cursor.separated?_eq, Cursor.separated?_eq, Cursor.view_under, Cursor.skipBlanks_under]
  by_cases h : c.view.separates = true
  · simp only [h, ↓reduceIte]
    exact hp _ ((c.ceiling_advance _).trans hc)
  · simp only [h, Bool.false_eq_true, ↓reduceIte]
    exact .failed _

theorem carriesOver_separatedUnless (hp : CarriesOver low high p q) (first : Bool) :
    CarriesOver low high (separatedUnless first p) (separatedUnless first q) := by
  cases first with
  | false => exact carriesOver_separated hp
  | true => exact hp

theorem carriesOver_moreWithin (hp : CarriesOver low high p q) (fuel : List Char) :
    CarriesOver low high (moreWithin p fuel) (moreWithin q fuel) := by
  have hs := carriesOver_separated hp
  induction fuel with
  | nil =>
    intro c hc
    have h := hs c hc
    unfold moreWithin
    generalize separated p c = x, separated q (c.under high) = y at h
    cases h with
    | tooDeep offset y => exact .tooDeep offset _
    | failed e =>
      rcases he : e.recoverable? with _ | m
      · simp only [he]
        exact .failed e
      · simp only [he]
        exact carries_recovered hc m []
    | found hd a =>
      simp only [ite_self]
      exact .found hc []
  | cons x fuel ih =>
    intro c hc
    have h := hs c hc
    unfold moreWithin
    generalize separated p c = x, separated q (c.under high) = y at h
    cases h with
    | tooDeep offset y => exact .tooDeep offset _
    | failed e =>
      rcases he : e.recoverable? with _ | m
      · simp only [he]
        exact .failed e
      · simp only [he]
        exact carries_recovered hc m []
    | @found d hd a =>
      have h := ih d hd
      simp only [Cursor.offset_under]
      by_cases hoff : d.offset = c.offset
      · simp only [hoff, ↓reduceIte]
        exact .found hc []
      · simp only [hoff, ↓reduceIte]
        generalize moreWithin p fuel d = x, moreWithin q fuel (d.under high) = y at h
        cases h with
        | tooDeep offset y => exact .tooDeep offset _
        | failed e => exact .failed e
        | found hd' as => exact .found hd' (a :: as)

theorem carriesOver_more (hp : CarriesOver low high p q) :
    CarriesOver low high (more p) (more q) := fun c hc => carriesOver_moreWithin hp c.rest c hc

theorem carriesOver_emptyOr (hp : CarriesOver low high p q) :
    CarriesOver low high (emptyOr p) (emptyOr q) := by
  intro c hc
  have h := hp c hc
  unfold emptyOr
  rw [Cursor.rest_under]
  rcases emptyParensLength? c.rest with _ | n
  · generalize p c = x, q (c.under high) = y at h
    cases h with
    | tooDeep offset y => exact .tooDeep offset _
    | failed e => exact .failed e
    | found hd a => exact .found hd _
  · simp only [Cursor.advance_under]
    exact .found ((c.ceiling_advance n).trans hc) none

theorem carriesOver_groupsWithin {p q : Parser (List α)} (hp : CarriesOver low high p q)
    (first : Bool) (fuel : List Char) :
    CarriesOver low high (groupsWithin p first fuel) (groupsWithin q first fuel) := by
  have hs := carriesOver_separatedUnless hp
  induction fuel generalizing first with
  | nil =>
    intro c hc
    have h := hs first c hc
    unfold groupsWithin
    generalize separatedUnless first p c = x, separatedUnless first q (c.under high) = y at h
    cases h with
    | tooDeep offset y => exact .tooDeep offset _
    | found hd as => exact .found hd as
    | failed e =>
      rcases e with m | _ | _
      · exact carries_recovered hc m []
      · exact .failed _
      · exact .failed _
  | cons x fuel ih =>
    intro c hc
    have h := hs first c hc
    unfold groupsWithin
    generalize separatedUnless first p c = x, separatedUnless first q (c.under high) = y at h
    cases h with
    | tooDeep offset y => exact .tooDeep offset _
    | failed e =>
      rcases e with m | _ | _
      · exact carries_recovered hc m []
      · exact .failed _
      · exact .failed _
    | @found d hd as =>
      have h := ih (first && as.isEmpty) d hd
      dsimp only
      generalize groupsWithin p (first && as.isEmpty) fuel d = x,
        groupsWithin q (first && as.isEmpty) fuel (d.under high) = y at h
      cases h with
      | tooDeep offset y => exact .tooDeep offset _
      | failed e => exact .failed e
      | found hd' bs => exact .found hd' (as ++ bs)

theorem carriesOver_untypedTail {p q : Parser (List α)} (hp : CarriesOver low high p q)
    (first : Bool) : CarriesOver low high (untypedTail first p) (untypedTail first q) := by
  intro c hc
  have h := carriesOver_separatedUnless hp first c hc
  unfold untypedTail
  generalize separatedUnless first p c = x, separatedUnless first q (c.under high) = y at h
  cases h with
  | tooDeep offset y => exact .tooDeep offset _
  | failed e =>
    rcases e with m | _ | _
    · exact carries_recovered hc m []
    · exact .failed _
    · exact .failed _
  | found hd as =>
    dsimp only
    split
    · exact .found hc as
    · exact .found hd as

theorem carriesOver_typedList (default : TypeSpec) {p q : Parser (List (Typed α))}
    {r s : Parser (List α)} (hp : CarriesOver low high p q) (hr : CarriesOver low high r s) :
    CarriesOver low high (typedList default p r) (typedList default q s) := by
  intro c hc
  have h := carriesOver_groupsWithin hp true c.rest c hc
  unfold typedList
  rw [Cursor.rest_under]
  generalize groupsWithin p true c.rest c = x, groupsWithin q true c.rest (c.under high) = y at h
  cases h with
  | tooDeep offset y => exact .tooDeep offset _
  | failed e => exact .failed e
  | @found d hd typed =>
    have h := carriesOver_untypedTail hr typed.isEmpty d hd
    dsimp only
    generalize untypedTail typed.isEmpty r d = x, untypedTail typed.isEmpty s (d.under high) = y
      at h
    cases h with
    | tooDeep offset y => exact .tooDeep offset _
    | failed e => exact .failed e
    | found hd' untyped => exact .found hd' _

/-- One level more is open inside. -/
theorem nested_of_lt {c : Cursor} (h : c.depth < c.ceiling) :
    nested p c = (p (c.withDepth (c.depth + 1))).map fun r => (r.1.withDepth c.depth, r.2) := by
  unfold nested Cursor.deeper?
  simp only [h, ↓reduceIte]
  rcases p (c.withDepth (c.depth + 1)) with e | ⟨d, a⟩ <;> rfl

/-- One level more is open under both ceilings, unless the lower one is reached. -/
theorem carriesOver_nested (hle : low ≤ high) (hp : CarriesOver low high p q) :
    CarriesOver low high (nested p) (nested q) := by
  intro c hc
  by_cases hd : c.depth < c.ceiling
  · have hd' : (c.under high).depth < (c.under high).ceiling := hd.trans_le (hc.trans_le hle)
    have h : Carries low high (p (c.withDepth (c.depth + 1)))
        (q ((c.under high).withDepth ((c.under high).depth + 1))) :=
      hp (c.withDepth (c.depth + 1)) hc
    rw [nested_of_lt hd, nested_of_lt hd']
    generalize p (c.withDepth (c.depth + 1)) = x,
      q ((c.under high).withDepth ((c.under high).depth + 1)) = y at h
    cases h with
    | tooDeep offset y => exact .tooDeep offset _
    | failed e => exact .failed e
    | @found d hd a => exact .found (d := d.withDepth c.depth) hd a
  · simp only [nested, Cursor.deeper?, hd, ↓reduceIte]
    rw [hc]
    exact .tooDeep c.offset _

end Parser

/-- Running a grammar carries over what its nonterminals do. -/
theorem Grammar.carriesOver_run {N : Type → Type} {low high : Nat} (hle : low ≤ high)
    {parse parse' : {α : Type} → N α → Parser α}
    (hn : ∀ {α : Type} (n : N α), Parser.CarriesOver low high (parse n) (parse' n)) {α : Type}
    (g : Grammar N α) : Parser.CarriesOver low high (g.run parse) (g.run parse') := by
  induction g with
  | terminal t => exact Parser.carriesOver_terminal t
  | call n => exact Parser.carriesOver_nested hle (hn n)
  | seq g h ihg ihh => exact Parser.carriesOver_seq ihg ihh
  | refine f g ih => exact Parser.carriesOver_refine f ih
  | orElse g h ihg ihh => exact Parser.carriesOver_orElse ihg ihh
  | opt g ih => exact Parser.carriesOver_opt ih
  | more g ih => exact Parser.carriesOver_more ih
  | emptyOr g ih => exact Parser.carriesOver_emptyOr ih
  | typedList default group values ihg ihv => exact Parser.carriesOver_typedList default ihg ihv

theorem Nonterminal.carriesOver_parse {low high : Nat} (hle : low ≤ high) {levels levels' : Nat}
    (h : levels ≤ levels') {α : Type} (n : Nonterminal α) :
    Parser.CarriesOver low high (n.parse levels) (n.parse levels') := by
  induction levels generalizing levels' α with
  | zero =>
    intro c hc
    simp only [parse, hc]
    exact .tooDeep c.offset _
  | succ levels ih =>
    obtain ⟨levels', rfl⟩ : ∃ k, levels' = k + 1 := ⟨levels' - 1, by omega⟩
    exact Grammar.carriesOver_run hle (fun n => ih (Nat.le_of_succ_le_succ h) n) n.production

namespace Rule

variable {α : Type}

/-- **A rule does under a higher ceiling what it does under a lower one, unless it exceeds the lower
one**: it gives the same construct at the same place, with the same mismatch remembered there, or it
fails in the same way. -/
theorem parse_under (g : Rule α) (c : Cursor) {low high : Nat} (h : low ≤ high) :
    (∃ offset, g.parse (c.under low) = .error (.tooDeep low offset)) ∨
      g.parse (c.under high) = (g.parse (c.under low)).map fun (d, a) => (d.under high, a) := by
  have hlevels : (c.under low).ceiling - (c.under low).depth ≤
      (c.under high).ceiling - (c.under high).depth := Nat.sub_le_sub_right h _
  have hc := Grammar.carriesOver_run h (fun n => n.carriesOver_parse h hlevels) g (c.under low) rfl
  change Carries low high (g.parse (c.under low)) (g.parse (c.under high)) at hc
  generalize g.parse (c.under low) = x, g.parse (c.under high) = y at hc
  cases hc with
  | tooDeep offset y => exact .inl ⟨offset, rfl⟩
  | failed e => exact .inr rfl
  | found hd a => exact .inr rfl

/-- A goal with an argument needs two levels; with one it is too deep, and with more than two
nothing changes. -/
theorem parse_under_argument :
    2 ≤ defaultCeiling ∧
      (∃ offset, goal.parse (.ofText "(p x)".toList 1) = .error (.tooDeep 1 offset)) ∧
      ∃ d a, goal.parse (.ofText "(p x)".toList 2) = .ok (d, a) ∧ d.offset = 5 ∧
        goal.parse (.ofText "(p x)".toList defaultCeiling) = .ok (d.under defaultCeiling, a) := by
  have hle : 2 ≤ defaultCeiling := by decide
  refine ⟨hle, ⟨3, failure?_eq_some.1 (by decide +kernel)⟩, ?_⟩
  obtain ⟨d, a, hd, hend⟩ := endOf?_eq_some.1
    (show goal.endOf? (.ofText "(p x)".toList 2) = some 5 by decide +kernel)
  refine ⟨d, a, hd, hend, ?_⟩
  obtain ⟨offset, h⟩ | h := parse_under goal (.ofText "(p x)".toList 0) hle
  · exact nomatch hd.symm.trans h
  · exact h.trans (congrArg _ hd)

end Rule

end Pddl
