import Pddl.Proofs.Agreement

/-!
# How parsers come to their results

For each way to put parsers together, where a construct can come from and where a failure can come
from.

* `Parser.seq_eq_ok`, `Parser.orElse_eq_ok`, … : where a construct comes from.
* `Parser.seq_eq_error`, `Parser.orElse_eq_error`, … : where a failure comes from.
* `failure?`, `Rule.endOf?` : what is evaluated of the outcome of a concrete reading.
-/

namespace Pddl

theorem Failure.recoverable?_eq_some {e : Failure} {m : Mismatch} :
    e.recoverable? = some m ↔ e = .mismatch m ∧ m.committed = false := by
  cases e with
  | mismatch m' =>
    simp only [recoverable?, mismatch.injEq]
    split
    · rename_i h
      simp only [reduceCtorEq, false_iff, not_and, Bool.not_eq_false]
      rintro rfl
      exact h
    · rename_i h
      simp only [Option.some.injEq, iff_self_and]
      rintro rfl
      simpa using h
  | tooDeep => simp [recoverable?]
  | infiniteNumber => simp [recoverable?]

namespace Parser

variable {α β : Type} {p : Parser α} {q : Parser β} {c d : Cursor} {e : Failure}

/-! ### Terminals -/

theorem terminal_eq_ok {t : Terminal α} {a : α} :
    t.parse c = .ok (d, a) ↔ ∃ n, t.lexeme? c.view = some (n, a) ∧ d = c.advance n := by
  obtain ⟨x, hx⟩ := t.parse_eq
  rw [hx]
  rcases t.lexeme? c.view with _ | ⟨n, b⟩
  · simp [Cursor.lexeme]
  · simp only [Cursor.lexeme, Except.ok.injEq, Prod.mk.injEq, Option.some.injEq]
    constructor
    · rintro ⟨rfl, rfl⟩
      exact ⟨n, ⟨rfl, rfl⟩, rfl⟩
    · rintro ⟨m, ⟨rfl, rfl⟩, rfl⟩
      exact ⟨rfl, rfl⟩

theorem terminal_eq_error {t : Terminal α} (h : t.parse c = .error e) :
    ∃ x, e = .mismatch (c.mismatch x) := by
  obtain ⟨x, hx⟩ := t.parse_eq
  rw [hx] at h
  rcases ht : t.lexeme? c.view with _ | ⟨n, b⟩
  · rw [ht] at h
    exact ⟨x, (Except.error.inj h).symm⟩
  · simp [ht, Cursor.lexeme] at h

/-! ### One after the other -/

theorem seq_eq_ok {ab : α × β} :
    seq p q c = .ok (d, ab) ↔ ∃ u, p c = .ok (u, ab.1) ∧ q u = .ok (d, ab.2) := by
  obtain ⟨a, b⟩ := ab
  unfold seq
  rcases p c with e | ⟨u, a'⟩
  · simp
  · constructor
    · intro h
      rcases hu : q u with e | ⟨d', b'⟩
      · simp [hu] at h
      · simp only [hu, Except.ok.injEq, Prod.mk.injEq] at h
        obtain ⟨rfl, rfl, rfl⟩ := h
        exact ⟨u, rfl, hu⟩
    · rintro ⟨v, h, hv⟩
      simp only [Except.ok.injEq, Prod.mk.injEq] at h
      obtain ⟨rfl, rfl⟩ := h
      simp [hv]

theorem seq_eq_error :
    seq p q c = .error e ↔ p c = .error e ∨ ∃ u a, p c = .ok (u, a) ∧ q u = .error e := by
  unfold seq
  rcases p c with e' | ⟨u, a'⟩
  · simp
  · rcases hu : q u with e' | ⟨d', b'⟩ <;> simp [hu]

theorem refine_eq_ok {f : α → Except Complaint β} {b : β} :
    refine f p c = .ok (d, b) ↔ ∃ a, p c = .ok (d, a) ∧ f a = .ok b := by
  unfold refine
  rcases p c with e | ⟨u, a⟩
  · simp
  · constructor
    · intro h
      rcases hf : f a with x | b'
      · simp [hf] at h
      · simp only [hf, Except.ok.injEq, Prod.mk.injEq] at h
        obtain ⟨rfl, rfl⟩ := h
        exact ⟨a, rfl, hf⟩
    · rintro ⟨a', h, hf⟩
      simp only [Except.ok.injEq, Prod.mk.injEq] at h
      obtain ⟨rfl, rfl⟩ := h
      simp [hf]

theorem refine_eq_error {f : α → Except Complaint β} :
    refine f p c = .error e ↔
      p c = .error e ∨ ∃ u a x, p c = .ok (u, a) ∧ f a = .error x ∧ e = x.failure c := by
  unfold refine
  rcases p c with e' | ⟨u, a⟩
  · simp
  · rcases hf : f a with x | b' <;> simp [hf, eq_comm]

/-! ### Alternatives -/

theorem orElse_eq_ok {q : Parser α} {a : α} :
    orElse p q c = .ok (d, a) ↔ p c = .ok (d, a) ∨
      ∃ m, p c = .error (.mismatch m) ∧ m.committed = false ∧ q c = .ok (d, a) := by
  unfold orElse
  rcases p c with e | ⟨u, b⟩
  · rcases hr : e.recoverable? with _ | m
    · simp only [hr, reduceCtorEq, Except.error.injEq, false_or, false_iff, not_exists, not_and]
      rintro m rfl hm
      rw [Failure.recoverable?_eq_some.2 ⟨rfl, hm⟩] at hr
      simp at hr
    · obtain ⟨rfl, hm⟩ := Failure.recoverable?_eq_some.1 hr
      rcases q c with e' | ⟨u, b⟩
      · rcases hr' : e'.recoverable? with _ | m' <;> simp [hr, hr']
      · simp [hr, hm]
  · simp

theorem orElse_eq_error {q : Parser α} (h : orElse p q c = .error e) :
    p c = .error e ∨ q c = .error e := by
  unfold orElse at h
  rcases hc : p c with e₁ | ⟨u, b⟩
  · rcases hr : e₁.recoverable? with _ | m
    · simp only [hc, hr] at h
      exact .inl h
    · obtain ⟨rfl, -⟩ := Failure.recoverable?_eq_some.1 hr
      rcases hq : q c with e₂ | ⟨u, b⟩
      · rcases hr' : e₂.recoverable? with _ | m'
        · simp only [hc, hr, hq, hr'] at h
          exact .inr h
        · -- the mismatch that lies further on is one of the two
          obtain ⟨rfl, -⟩ := Failure.recoverable?_eq_some.1 hr'
          simp only [hc, hr, hq, hr'] at h
          split at h
          · exact .inr h
          · exact .inl h
      · simp [hc, hr, hq] at h
  · simp [hc] at h

theorem opt_eq_ok {x : Option α} :
    opt p c = .ok (d, x) ↔ (∃ a, p c = .ok (d, a) ∧ x = some a) ∨
      ∃ m, p c = .error (.mismatch m) ∧ m.committed = false ∧ d = c.recovered m ∧ x = none := by
  unfold opt
  rcases p c with e | ⟨u, a⟩
  · rcases hr : e.recoverable? with _ | m
    · simp only [hr, reduceCtorEq, Except.error.injEq, false_and, exists_false, false_or, false_iff,
        not_exists, not_and]
      rintro m rfl hm
      rw [Failure.recoverable?_eq_some.2 ⟨rfl, hm⟩] at hr
      simp at hr
    · obtain ⟨rfl, hm⟩ := Failure.recoverable?_eq_some.1 hr
      simp only [hr, Except.ok.injEq, Prod.mk.injEq, reduceCtorEq, false_and, exists_false,
        Except.error.injEq, Failure.mismatch.injEq, false_or]
      constructor
      · rintro ⟨rfl, rfl⟩
        exact ⟨m, rfl, hm, rfl, rfl⟩
      · rintro ⟨_, rfl, -, rfl, rfl⟩
        exact ⟨rfl, rfl⟩
  · simp only [Except.ok.injEq, Prod.mk.injEq, reduceCtorEq, false_and, exists_false, or_false]
    constructor
    · rintro ⟨rfl, rfl⟩
      exact ⟨a, ⟨rfl, rfl⟩, rfl⟩
    · rintro ⟨_, ⟨rfl, rfl⟩, rfl⟩
      exact ⟨rfl, rfl⟩

theorem opt_eq_error (h : opt p c = .error e) : p c = .error e := by
  unfold opt at h
  rcases hc : p c with e' | ⟨u, a⟩
  · rcases hr : e'.recoverable? with _ | m
    · simp only [hc, hr] at h
      rw [Except.error.inj h]
    · simp [hc, hr] at h
  · simp [hc] at h

theorem emptyOr_eq_ok {x : Option α} :
    emptyOr p c = .ok (d, x) ↔
      (∃ n, emptyParensLength? c.rest = some n ∧ d = c.advance n ∧ x = none) ∨
        emptyParensLength? c.rest = none ∧ ∃ a, p c = .ok (d, a) ∧ x = some a := by
  unfold emptyOr
  rcases emptyParensLength? c.rest with _ | n
  · rcases p c with e | ⟨u, a⟩ <;> simp [eq_comm]
  · simp [eq_comm]

theorem emptyOr_eq_error (h : emptyOr p c = .error e) : p c = .error e := by
  unfold emptyOr at h
  rcases hn : emptyParensLength? c.rest with _ | n
  · rcases hc : p c with e' | ⟨u, a⟩
    · simp only [hn, hc] at h
      rw [Except.error.inj h]
    · simp [hn, hc] at h
  · simp [hn] at h

theorem nested_eq_ok {a : α} (h : nested p c = .ok (d, a)) :
    ∃ u, p (c.withDepth (c.depth + 1)) = .ok (u, a) ∧ d = u.withDepth c.depth := by
  unfold nested Cursor.deeper? at h
  by_cases hd : c.depth < c.ceiling
  · rcases hc : p (c.withDepth (c.depth + 1)) with e | ⟨u, b⟩
    · simp [hd, hc] at h
    · simp only [hd, hc, ↓reduceIte, Except.ok.injEq, Prod.mk.injEq] at h
      obtain ⟨rfl, rfl⟩ := h
      exact ⟨u, rfl, rfl⟩
  · simp [hd] at h

theorem nested_eq_error (h : nested p c = .error e) :
    p (c.withDepth (c.depth + 1)) = .error e ∨ e = .tooDeep c.ceiling c.offset := by
  unfold nested Cursor.deeper? at h
  by_cases hd : c.depth < c.ceiling
  · rcases hc : p (c.withDepth (c.depth + 1)) with e' | ⟨u, b⟩
    · simp only [hd, hc, ↓reduceIte] at h
      exact .inl h
    · simp [hd, hc] at h
  · simp only [hd, ↓reduceIte] at h
    exact .inr (Except.error.inj h).symm

/-! ### Lists -/

theorem separated_eq_ok {a : α} :
    separated p c = .ok (d, a) ↔ c.view.separates = true ∧ p c.skipBlanks = .ok (d, a) := by
  unfold separated
  rw [Cursor.separated?_eq]
  by_cases h : c.view.separates = true <;> simp [h]

theorem separated_eq_error (h : separated p c = .error e) :
    p c.skipBlanks = .error e ∨ e = .mismatch (c.mismatch .separation) := by
  unfold separated at h
  rw [Cursor.separated?_eq] at h
  by_cases hc : c.view.separates = true
  · simp only [hc, ↓reduceIte] at h
    exact .inl h
  · simp only [hc, Bool.false_eq_true, ↓reduceIte] at h
    exact .inr (Except.error.inj h).symm

/-- A list ends where an element is not there or takes nothing, or it goes on behind one. -/
theorem moreWithin_eq_ok {fuel : List Char} {as : List α}
    (h : moreWithin p fuel c = .ok (d, as)) :
    (∃ m, separated p c = .error (.mismatch m) ∧ d = c.recovered m) ∨ d = c ∨
      ∃ u a x fuel' as', fuel = x :: fuel' ∧ separated p c = .ok (u, a) ∧
        moreWithin p fuel' u = .ok (d, as') := by
  unfold moreWithin at h
  rcases hc : separated p c with e | ⟨u, a⟩
  · rcases hr : e.recoverable? with _ | m
    · simp [hc, hr] at h
    · obtain ⟨rfl, -⟩ := Failure.recoverable?_eq_some.1 hr
      simp only [hc, hr, Except.ok.injEq, Prod.mk.injEq] at h
      exact .inl ⟨m, rfl, h.1.symm⟩
  · simp only [hc] at h
    split at h
    · simp only [Except.ok.injEq, Prod.mk.injEq] at h
      exact .inr (.inl h.1.symm)
    · rcases fuel with _ | ⟨x, fuel⟩
      · simp only [Except.ok.injEq, Prod.mk.injEq] at h
        exact .inr (.inl h.1.symm)
      · rcases hu : moreWithin p fuel u with e | ⟨d', bs⟩
        · simp [hu] at h
        · simp only [hu, Except.ok.injEq, Prod.mk.injEq] at h
          obtain ⟨rfl, -⟩ := h
          exact .inr (.inr ⟨u, a, x, fuel, bs, rfl, rfl, hu⟩)

theorem moreWithin_eq_error {fuel : List Char} (h : moreWithin p fuel c = .error e) :
    separated p c = .error e ∨ ∃ u a x fuel', fuel = x :: fuel' ∧
      separated p c = .ok (u, a) ∧ moreWithin p fuel' u = .error e := by
  unfold moreWithin at h
  rcases hc : separated p c with e' | ⟨u, a⟩
  · rcases hr : e'.recoverable? with _ | m
    · simp only [hc, hr] at h
      exact .inl (by rw [Except.error.inj h])
    · simp [hc, hr] at h
  · simp only [hc] at h
    split at h
    · simp at h
    · rcases fuel with _ | ⟨x, fuel⟩
      · simp at h
      · rcases hu : moreWithin p fuel u with e' | ⟨d', bs⟩
        · simp only [hu] at h
          exact .inr ⟨u, a, x, fuel, rfl, rfl, hu.trans h⟩
        · simp [hu] at h

/-! ### Typed lists -/

theorem groupsWithin_eq_ok {group : Parser (List α)} {first : Bool} {fuel : List Char}
    {as : List α} (h : groupsWithin group first fuel c = .ok (d, as)) :
    (∃ m, separatedUnless first group c = .error (.mismatch m) ∧ d = c.recovered m) ∨
      (∃ bs, separatedUnless first group c = .ok (d, bs)) ∨
        ∃ u bs x fuel' as', fuel = x :: fuel' ∧ separatedUnless first group c = .ok (u, bs) ∧
          groupsWithin group (first && bs.isEmpty) fuel' u = .ok (d, as') := by
  unfold groupsWithin at h
  rcases hc : separatedUnless first group c with e | ⟨u, bs⟩
  · rcases e with m | _ | _
    · simp only [hc, Except.ok.injEq, Prod.mk.injEq] at h
      exact .inl ⟨m, rfl, h.1.symm⟩
    all_goals simp [hc] at h
  · simp only [hc] at h
    rcases fuel with _ | ⟨x, fuel⟩
    · simp only [Except.ok.injEq, Prod.mk.injEq] at h
      obtain ⟨rfl, -⟩ := h
      exact .inr (.inl ⟨bs, rfl⟩)
    · rcases hu : groupsWithin group (first && bs.isEmpty) fuel u with e | ⟨d', cs⟩
      · simp [hu] at h
      · simp only [hu, Except.ok.injEq, Prod.mk.injEq] at h
        obtain ⟨rfl, -⟩ := h
        exact .inr (.inr ⟨u, bs, x, fuel, cs, rfl, rfl, hu⟩)

theorem groupsWithin_eq_error {group : Parser (List α)} {first : Bool} {fuel : List Char}
    (h : groupsWithin group first fuel c = .error e) :
    separatedUnless first group c = .error e ∨ ∃ u bs x fuel', fuel = x :: fuel' ∧
      separatedUnless first group c = .ok (u, bs) ∧
        groupsWithin group (first && bs.isEmpty) fuel' u = .error e := by
  unfold groupsWithin at h
  rcases hc : separatedUnless first group c with e' | ⟨u, bs⟩
  · rcases e' with m | _ | _ <;> simp [hc] at h
    all_goals exact .inl (by rw [h])
  · simp only [hc] at h
    rcases fuel with _ | ⟨x, fuel⟩
    · simp at h
    · rcases hu : groupsWithin group (first && bs.isEmpty) fuel u with e' | ⟨d', cs⟩
      · simp only [hu] at h
        exact .inr ⟨u, bs, x, fuel, rfl, rfl, hu.trans h⟩
      · simp [hu] at h

theorem untypedTail_eq_ok {values : Parser (List α)} {first : Bool} {as : List α}
    (h : untypedTail first values c = .ok (d, as)) :
    (∃ m, separatedUnless first values c = .error (.mismatch m) ∧ d = c.recovered m) ∨ d = c ∨
      separatedUnless first values c = .ok (d, as) := by
  unfold untypedTail at h
  rcases hc : separatedUnless first values c with e | ⟨u, bs⟩
  · rcases e with m | _ | _
    · simp only [hc, Except.ok.injEq, Prod.mk.injEq] at h
      exact .inl ⟨m, rfl, h.1.symm⟩
    all_goals simp [hc] at h
  · simp only [hc, Except.ok.injEq, Prod.mk.injEq] at h
    obtain ⟨rfl, rfl⟩ := h
    split
    · exact .inr (.inl rfl)
    · exact .inr (.inr rfl)

theorem untypedTail_eq_error {values : Parser (List α)} {first : Bool}
    (h : untypedTail first values c = .error e) : separatedUnless first values c = .error e := by
  unfold untypedTail at h
  rcases hc : separatedUnless first values c with e' | ⟨u, bs⟩
  · rcases e' with m | _ | _ <;> simp [hc] at h
    all_goals rw [h]
  · simp [hc] at h

theorem typedList_eq_ok {default : TypeSpec} {group : Parser (List (Typed α))}
    {values : Parser (List α)} {l : TypedList α} (h : typedList default group values c = .ok (d, l)) :
    ∃ u typed untyped, groupsWithin group true c.rest c = .ok (u, typed) ∧
      untypedTail typed.isEmpty values u = .ok (d, untyped) := by
  unfold typedList at h
  rcases hc : groupsWithin group true c.rest c with e | ⟨u, typed⟩
  · simp [hc] at h
  · rcases hu : untypedTail typed.isEmpty values u with e | ⟨d', untyped⟩
    · simp [hc, hu] at h
    · simp only [hc, hu, Except.ok.injEq, Prod.mk.injEq] at h
      obtain ⟨rfl, -⟩ := h
      exact ⟨u, typed, untyped, rfl, hu⟩

theorem typedList_eq_error {default : TypeSpec} {group : Parser (List (Typed α))}
    {values : Parser (List α)} (h : typedList default group values c = .error e) :
    groupsWithin group true c.rest c = .error e ∨
      ∃ u typed, groupsWithin group true c.rest c = .ok (u, typed) ∧
        untypedTail typed.isEmpty values u = .error e := by
  unfold typedList at h
  rcases hc : groupsWithin group true c.rest c with e' | ⟨u, typed⟩
  · simp only [hc] at h
    exact .inl (by rw [Except.error.inj h])
  · rcases hu : untypedTail typed.isEmpty values u with e' | ⟨d', untyped⟩
    · simp only [hc, hu] at h
      exact .inr ⟨u, typed, rfl, by rw [hu, Except.error.inj h]⟩
    · simp [hc, hu] at h

end Parser

/-! ### Outcomes that can be evaluated -/

/-- The failure of a reading, if it fails. -/
def failure? {α : Type} : Except Failure α → Option Failure
  | .error e => some e
  | .ok _ => none

theorem failure?_eq_some {α : Type} {r : Except Failure α} {e : Failure} :
    failure? r = some e ↔ r = .error e := by
  cases r <;> simp [failure?]

namespace Rule

variable {α : Type} {g : Rule α}

/-- Where the rule ends, if it reads something at the cursor. -/
def endOf? (g : Rule α) (c : Cursor) : Option Nat := (g.parse c).toOption.map fun r => r.1.offset

theorem endOf?_eq_some {c : Cursor} {n : Nat} :
    g.endOf? c = some n ↔ ∃ d a, g.parse c = .ok (d, a) ∧ d.offset = n := by
  unfold endOf?
  rcases g.parse c with e | ⟨d, a⟩ <;> simp [Except.toOption]

/-- A property of what is read can be evaluated. -/
theorem exists_of_parse_any {p : α → Bool} {c : Cursor}
    (h : ((g.parse c).toOption.any fun r => p r.2) = true) :
    ∃ d a, g.parse c = .ok (d, a) ∧ p a = true := by
  rcases hr : g.parse c with e | ⟨d, a⟩
  · simp [hr, Except.toOption] at h
  · exact ⟨d, a, rfl, by simpa [hr, Except.toOption] using h⟩

end Rule

end Pddl
