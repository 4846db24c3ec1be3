import Pddl.Proofs.Progress

/-!
# Parsing agrees with reading

A parser finds at a cursor what its grammar denotes at the view there: neither
the offset nor the remembered mismatch decides what is read.

* `Agrees` : a result of parsing and a finding that belong together.
* `Parser.Realizes` : a parser does at every cursor what a reader does at the view.
* `Grammar.realizes_run` : running a grammar does what it denotes.
* `Rule.parse_agrees` : **parsing at a cursor finds what is read at the view there.**

A remembered mismatch would matter only if it were final and further on (`Cursor.Calm`).  A typed
list is the one construct that recovers from every mismatch, and no group of a typed list holds a
check about requirement flags (`Grammar.Settled`); so no final mismatch is remembered on the way.
-/

namespace Pddl

/-! ### Cursors and views -/

/-- The view at a cursor. -/
def Cursor.view (c : Cursor) : View := ⟨c.previous, c.rest⟩

@[simp] theorem Cursor.view_advance (c : Cursor) (n : Nat) :
    (c.advance n).view = c.view.advance n := by
  cases n <;> rfl

@[simp] theorem Cursor.view_skipBlanks (c : Cursor) : c.skipBlanks.view = c.view.skipBlanks :=
  c.view_advance _

/-- The finding of a failure. -/
def Failure.finding {α : Type} : Failure → Finding α
  | mismatch m => if m.committed then .unknownFlag else .missing
  | tooDeep _ _ => .tooDeep
  | infiniteNumber => .infinite

/-- No final mismatch is remembered from further on. -/
def Cursor.Calm (c : Cursor) : Prop :=
  ∀ m, c.furthest = some m → c.offset < m.offset → m.committed = false

theorem Cursor.calm_ofOffset (text : List Char) (offset depth ceiling : Nat) :
    (Cursor.ofOffset text offset depth ceiling).Calm := fun m hm => by
  simp [Cursor.ofOffset] at hm

/-- The second cursor is a place of the same text at the same depth. -/
structure Cursor.Follows (c d : Cursor) : Prop where
  text : d.text = c.text
  depth : d.depth = c.depth
  ceiling : d.ceiling = c.ceiling
  offset : d.offset + d.rest.length = c.offset + c.rest.length
  calm : d.Calm

/-- The result of parsing at a cursor has the given finding. -/
def Agrees {α : Type} (c : Cursor) (r : Except Failure (Cursor × α)) (o : Finding α) : Prop :=
  match r with
  | .ok (d, a) => c.Follows d ∧ o = .found d.view a
  | .error e => o = e.finding

theorem Agrees.cases {α : Type} {c : Cursor} {r : Except Failure (Cursor × α)} {o : Finding α}
    (h : Agrees c r o) : (∃ e, r = .error e ∧ o = e.finding) ∨
      ∃ d a, r = .ok (d, a) ∧ c.Follows d ∧ o = .found d.view a := by
  rcases r with e | ⟨d, a⟩
  · exact .inl ⟨e, rfl, h⟩
  · exact .inr ⟨d, a, rfl, h⟩

namespace Cursor

theorem Follows.refl {c : Cursor} (h : c.Calm) : c.Follows c := ⟨rfl, rfl, rfl, rfl, h⟩

theorem Follows.trans {c d e : Cursor} (h : c.Follows d) (k : d.Follows e) : c.Follows e :=
  ⟨k.text.trans h.text, k.depth.trans h.depth, k.ceiling.trans h.ceiling,
    k.offset.trans h.offset, k.calm⟩

theorem Follows.levels {c d : Cursor} (h : c.Follows d) :
    d.ceiling - d.depth = c.ceiling - c.depth := by rw [h.ceiling, h.depth]

theorem follows_advance {c : Cursor} (h : c.Calm) {n : Nat} (hn : n ≤ c.rest.length) :
    c.Follows (c.advance n) := by
  cases n with
  | zero => exact .refl h
  | succ n =>
    refine ⟨rfl, rfl, rfl, ?_, fun m hm hlt => h m hm ?_⟩
    · simp only [advance, List.length_drop]
      omega
    · simp only [advance] at hlt
      omega

theorem follows_skipBlanks {c : Cursor} (h : c.Calm) : c.Follows c.skipBlanks :=
  follows_advance h (blankLength_le _ _)

theorem committed_mismatch {c : Cursor} (h : c.Calm) (e : Expectation) :
    (c.mismatch e).committed = false := by
  unfold mismatch
  split
  · split
    · exact h _ ‹_› ‹_›
    · rfl
  · rfl

theorem follows_recovered {c : Cursor} (h : c.Calm) {m : Mismatch} (hm : m.committed = false) :
    c.Follows (c.recovered m) ∧ (c.recovered m).view = c.view := by
  have keep : c.Follows c ∧ c.view = c.view := ⟨.refl h, rfl⟩
  have change : c.Follows { c with furthest := some m } :=
    ⟨rfl, rfl, rfl, rfl, fun _ hk _ => Option.some.inj hk ▸ hm⟩
  unfold recovered
  split
  · exact keep
  · split
    · split
      · exact keep
      · exact ⟨change, rfl⟩
    · exact ⟨change, rfl⟩

theorem separated?_eq (c : Cursor) :
    c.separated? =
      if c.view.separates then .ok c.skipBlanks else .error (c.mismatch .separation) := by
  have hn : ∀ n, (c.advance n).offset = c.offset + n := by
    intro n; cases n <;> rfl
  have hlt : c.offset < c.skipBlanks.offset ↔ 0 < blankLength false c.rest := by
    rw [skipBlanks, hn]
    omega
  have hd : decide (c.offset < c.skipBlanks.offset) = decide (0 < blankLength false c.rest) :=
    decide_eq_decide.2 hlt
  simp only [separated?, View.separates, view, hd]
  rfl

end Cursor

/-! ### Terminals -/

/-- The result of taking a lexeme of known length, or of expecting one. -/
def Cursor.lexeme {α : Type} (c : Cursor) (e : Expectation) :
    Option (Nat × α) → Except Failure (Cursor × α)
  | some (n, a) => .ok (c.advance n, a)
  | none => .error (.mismatch (c.mismatch e))

namespace Terminal

variable {α : Type}

theorem parseSymbol_eq (kind : SymbolKind) :
    ∃ e, ∀ c : Cursor, parseSymbol kind c = c.lexeme e (symbolLexeme? kind c.rest) := by
  refine ⟨.token (if kind.sigil.toList.isEmpty then .name else .var), fun c => ?_⟩
  unfold parseSymbol symbolLexeme?
  simp only
  rcases hp : kind.sigil.toList.isPrefixOf? c.rest with _ | rest
  · rfl
  · simp only [Option.bind_eq_bind, Option.bind_some]
    split
    · rename_i hn
      simp [hn, Cursor.lexeme]
    · rename_i name hn
      simp [hn, Symbol.ofString?, isName_of_nameLexeme? hn, Cursor.lexeme]

/-- A terminal is parsed by taking its lexeme; where there is none, the same is expected
everywhere. -/
theorem parse_eq (t : Terminal α) :
    ∃ e, ∀ c : Cursor, t.parse c = c.lexeme e (t.lexeme? c.view) := by
  cases t with
  | pure a => exact ⟨.alternative, fun _ => rfl⟩
  | refuse e => exact ⟨e, fun _ => rfl⟩
  | blanks => exact ⟨.alternative, fun _ => rfl⟩
  | separator =>
    refine ⟨.separation, fun c => ?_⟩
    simp only [parse, Parser.separated, Cursor.separated?_eq, lexeme?]
    by_cases h : c.view.separates = true
    · simp only [h, ↓reduceIte]; rfl
    · simp only [h, ↓reduceIte, Bool.false_eq_true]; rfl
  | char x =>
    refine ⟨.word (String.singleton x), fun c => ?_⟩
    simp only [parse, Cursor.taken?, lexeme?, Cursor.view]
    by_cases h : c.rest.head? = some x
    · simp only [h, ↓reduceIte]; rfl
    · simp only [h, ↓reduceIte]; rfl
  | word w =>
    refine ⟨.word w, fun c => ?_⟩
    simp only [parse, Parser.take, lexeme?, Cursor.view]
    rcases keywordLength? w c.rest with _ | n <;> rfl
  | oneOf entries => exact ⟨.oneOf (entries.map Prod.fst), fun _ => rfl⟩
  | symbol kind => exact parseSymbol_eq kind
  | flag =>
    refine ⟨.token .keyword, fun c => ?_⟩
    simp only [parse, lexeme?, Cursor.view, flagLexeme?]
    rcases Token.keyword.lexeme? c.rest with _ | cs <;> rfl
  | decimal =>
    refine ⟨.token .number, fun c => ?_⟩
    simp only [parse, lexeme?, Cursor.view, decimalLexeme?]
    rcases decimalParts? c.rest with _ | ⟨whole, places⟩ <;> rfl
  | integer =>
    refine ⟨.integer, fun c => ?_⟩
    simp only [parse, lexeme?, Cursor.view, integerLexeme?]
    rcases c.rest.takeWhile Char.isDigit with _ | ⟨d, ds⟩ <;> rfl

end Terminal

/-! ### Combinators -/

namespace Failure

variable {α β : Type}

@[simp] theorem finding_andThen (e : Failure) (k : View → α → Finding β) :
    (e.finding : Finding α).andThen k = e.finding := by
  cases e with
  | mismatch m => simp only [finding]; split <;> rfl
  | tooDeep => rfl
  | infiniteNumber => rfl

theorem finding_ne_found (e : Failure) {v : View} {a : α} : e.finding ≠ .found v a := by
  cases e with
  | mismatch m => simp only [finding]; split <;> simp
  | tooDeep => simp [finding]
  | infiniteNumber => simp [finding]

theorem exists_eq_tooDeep_of_finding {e : Failure} (h : (e.finding : Finding α) = .tooDeep) :
    ∃ limit offset, e = .tooDeep limit offset := by
  cases e with
  | mismatch m => simp only [finding] at h; split at h <;> simp at h
  | tooDeep limit offset => exact ⟨limit, offset, rfl⟩
  | infiniteNumber => simp [finding] at h

theorem finding_of_recoverable? {e : Failure} {m : Mismatch} (h : e.recoverable? = some m) :
    e = .mismatch m ∧ m.committed = false ∧ (e.finding : Finding α) = .missing := by
  cases e with
  | mismatch m' =>
    simp only [recoverable?] at h
    split at h
    · simp at h
    · obtain rfl := Option.some.inj h
      simp_all [finding]
  | tooDeep => simp [recoverable?] at h
  | infiniteNumber => simp [recoverable?] at h

theorem finding_orElse_of_recoverable? {e : Failure} (h : e.recoverable? = none)
    (o : Finding α) : (e.finding : Finding α).orElse o = e.finding := by
  cases e with
  | mismatch m =>
    simp only [recoverable?] at h
    split at h
    · rename_i hm; simp [finding, hm, Finding.orElse]
    · simp at h
  | tooDeep => rfl
  | infiniteNumber => rfl

theorem finding_complaint {c : Cursor} (h : c.Calm) (e : Complaint) :
    ((e.failure c).finding : Finding α) = .complaint e := by
  cases e with
  | unmet e => simp [Complaint.failure, finding, Cursor.committed_mismatch h, Finding.complaint]
  | unknownRequirement => rfl
  | infiniteNumber => rfl

end Failure

/-- The parser does at a cursor what the reader does at the view, where so many levels may still
be opened. -/
def Parser.Realizes {α : Type} (levels : Nat) (p : Parser α) (r : Reader α) : Prop :=
  ∀ c : Cursor, c.Calm → c.ceiling - c.depth = levels → Agrees c (p c) (r c.view)

/-- The reader meets no unknown requirement flag. -/
def Reader.Flagless {α : Type} (r : Reader α) : Prop := ∀ v, r v ≠ .unknownFlag

namespace Parser

variable {α β : Type} {levels : Nat}

theorem realizes_terminal (t : Terminal α) :
    Realizes levels t.parse fun v => .lexeme v (t.lexeme? v) := by
  intro c hc _
  obtain ⟨e, he⟩ := t.parse_eq
  rw [he]
  rcases ht : t.lexeme? c.view with _ | ⟨n, a⟩
  · simp only [ht]
    simp [Cursor.lexeme, Agrees, Finding.lexeme, Failure.finding, Cursor.committed_mismatch hc]
  · simp only [ht]
    exact ⟨Cursor.follows_advance hc (Terminal.lexeme?_le ht), by simp [Finding.lexeme]⟩

theorem realizes_seq {p : Parser α} {q : Parser β} {r : Reader α} {s : Reader β}
    (hp : Realizes levels p r) (hq : Realizes levels q s) :
    Realizes levels (seq p q) (Reader.seq r s) := by
  intro c hc hl
  unfold seq Reader.seq
  rcases (hp c hc hl).cases with ⟨e, he, hr⟩ | ⟨d, a, he, hd, hr⟩
  · simp [he, hr, Agrees]
  · simp only [he, hr, Finding.andThen]
    rcases (hq d hd.calm (hd.levels.trans hl)).cases with ⟨e, he, hs⟩ | ⟨d', b, he, hd', hs⟩
    · simp only [he, hs]
      exact Failure.finding_andThen ..
    · simp only [he, hs]
      exact ⟨hd.trans hd', rfl⟩

theorem realizes_refine (f : α → Except Complaint β) {p : Parser α} {r : Reader α}
    (hp : Realizes levels p r) : Realizes levels (refine f p) (Reader.refine f r) := by
  intro c hc hl
  unfold refine Reader.refine
  rcases (hp c hc hl).cases with ⟨e, he, hr⟩ | ⟨d, a, he, hd, hr⟩
  · simp [he, hr, Agrees]
  · simp only [he, hr, Finding.andThen]
    rcases f a with e | b
    · exact (Failure.finding_complaint hc e).symm
    · exact ⟨hd, rfl⟩

theorem realizes_orElse {p q : Parser α} {r s : Reader α} (hp : Realizes levels p r)
    (hq : Realizes levels q s) : Realizes levels (orElse p q) (Reader.orElse r s) := by
  intro c hc hl
  unfold orElse Reader.orElse
  rcases (hp c hc hl).cases with ⟨e, he, hr⟩ | ⟨d, a, he, hd, hr⟩
  · rcases hm : e.recoverable? with _ | m
    · simp [he, hr, hm, Failure.finding_orElse_of_recoverable? hm, Agrees]
    · obtain ⟨rfl, hc', ho⟩ := Failure.finding_of_recoverable? (α := α) hm
      simp only [he, hr, hm, ho, Finding.orElse]
      rcases (hq c hc hl).cases with ⟨e', he', hs⟩ | ⟨d, a, he', hd, hs⟩
      · rcases hm' : e'.recoverable? with _ | m'
        · simp [he', hs, hm', Agrees]
        · obtain ⟨rfl, hc'', ho'⟩ := Failure.finding_of_recoverable? (α := α) hm'
          have ht : (if m.offset < m'.offset then m' else m).committed = false := by
            split <;> assumption
          simp [he', hs, hm', Agrees, Failure.finding, ht, hc'']
      · simp only [he', hs]
        exact ⟨hd, rfl⟩
  · simp only [he, hr]
    exact ⟨hd, rfl⟩

theorem realizes_opt {p : Parser α} {r : Reader α} (hp : Realizes levels p r) :
    Realizes levels (opt p) (Reader.opt r) := by
  intro c hc hl
  unfold opt Reader.opt
  rcases (hp c hc hl).cases with ⟨e, he, hr⟩ | ⟨d, a, he, hd, hr⟩
  · rcases hm : e.recoverable? with _ | m
    · simp [he, hr, hm, Failure.finding_orElse_of_recoverable? hm, Agrees]
    · obtain ⟨rfl, hc', ho⟩ := Failure.finding_of_recoverable? (α := α) hm
      obtain ⟨hf, hv⟩ := Cursor.follows_recovered hc hc'
      simp only [he, hr, hm, ho, Finding.andThen, Finding.orElse]
      exact ⟨hf, by rw [hv]⟩
  · simp only [he, hr]
    exact ⟨hd, rfl⟩

theorem realizes_separated {p : Parser α} {r : Reader α} (hp : Realizes levels p r) :
    Realizes levels (separated p) (Reader.separated r) := by
  intro c hc hl
  unfold separated Reader.separated
  rw [Cursor.separated?_eq]
  by_cases h : c.view.separates = true
  · have hs := Cursor.follows_skipBlanks hc
    have h' := hp c.skipBlanks hs.calm (hs.levels.trans hl)
    rw [Cursor.view_skipBlanks] at h'
    simp only [h, ↓reduceIte]
    rcases h'.cases with ⟨e, he, hr⟩ | ⟨d, a, he, hd, hr⟩
    · simp only [he, hr]
      rfl
    · simp only [he, hr]
      exact ⟨hs.trans hd, rfl⟩
  · simp [h, Agrees, Failure.finding, Cursor.committed_mismatch hc]

/-- The first element of a list takes characters exactly if less is left behind it. -/
theorem offset_eq_iff_of_follows {c d : Cursor} (h : c.Follows d) :
    d.offset = c.offset ↔ d.view.rest.length = c.view.rest.length := by
  have := h.offset
  simp only [Cursor.view]
  omega

theorem realizes_moreWithin {p : Parser α} {r : Reader α} (hp : Realizes levels p r)
    (fuel : List Char) : Realizes levels (moreWithin p fuel) (Reader.moreWithin r fuel) := by
  induction fuel with
  | nil =>
    intro c hc hl
    unfold moreWithin Reader.moreWithin Reader.opt
    rcases (realizes_separated hp c hc hl).cases with ⟨e, he, hr⟩ | ⟨d, a, he, hd, hr⟩
    · rcases hm : e.recoverable? with _ | m
      · simp [he, hr, hm, Failure.finding_orElse_of_recoverable? hm, Agrees]
      · obtain ⟨rfl, hc', ho⟩ := Failure.finding_of_recoverable? (α := α) hm
        obtain ⟨hf, hv⟩ := Cursor.follows_recovered hc hc'
        simp only [he, hr, hm, ho, Finding.andThen, Finding.orElse]
        exact ⟨hf, by rw [hv]⟩
    · simp only [he, hr, Finding.andThen, Finding.orElse, ite_self]
      exact ⟨.refl hc, rfl⟩
  | cons x fuel ih =>
    intro c hc hl
    unfold moreWithin Reader.moreWithin Reader.opt
    rcases (realizes_separated hp c hc hl).cases with ⟨e, he, hr⟩ | ⟨d, a, he, hd, hr⟩
    · rcases hm : e.recoverable? with _ | m
      · simp [he, hr, hm, Failure.finding_orElse_of_recoverable? hm, Agrees]
      · obtain ⟨rfl, hc', ho⟩ := Failure.finding_of_recoverable? (α := α) hm
        obtain ⟨hf, hv⟩ := Cursor.follows_recovered hc hc'
        simp only [he, hr, hm, ho, Finding.andThen, Finding.orElse]
        exact ⟨hf, by rw [hv]⟩
    · simp only [he, hr, Finding.andThen, Finding.orElse, offset_eq_iff_of_follows hd]
      split
      · exact ⟨.refl hc, rfl⟩
      · rcases (ih d hd.calm (hd.levels.trans hl)).cases with ⟨e, he, hs⟩ | ⟨d', as, he, hd', hs⟩
        · simp only [he, hs]
          exact Failure.finding_andThen ..
        · simp only [he, hs]
          exact ⟨hd.trans hd', rfl⟩

theorem realizes_emptyOr {p : Parser α} {r : Reader α} (hp : Realizes levels p r) :
    Realizes levels (emptyOr p) (Reader.emptyOr r) := by
  intro c hc hl
  unfold emptyOr Reader.emptyOr
  rw [show c.view.rest = c.rest from rfl]
  rcases hn : emptyParensLength? c.rest with _ | n
  · rcases (hp c hc hl).cases with ⟨e, he, hr⟩ | ⟨d, a, he, hd, hr⟩
    · simp [he, hr, Agrees]
    · simp only [he, hr]
      exact ⟨hd, rfl⟩
  · exact ⟨Cursor.follows_advance hc (emptyParensLength?_le hn), by simp⟩

theorem realizes_separatedUnless {p : Parser α} {r : Reader α} (hp : Realizes levels p r)
    (first : Bool) :
    Realizes levels (separatedUnless first p) (Reader.separatedUnless first r) := by
  cases first with
  | false => exact realizes_separated hp
  | true => exact hp

/-- Where no requirement flag can be unknown, every mismatch is one to recover from. -/
theorem committed_of_flagless {e : Failure} {m : Mismatch} {o : Finding α} (h : o ≠ .unknownFlag)
    (ho : o = e.finding) (he : e = .mismatch m) : m.committed = false := by
  subst he ho
  simp only [Failure.finding] at h
  split at h
  · simp at h
  · rename_i hm; simpa using hm

theorem flagless_separatedUnless {r : Reader α} (h : r.Flagless) (first : Bool) :
    (Reader.separatedUnless first r).Flagless := by
  intro v
  cases first with
  | false =>
    simp only [Reader.separatedUnless, Reader.separated, Bool.false_eq_true, ↓reduceIte]
    split
    · exact h _
    · simp
  | true => exact h v

/-- An optional part, where a mismatch that is final could not be told from another one. -/
theorem agrees_opt_of_flagless {p : Parser α} {r : Reader α} (hp : Realizes levels p r)
    (hr : r.Flagless) {c : Cursor} (hc : c.Calm) (hl : c.ceiling - c.depth = levels) :
    (∃ m, p c = .error (.mismatch m) ∧ c.Follows (c.recovered m) ∧
        (c.recovered m).view = c.view ∧ Reader.opt r c.view = .found c.view none) ∨
      (∃ e, p c = .error e ∧ (∀ m, e ≠ .mismatch m) ∧ Reader.opt r c.view = e.finding) ∨
      ∃ d a, p c = .ok (d, a) ∧ c.Follows d ∧ Reader.opt r c.view = .found d.view (some a) := by
  unfold Reader.opt
  rcases (hp c hc hl).cases with ⟨e, he, ho⟩ | ⟨d, a, he, hd, ho⟩
  · rcases e with m | ⟨ceiling, offset⟩ | _
    · have hm := committed_of_flagless (hr c.view) ho rfl
      obtain ⟨hf, hv⟩ := Cursor.follows_recovered hc hm
      refine .inl ⟨m, he, hf, hv, ?_⟩
      simp [ho, Failure.finding, hm, Finding.andThen, Finding.orElse]
    · exact .inr (.inl ⟨_, he, by simp, by rw [ho]; rfl⟩)
    · exact .inr (.inl ⟨_, he, by simp, by rw [ho]; rfl⟩)
  · exact .inr (.inr ⟨d, a, he, hd, by rw [ho]; rfl⟩)

theorem realizes_groupsWithin {p : Parser (List α)} {r : Reader (List α)}
    (hp : Realizes levels p r) (hr : r.Flagless) (fuel : List Char) (first : Bool) :
    Realizes levels (groupsWithin p first fuel) (Reader.groupsWithin r first fuel) := by
  induction fuel generalizing first with
  | nil =>
    intro c hc hl
    unfold groupsWithin Reader.groupsWithin
    rcases agrees_opt_of_flagless (realizes_separatedUnless hp first)
      (flagless_separatedUnless hr first) hc hl with
      ⟨m, he, hf, hv, ho⟩ | ⟨e, he, hne, ho⟩ | ⟨d, a, he, hd, ho⟩
    · simp only [he, ho, Finding.andThen]
      exact ⟨hf, by rw [hv]; rfl⟩
    · simp only [he, ho, Failure.finding_andThen]
      rcases e with m | _ | _
      · exact absurd rfl (hne m)
      · rfl
      · rfl
    · simp only [he, ho, Finding.andThen]
      exact ⟨hd, rfl⟩
  | cons x fuel ih =>
    intro c hc hl
    unfold groupsWithin Reader.groupsWithin
    rcases agrees_opt_of_flagless (realizes_separatedUnless hp first)
      (flagless_separatedUnless hr first) hc hl with
      ⟨m, he, hf, hv, ho⟩ | ⟨e, he, hne, ho⟩ | ⟨d, a, he, hd, ho⟩
    · simp only [he, ho, Finding.andThen]
      exact ⟨hf, by rw [hv]⟩
    · simp only [he, ho, Failure.finding_andThen]
      rcases e with m | _ | _
      · exact absurd rfl (hne m)
      · rfl
      · rfl
    · simp only [he, ho, Finding.andThen]
      rcases (ih (first && a.isEmpty) d hd.calm (hd.levels.trans hl)).cases with
        ⟨e, he, hs⟩ | ⟨d', as, he, hd', hs⟩
      · simp only [he, hs]
        exact Failure.finding_andThen ..
      · simp only [he, hs]
        exact ⟨hd.trans hd', rfl⟩

theorem realizes_untypedTail {p : Parser (List α)} {r : Reader (List α)}
    (hp : Realizes levels p r) (hr : r.Flagless) (first : Bool) :
    Realizes levels (untypedTail first p) (Reader.untypedTail first r) := by
  intro c hc hl
  unfold untypedTail Reader.untypedTail
  rcases agrees_opt_of_flagless (realizes_separatedUnless hp first)
    (flagless_separatedUnless hr first) hc hl with
    ⟨m, he, hf, hv, ho⟩ | ⟨e, he, hne, ho⟩ | ⟨d, a, he, hd, ho⟩
  · simp only [he, ho, Finding.andThen]
    exact ⟨hf, by rw [hv]⟩
  · simp only [he, ho, Failure.finding_andThen]
    rcases e with m | _ | _
    · exact absurd rfl (hne m)
    · rfl
    · rfl
  · simp only [he, ho, Finding.andThen]
    split
    · exact ⟨.refl hc, by simp⟩
    · exact ⟨hd, by simp⟩

theorem realizes_typedList (default : TypeSpec) {p : Parser (List (Typed α))}
    {q : Parser (List α)} {r : Reader (List (Typed α))} {s : Reader (List α)}
    (hp : Realizes levels p r) (hr : r.Flagless) (hq : Realizes levels q s) (hs : s.Flagless) :
    Realizes levels (typedList default p q) (Reader.typedList default r s) := by
  intro c hc hl
  unfold typedList Reader.typedList
  rw [show c.view.rest = c.rest from rfl]
  rcases (realizes_groupsWithin hp hr c.rest true c hc hl).cases with
    ⟨e, he, ho⟩ | ⟨d, typed, he, hd, ho⟩
  · simp only [he, ho]
    exact Failure.finding_andThen ..
  · simp only [he, ho, Finding.andThen]
    rcases (realizes_untypedTail hq hs typed.isEmpty d hd.calm (hd.levels.trans hl)).cases with
      ⟨e, he, ho⟩ | ⟨d', untyped, he, hd', ho⟩
    · simp only [he, ho]
      exact Failure.finding_andThen ..
    · simp only [he, ho]
      exact ⟨hd.trans hd', rfl⟩

theorem realizes_nested {p : Parser α} {r : Reader α} (hp : Realizes levels p r) :
    Realizes (levels + 1) (nested p) r := by
  intro c hc hl
  have hlt : c.depth < c.ceiling := by omega
  have hd : (c.withDepth (c.depth + 1)).Calm := hc
  unfold nested Cursor.deeper?
  simp only [hlt, ↓reduceIte]
  rcases (hp (c.withDepth (c.depth + 1)) hd (by
      simp only [Cursor.withDepth]; omega)).cases with ⟨e, he, ho⟩ | ⟨d, a, he, hf, ho⟩
  · simp only [he]
    exact ho
  · simp only [he]
    exact ⟨⟨hf.text, rfl, hf.ceiling, hf.offset, hf.calm⟩, ho⟩

theorem realizes_nested_zero (p : Parser α) : Realizes 0 (nested p) fun _ => .tooDeep := by
  intro c hc hl
  have hlt : ¬c.depth < c.ceiling := by omega
  unfold nested Cursor.deeper?
  simp only [hlt, ↓reduceIte]
  rfl

end Parser

/-! ### Grammars -/

namespace Finding

variable {α β : Type}

theorem andThen_ne_unknownFlag {o : Finding α} {k : View → α → Finding β} (ho : o ≠ .unknownFlag)
    (hk : ∀ v a, k v a ≠ .unknownFlag) : o.andThen k ≠ .unknownFlag := by
  cases o with
  | found v a => exact hk v a
  | unknownFlag => exact absurd rfl ho
  | _ => simp [andThen]

theorem orElse_ne_unknownFlag {o o' : Finding α} (ho : o ≠ .unknownFlag)
    (ho' : o' ≠ .unknownFlag) : o.orElse o' ≠ .unknownFlag := by
  cases o with
  | missing => exact ho'
  | unknownFlag => exact absurd rfl ho
  | _ => simp [orElse]

end Finding

namespace Reader

variable {α β : Type}

theorem flagless_opt {r : Reader α} (h : r.Flagless) : (opt r).Flagless := fun v =>
  Finding.orElse_ne_unknownFlag (Finding.andThen_ne_unknownFlag (h v) (by simp)) (by simp)

theorem flagless_moreWithin {r : Reader α} (h : r.Flagless) (fuel : List Char) :
    (moreWithin r fuel).Flagless := by
  have ho := flagless_opt (Parser.flagless_separatedUnless h false)
  induction fuel with
  | nil => exact fun v => Finding.andThen_ne_unknownFlag (ho v) (by simp)
  | cons x fuel ih =>
    intro v
    refine Finding.andThen_ne_unknownFlag (ho v) fun w a? => ?_
    rcases a? with _ | a
    · simp
    · simp only
      split
      · simp
      · exact Finding.andThen_ne_unknownFlag (ih w) (by simp)

theorem flagless_groupsWithin {r : Reader (List α)} (h : r.Flagless) (fuel : List Char)
    (first : Bool) : (groupsWithin r first fuel).Flagless := by
  have ho := fun first => flagless_opt (Parser.flagless_separatedUnless h first)
  induction fuel generalizing first with
  | nil => exact fun v => Finding.andThen_ne_unknownFlag (ho first v) (by simp)
  | cons x fuel ih =>
    intro v
    refine Finding.andThen_ne_unknownFlag (ho first v) fun w as? => ?_
    rcases as? with _ | as
    · simp
    · exact Finding.andThen_ne_unknownFlag (ih _ w) (by simp)

theorem flagless_untypedTail {r : Reader (List α)} (h : r.Flagless) (first : Bool) :
    (untypedTail first r).Flagless := by
  intro v
  refine Finding.andThen_ne_unknownFlag
    (flagless_opt (Parser.flagless_separatedUnless h first) v) fun w as? => ?_
  rcases as? with _ | as <;> simp

theorem flagless_typedList (default : TypeSpec) {r : Reader (List (Typed α))}
    {s : Reader (List α)} (hr : r.Flagless) (hs : s.Flagless) :
    (typedList default r s).Flagless := fun v =>
  Finding.andThen_ne_unknownFlag (flagless_groupsWithin hr _ _ v) fun _ _ =>
    Finding.andThen_ne_unknownFlag (flagless_untypedTail hs _ _) (by simp)

end Reader

namespace Grammar

variable {N : Type → Type} {α : Type}

/-- No check of the grammar is about requirement flags. -/
def FlagFree {α : Type} : Grammar N α → Prop
  | terminal _ => True
  | call _ => True
  | seq g h => g.FlagFree ∧ h.FlagFree
  | refine f g => (∀ a, f a ≠ .error .unknownRequirement) ∧ g.FlagFree
  | orElse g h => g.FlagFree ∧ h.FlagFree
  | opt g => g.FlagFree
  | more g => g.FlagFree
  | emptyOr g => g.FlagFree
  | typedList _ group values => group.FlagFree ∧ values.FlagFree

/-- No group of a typed list holds a check about requirement flags. -/
def Settled {α : Type} : Grammar N α → Prop
  | terminal _ => True
  | call _ => True
  | seq g h => g.Settled ∧ h.Settled
  | refine _ g => g.Settled
  | orElse g h => g.Settled ∧ h.Settled
  | opt g => g.Settled
  | more g => g.Settled
  | emptyOr g => g.Settled
  | typedList _ group values =>
    (group.FlagFree ∧ group.Settled) ∧ values.FlagFree ∧ values.Settled

theorem flagless_denote {read : {α : Type} → N α → Reader α}
    (hn : ∀ {α : Type} (n : N α), (read n).Flagless) (g : Grammar N α) (hg : g.FlagFree) :
    (g.denote read).Flagless := by
  induction g with
  | terminal t =>
    intro v
    simp only [denote]
    rcases t.lexeme? v with _ | ⟨n, a⟩ <;> simp [Finding.lexeme]
  | call n => exact hn n
  | seq g h ihg ihh =>
    exact fun v => Finding.andThen_ne_unknownFlag (ihg hg.1 v) fun w a =>
      Finding.andThen_ne_unknownFlag (ihh hg.2 w) (by simp)
  | refine f g ih =>
    refine fun v => Finding.andThen_ne_unknownFlag (ih hg.2 v) fun w a => ?_
    have hf := hg.1 a
    rcases hfa : f a with e | b
    · cases e <;> simp_all [Finding.complaint]
    · simp
  | orElse g h ihg ihh => exact fun v => Finding.orElse_ne_unknownFlag (ihg hg.1 v) (ihh hg.2 v)
  | opt g ih => exact Reader.flagless_opt (ih hg)
  | more g ih => exact fun v => Reader.flagless_moreWithin (ih hg) _ v
  | emptyOr g ih =>
    intro v
    simp only [denote, Reader.emptyOr]
    rcases emptyParensLength? v.rest with _ | n
    · exact Finding.andThen_ne_unknownFlag (ih hg v) (by simp)
    · simp
  | typedList default group values ihg ihv =>
    exact Reader.flagless_typedList default (ihg hg.1) (ihv hg.2)

/-- Running a grammar does what the grammar denotes. -/
theorem realizes_run {levels : Nat} {parse : {α : Type} → N α → Parser α}
    {read : {α : Type} → N α → Reader α}
    (hr : ∀ {α : Type} (n : N α), Parser.Realizes levels (Parser.nested (parse n)) (read n))
    (hf : ∀ {α : Type} (n : N α), (read n).Flagless) (g : Grammar N α) (hg : g.Settled) :
    Parser.Realizes levels (g.run parse) (g.denote read) := by
  induction g with
  | terminal t => exact Parser.realizes_terminal t
  | call n => exact hr n
  | seq g h ihg ihh => exact Parser.realizes_seq (ihg hg.1) (ihh hg.2)
  | refine f g ih => exact Parser.realizes_refine f (ih hg)
  | orElse g h ihg ihh => exact Parser.realizes_orElse (ihg hg.1) (ihh hg.2)
  | opt g ih => exact Parser.realizes_opt (ih hg)
  | more g ih => exact fun c => Parser.realizes_moreWithin (ih hg) c.rest c
  | emptyOr g ih => exact Parser.realizes_emptyOr (ih hg)
  | typedList default group values ihg ihv =>
    exact Parser.realizes_typedList default (ihg hg.1.2) (flagless_denote hf _ hg.1.1)
      (ihv hg.2.2) (flagless_denote hf _ hg.2.1)

/-! ### Settled forms -/

variable {β : Type}

@[simp] theorem flagFree_terminal (t : Terminal α) : (terminal t : Grammar N α).FlagFree := trivial

@[simp] theorem flagFree_call (n : N α) : (call n : Grammar N α).FlagFree := trivial

@[simp] theorem flagFree_seq {g : Grammar N α} {h : Grammar N β} :
    (seq g h).FlagFree ↔ g.FlagFree ∧ h.FlagFree := Iff.rfl

@[simp] theorem flagFree_refine {f : α → Except Complaint β} {g : Grammar N α} :
    (refine f g).FlagFree ↔ (∀ a, f a ≠ .error .unknownRequirement) ∧ g.FlagFree := Iff.rfl

@[simp] theorem flagFree_orElse {g h : Grammar N α} :
    (orElse g h).FlagFree ↔ g.FlagFree ∧ h.FlagFree := Iff.rfl

@[simp] theorem flagFree_opt {g : Grammar N α} : (opt g).FlagFree ↔ g.FlagFree := Iff.rfl

@[simp] theorem flagFree_more {g : Grammar N α} : (more g).FlagFree ↔ g.FlagFree := Iff.rfl

@[simp] theorem flagFree_emptyOr {g : Grammar N α} : (emptyOr g).FlagFree ↔ g.FlagFree := Iff.rfl

@[simp] theorem flagFree_typedList {default : TypeSpec} {group : Grammar N (List (Typed α))}
    {values : Grammar N (List α)} :
    (typedList default group values).FlagFree ↔ group.FlagFree ∧ values.FlagFree := Iff.rfl

@[simp] theorem settled_terminal (t : Terminal α) : (terminal t : Grammar N α).Settled := trivial

@[simp] theorem settled_seq {g : Grammar N α} {h : Grammar N β} :
    (seq g h).Settled ↔ g.Settled ∧ h.Settled := Iff.rfl

@[simp] theorem settled_refine {f : α → Except Complaint β} {g : Grammar N α} :
    (refine f g).Settled ↔ g.Settled := Iff.rfl

@[simp] theorem settled_opt {g : Grammar N α} : (opt g).Settled ↔ g.Settled := Iff.rfl

@[simp] theorem settled_more {g : Grammar N α} : (more g).Settled ↔ g.Settled := Iff.rfl

@[simp] theorem flagFree_map {f : α → β} {g : Grammar N α} :
    (f <$> g).FlagFree ↔ g.FlagFree := by
  simp [Functor.map]

@[simp] theorem flagFree_seqLeft {g : Grammar N α} {h : Grammar N β} :
    (g <* h).FlagFree ↔ g.FlagFree ∧ h.FlagFree := by
  simp [SeqLeft.seqLeft]

@[simp] theorem flagFree_seqRight {g : Grammar N α} {h : Grammar N β} :
    (g *> h).FlagFree ↔ g.FlagFree ∧ h.FlagFree := by
  simp [SeqRight.seqRight]

@[simp] theorem flagFree_or {g h : Grammar N α} :
    (g <|> h).FlagFree ↔ g.FlagFree ∧ h.FlagFree := by
  simp [HOrElse.hOrElse, OrElse.orElse]

@[simp] theorem flagFree_symbol (kind : SymbolKind) :
    (symbol kind : Grammar N (Symbol kind)).FlagFree := trivial

@[simp] theorem flagFree_word (w : String) : (word w : Grammar N Unit).FlagFree := trivial

@[simp] theorem flagFree_blanks : (blanks : Grammar N Unit).FlagFree := trivial

@[simp] theorem flagFree_separator : (separator : Grammar N Unit).FlagFree := trivial

@[simp] theorem flagFree_keyword (α : Type) [Vocabulary α] : (keyword α : Grammar N α).FlagFree :=
  trivial

@[simp] theorem flagFree_number : (number : Grammar N Number).FlagFree := by
  refine ⟨fun d => ?_, trivial⟩
  simp only
  split <;> simp

@[simp] theorem flagFree_padded {g : Grammar N α} : (padded g).FlagFree ↔ g.FlagFree := by
  simp [padded]

@[simp] theorem flagFree_parens {g : Grammar N α} : (parens g).FlagFree ↔ g.FlagFree := by
  simp [parens]

@[simp] theorem flagFree_form {w : String} {g : Grammar N α} :
    (form w g).FlagFree ↔ g.FlagFree := by
  simp [form]

@[simp] theorem flagFree_labelled {w : String} {g : Grammar N α} :
    (labelled w g).FlagFree ↔ g.FlagFree := by
  simp [labelled]

@[simp] theorem flagFree_separated {g : Grammar N α} : (separated g).FlagFree ↔ g.FlagFree := by
  simp [separated]

@[simp] theorem flagFree_pair {g : Grammar N α} {h : Grammar N β} :
    (pair g h).FlagFree ↔ g.FlagFree ∧ h.FlagFree := by
  simp [pair]

@[simp] theorem flagFree_headed {g : Grammar N α} {h : Grammar N β} :
    (headed g h).FlagFree ↔ g.FlagFree ∧ h.FlagFree := by
  simp [headed]

@[simp] theorem flagFree_many1 {g : Grammar N α} : (many1 g).FlagFree ↔ g.FlagFree := by
  simp [many1]

@[simp] theorem flagFree_many {g : Grammar N α} : (many g).FlagFree ↔ g.FlagFree := by
  simp [many]

@[simp] theorem flagFree_optional {g : Grammar N α} : (optional g).FlagFree ↔ g.FlagFree := by
  simp [optional]

@[simp] theorem flagFree_type : (type : Grammar N TypeSpec).FlagFree := by
  simp [type]

@[simp] theorem flagFree_itemsOf {default : TypeSpec} {g : Grammar N α} :
    (itemsOf default g).FlagFree ↔ g.FlagFree := by
  simp [itemsOf, typedGroup]

@[simp] theorem flagFree_items {g : Grammar N α} : (items g).FlagFree ↔ g.FlagFree := by
  simp [items]

@[simp] theorem flagFree_parameters : (parameters : Grammar N (TypedList Variable)).FlagFree := by
  simp [parameters]

@[simp] theorem flagFree_quantified {w : String} {g : Grammar N α} :
    (quantified w g).FlagFree ↔ g.FlagFree := by
  simp [quantified]

theorem settled_of_flagFree {g : Grammar N α} (h : g.FlagFree) : g.Settled := by
  induction g with
  | terminal t => trivial
  | call n => trivial
  | seq g h ihg ihh => exact ⟨ihg h.1, ihh h.2⟩
  | refine f g ih => exact ih h.2
  | orElse g h ihg ihh => exact ⟨ihg h.1, ihh h.2⟩
  | opt g ih => exact ih h
  | more g ih => exact ih h
  | emptyOr g ih => exact ih h
  | typedList default group values ihg ihv => exact ⟨⟨h.1, ihg h.1⟩, h.2, ihv h.2⟩

@[simp] theorem settled_map {f : α → β} {g : Grammar N α} : (f <$> g).Settled ↔ g.Settled := by
  simp [Functor.map]

@[simp] theorem settled_seqLeft {g : Grammar N α} {h : Grammar N β} :
    (g <* h).Settled ↔ g.Settled ∧ h.Settled := by
  simp [SeqLeft.seqLeft]

@[simp] theorem settled_seqRight {g : Grammar N α} {h : Grammar N β} :
    (g *> h).Settled ↔ g.Settled ∧ h.Settled := by
  simp [SeqRight.seqRight]

@[simp] theorem settled_symbol (kind : SymbolKind) :
    (symbol kind : Grammar N (Symbol kind)).Settled := trivial

@[simp] theorem settled_padded {g : Grammar N α} : (padded g).Settled ↔ g.Settled := by
  simp [padded, blanks]

@[simp] theorem settled_form {w : String} {g : Grammar N α} : (form w g).Settled ↔ g.Settled := by
  simp [form, parens, blanks, word]

@[simp] theorem settled_separated {g : Grammar N α} : (separated g).Settled ↔ g.Settled := by
  simp [separated, separator]

@[simp] theorem settled_pair {g : Grammar N α} {h : Grammar N β} :
    (pair g h).Settled ↔ g.Settled ∧ h.Settled := by
  simp [pair]

@[simp] theorem settled_many1 {g : Grammar N α} : (many1 g).Settled ↔ g.Settled := by
  simp [many1]

@[simp] theorem settled_optional {g : Grammar N α} : (optional g).Settled ↔ g.Settled := by
  simp [optional]

end Grammar

namespace Rule

variable {τ : Type}

@[simp] theorem flagFree_term : Grammar.FlagFree term := trivial

@[simp] theorem flagFree_expression : Grammar.FlagFree expression := trivial

@[simp] theorem flagFree_goal : Grammar.FlagFree goal := trivial

@[simp] theorem flagFree_functionTerm : Grammar.FlagFree functionTerm := by
  simp [functionTerm]

@[simp] theorem flagFree_atomicFormulaOf {g : Rule τ} :
    (atomicFormulaOf g).FlagFree ↔ g.FlagFree := by
  simp [atomicFormulaOf]

@[simp] theorem flagFree_literalOf {g : Rule τ} : (literalOf g).FlagFree ↔ g.FlagFree := by
  simp [literalOf]

@[simp] theorem flagFree_arithmetic {ρ : Type} {g : Rule (Expression ρ)} :
    (arithmetic g).FlagFree ↔ g.FlagFree := by
  refine ⟨fun h => ?_, fun h => ⟨?_, ?_⟩⟩
  · simpa using h.2
  · intro ⟨op, e, es⟩
    unfold Expression.ofOperands
    split <;> simp
    split <;> simp
  · simpa using h

@[simp] theorem flagFree_fluent : Grammar.FlagFree fluent := by
  simp [fluent]

@[simp] theorem flagFree_primitiveEffect : Grammar.FlagFree primitiveEffect := by
  simp [primitiveEffect, atomicFormula]

@[simp] theorem flagFree_consequent : Grammar.FlagFree consequent := by
  simp [consequent]

@[simp] theorem flagFree_timedEffect : Grammar.FlagFree timedEffect := by
  simp [timedEffect, durativeAssignment, durativeExpression, rate, elapsed]

theorem flagFree_production {α : Type} (n : Nonterminal α) : n.production.FlagFree := by
  cases n with
  | term => simp [Nonterminal.production, termForms]
  | expression => simp [Nonterminal.production, expressionForms]
  | durativeExpression =>
    simp [Nonterminal.production, durativeExpressionForms, durativeExpression]
  | metricExpression => simp [Nonterminal.production, metricExpressionForms, metricExpression]
  | goal => simp [Nonterminal.production, goalForms, atomicFormula, literal, comparison]
  | preconditions =>
    simp [Nonterminal.production, preconditionsForms, preconditions, preferredGoal]
  | condition =>
    simp [Nonterminal.production, conditionForms, condition, preferredTimedGoal, timedGoal]
  | effect => simp [Nonterminal.production, effectForms, effects]
  | effects => simp [Nonterminal.production, effectsForms, effect]
  | durativeEffect =>
    simp [Nonterminal.production, durativeEffectForms, durativeEffect, condition]
  | durationBound => simp [Nonterminal.production, durationBoundForms, durationBound, durationValue]
  | constraint => simp [Nonterminal.production, constraintForms, constraint, operand]
  | operand => simp [Nonterminal.production, operandForms, constraint]
  | preferredConstraint =>
    simp [Nonterminal.production, preferredConstraintForms, preferredConstraint, constraint]

end Rule

namespace Nonterminal

variable {α : Type}

theorem flagless_denote (levels : Nat) (n : Nonterminal α) : (n.denote levels).Flagless := by
  induction levels generalizing α with
  | zero => intro v; simp [Nonterminal.denote]
  | succ levels ih => exact Grammar.flagless_denote (fun n => ih n) _ (Rule.flagFree_production n)

/-- The parser of a nonterminal, one level deeper, does what the nonterminal denotes. -/
theorem realizes_nested_parse (levels : Nat) (n : Nonterminal α) :
    Parser.Realizes levels (Parser.nested (n.parse levels)) (n.denote levels) := by
  induction levels generalizing α with
  | zero => exact Parser.realizes_nested_zero _
  | succ levels ih =>
    exact Parser.realizes_nested (Grammar.realizes_run (fun n => ih n)
      (fun n => n.flagless_denote levels) _ (Grammar.settled_of_flagFree (Rule.flagFree_production n)))

end Nonterminal

namespace Rule

variable {α : Type}

/-- **Parsing at a cursor finds what is read at the view there.** -/
theorem parse_agrees {g : Rule α} (hg : g.Settled) {c : Cursor} (hc : c.Calm) :
    Agrees c (g.parse c) (g.look (c.ceiling - c.depth) c.view) :=
  Grammar.realizes_run (fun n => n.realizes_nested_parse _) (fun n => n.flagless_denote _) g hg
    c hc rfl

/-- What is parsed at a cursor is found at the view there. -/
theorem look_of_parse {g : Rule α} (hg : g.Settled) {c : Cursor} (hc : c.Calm) {d : Cursor} {a : α}
    (h : g.parse c = .ok (d, a)) :
    c.Follows d ∧ g.look (c.ceiling - c.depth) c.view = .found d.view a := by
  have hagree := parse_agrees hg hc
  rw [h] at hagree
  exact hagree

/-- What is found at the view of a cursor is parsed there. -/
theorem parse_of_look {g : Rule α} (hg : g.Settled) {c : Cursor} (hc : c.Calm) {w : View} {a : α}
    (h : g.look (c.ceiling - c.depth) c.view = .found w a) :
    ∃ d, g.parse c = .ok (d, a) ∧ c.Follows d ∧ d.view = w := by
  rcases (parse_agrees hg hc).cases with ⟨e, -, he⟩ | ⟨d, a', hd, hf, ho⟩
  · exact absurd (he.symm.trans h) (Failure.finding_ne_found e)
  · obtain ⟨rfl, rfl⟩ := Finding.found.inj (h.symm.trans ho)
    exact ⟨d, hd, hf, rfl⟩

/-- What is parsed up to an offset is what is found there. -/
theorem parse_eq_ok_iff {g : Rule α} (hg : g.Settled) {c : Cursor} (hc : c.Calm) {a : α} {n : Nat} :
    (∃ d, g.parse c = .ok (d, a) ∧ d.offset = n) ↔
      ∃ w, g.look (c.ceiling - c.depth) c.view = .found w a ∧
        n + w.rest.length = c.offset + c.rest.length := by
  constructor
  · rintro ⟨d, hd, rfl⟩
    obtain ⟨hfollows, hlook⟩ := look_of_parse hg hc hd
    exact ⟨_, hlook, hfollows.offset⟩
  · rintro ⟨w, hw, hn⟩
    obtain ⟨d, hd, hfollows, rfl⟩ := parse_of_look hg hc hw
    have hoff := hfollows.offset
    have hrest : d.view.rest = d.rest := rfl
    exact ⟨d, hd, by rw [hrest] at hn; omega⟩

end Rule

end Pddl
