import Pddl.Proofs.Context
import Pddl.Proofs.Outcome

/-!
# What parsers keep

Whatever a parser reads, it goes on in the same text and at the same depth, and it remembers a
mismatch at least as far on as the one that was remembered before.  Where it fails, it reports a
mismatch that lies no nearer than its place and no nearer than the remembered one.

* `Invariant` : what holds between a cursor and the one behind what is read there, and between a
  cursor and a failure there.
* `Parser.Keeps`, `Rule.keeps_parse` : **every rule keeps every invariant.**
* `Cursor.LeadsTo`, `Cursor.Reaches` : the invariant of places and of what is remembered.
* `Grammar.advances` : the grammar moves on whenever it reads something.
* `Rule.parse_remembers` : **no named rule loses a mismatch that was remembered.**
-/

namespace Pddl

/-! ### Invariants of parsers -/

/-- What parsing keeps.  Each field says that one kind of step keeps it; so all parsers do. -/
structure Invariant where
  /-- What holds between a cursor and the one behind what is read there. -/
  step : Cursor → Cursor → Prop
  /-- What holds between a cursor and a failure to read something there. -/
  fails : Cursor → Failure → Prop
  trans : ∀ {c d e}, step c d → step d e → step c e
  advance : ∀ {c n}, n ≤ c.rest.length → step c (c.advance n)
  recovered : ∀ {c m}, fails c (.mismatch m) → step c (c.recovered m)
  nested : ∀ {c d}, step (c.withDepth (c.depth + 1)) d → step c (d.withDepth c.depth)
  behind : ∀ {c d e}, step c d → fails d e → fails c e
  inside : ∀ {c e}, fails (c.withDepth (c.depth + 1)) e → fails c e
  mismatch : ∀ {c e}, fails c (.mismatch (c.mismatch e))
  complaint : ∀ {c} (e : Complaint), fails c (e.failure c)
  tooDeep : ∀ {c}, fails c (.tooDeep c.ceiling c.offset)

namespace Invariant

theorem refl (I : Invariant) (c : Cursor) : I.step c c := I.advance (n := 0) (Nat.zero_le _)

theorem skipBlanks (I : Invariant) (c : Cursor) : I.step c c.skipBlanks :=
  I.advance (blankLength_le _ _)

end Invariant

/-- The parser keeps the invariant. -/
structure Parser.Keeps (I : Invariant) {α : Type} (p : Parser α) : Prop where
  found : ∀ {c d a}, p c = .ok (d, a) → I.step c d
  failed : ∀ {c e}, p c = .error e → I.fails c e

namespace Parser

variable {I : Invariant} {α β : Type} {p : Parser α} {q : Parser β}

theorem keeps_terminal (t : Terminal α) : Keeps I t.parse where
  found h := by
    obtain ⟨n, hn, rfl⟩ := terminal_eq_ok.1 h
    exact I.advance (Terminal.lexeme?_le hn)
  failed h := by
    obtain ⟨x, rfl⟩ := terminal_eq_error h
    exact I.mismatch

theorem keeps_seq (hp : Keeps I p) (hq : Keeps I q) : Keeps I (seq p q) where
  found h := by
    obtain ⟨u, hu, hd⟩ := seq_eq_ok.1 h
    exact I.trans (hp.found hu) (hq.found hd)
  failed h := by
    obtain h | ⟨u, a, hu, h⟩ := seq_eq_error.1 h
    · exact hp.failed h
    · exact I.behind (hp.found hu) (hq.failed h)

theorem keeps_refine (f : α → Except Complaint β) (hp : Keeps I p) : Keeps I (refine f p) where
  found h := by
    obtain ⟨a, ha, -⟩ := refine_eq_ok.1 h
    exact hp.found ha
  failed h := by
    obtain h | ⟨u, a, x, -, -, rfl⟩ := refine_eq_error.1 h
    · exact hp.failed h
    · exact I.complaint x

theorem keeps_orElse {q : Parser α} (hp : Keeps I p) (hq : Keeps I q) : Keeps I (orElse p q) where
  found h := by
    obtain h | ⟨m, -, -, h⟩ := orElse_eq_ok.1 h
    · exact hp.found h
    · exact hq.found h
  failed h := (orElse_eq_error h).elim hp.failed hq.failed

theorem keeps_opt (hp : Keeps I p) : Keeps I (opt p) where
  found h := by
    obtain ⟨a, ha, -⟩ | ⟨m, hm, -, rfl, -⟩ := opt_eq_ok.1 h
    · exact hp.found ha
    · exact I.recovered (hp.failed hm)
  failed h := hp.failed (opt_eq_error h)

theorem keeps_separated (hp : Keeps I p) : Keeps I (separated p) where
  found h := I.trans (I.skipBlanks _) (hp.found (separated_eq_ok.1 h).2)
  failed h := by
    obtain h | rfl := separated_eq_error h
    · exact I.behind (I.skipBlanks _) (hp.failed h)
    · exact I.mismatch

theorem keeps_separatedUnless (hp : Keeps I p) (first : Bool) :
    Keeps I (separatedUnless first p) := by
  cases first with
  | false => exact keeps_separated hp
  | true => exact hp

theorem keeps_moreWithin (hp : Keeps I p) (fuel : List Char) : Keeps I (moreWithin p fuel) := by
  have hs := keeps_separated hp
  induction fuel with
  | nil =>
    constructor
    · intro c d as h
      obtain ⟨m, hm, rfl⟩ | rfl | ⟨u, a, x, fuel, as', hf, -⟩ := moreWithin_eq_ok h
      · exact I.recovered (hs.failed hm)
      · exact I.refl d
      · simp at hf
    · intro c e h
      obtain h | ⟨u, a, x, fuel, hf, -⟩ := moreWithin_eq_error h
      · exact hs.failed h
      · simp at hf
  | cons x fuel ih =>
    constructor
    · intro c d as h
      obtain ⟨m, hm, rfl⟩ | rfl | ⟨u, a, x', fuel', as', hf, ha, h⟩ := moreWithin_eq_ok h
      · exact I.recovered (hs.failed hm)
      · exact I.refl d
      · obtain ⟨rfl, rfl⟩ := List.cons.inj hf
        exact I.trans (hs.found ha) (ih.found h)
    · intro c e h
      obtain h | ⟨u, a, x', fuel', hf, ha, h⟩ := moreWithin_eq_error h
      · exact hs.failed h
      · obtain ⟨rfl, rfl⟩ := List.cons.inj hf
        exact I.behind (hs.found ha) (ih.failed h)

theorem keeps_more (hp : Keeps I p) : Keeps I (more p) where
  found h := (keeps_moreWithin hp _).found h
  failed h := (keeps_moreWithin hp _).failed h

theorem keeps_emptyOr (hp : Keeps I p) : Keeps I (emptyOr p) where
  found h := by
    obtain ⟨n, hn, rfl, -⟩ | ⟨-, a, ha, -⟩ := emptyOr_eq_ok.1 h
    · exact I.advance (emptyParensLength?_le hn)
    · exact hp.found ha
  failed h := hp.failed (emptyOr_eq_error h)

theorem keeps_groupsWithin {p : Parser (List α)} (hp : Keeps I p) (first : Bool)
    (fuel : List Char) : Keeps I (groupsWithin p first fuel) := by
  have hs := keeps_separatedUnless hp
  induction fuel generalizing first with
  | nil =>
    constructor
    · intro c d as h
      obtain ⟨m, hm, rfl⟩ | ⟨bs, hbs⟩ | ⟨u, bs, x, fuel, as', hf, -⟩ := groupsWithin_eq_ok h
      · exact I.recovered ((hs first).failed hm)
      · exact (hs first).found hbs
      · simp at hf
    · intro c e h
      obtain h | ⟨u, bs, x, fuel, hf, -⟩ := groupsWithin_eq_error h
      · exact (hs first).failed h
      · simp at hf
  | cons x fuel ih =>
    constructor
    · intro c d as h
      obtain ⟨m, hm, rfl⟩ | ⟨bs, hbs⟩ | ⟨u, bs, x', fuel', as', hf, hbs, h⟩ := groupsWithin_eq_ok h
      · exact I.recovered ((hs first).failed hm)
      · exact (hs first).found hbs
      · obtain ⟨rfl, rfl⟩ := List.cons.inj hf
        exact I.trans ((hs first).found hbs) ((ih _).found h)
    · intro c e h
      obtain h | ⟨u, bs, x', fuel', hf, hbs, h⟩ := groupsWithin_eq_error h
      · exact (hs first).failed h
      · obtain ⟨rfl, rfl⟩ := List.cons.inj hf
        exact I.behind ((hs first).found hbs) ((ih _).failed h)

theorem keeps_untypedTail {p : Parser (List α)} (hp : Keeps I p) (first : Bool) :
    Keeps I (untypedTail first p) where
  found h := by
    obtain ⟨m, hm, rfl⟩ | rfl | h := untypedTail_eq_ok h
    · exact I.recovered ((keeps_separatedUnless hp first).failed hm)
    · exact I.refl _
    · exact (keeps_separatedUnless hp first).found h
  failed h := (keeps_separatedUnless hp first).failed (untypedTail_eq_error h)

theorem keeps_typedList (default : TypeSpec) {p : Parser (List (Typed α))} {q : Parser (List α)}
    (hp : Keeps I p) (hq : Keeps I q) : Keeps I (typedList default p q) where
  found h := by
    obtain ⟨u, typed, untyped, hu, hd⟩ := typedList_eq_ok h
    exact I.trans ((keeps_groupsWithin hp _ _).found hu) ((keeps_untypedTail hq _).found hd)
  failed h := by
    obtain h | ⟨u, typed, hu, h⟩ := typedList_eq_error h
    · exact (keeps_groupsWithin hp _ _).failed h
    · exact I.behind ((keeps_groupsWithin hp _ _).found hu) ((keeps_untypedTail hq _).failed h)

theorem keeps_nested (hp : Keeps I p) : Keeps I (nested p) where
  found h := by
    obtain ⟨u, hu, rfl⟩ := nested_eq_ok h
    exact I.nested (hp.found hu)
  failed h := by
    obtain h | rfl := nested_eq_error h
    · exact I.inside (hp.failed h)
    · exact I.tooDeep

end Parser

/-- Running a grammar keeps what its nonterminals keep. -/
theorem Grammar.keeps_run {N : Type → Type} {I : Invariant} {parse : {α : Type} → N α → Parser α}
    (hn : ∀ {α : Type} (n : N α), (parse n).Keeps I) {α : Type} (g : Grammar N α) :
    (g.run parse).Keeps I := by
  induction g with
  | terminal t => exact Parser.keeps_terminal t
  | call n => exact Parser.keeps_nested (hn n)
  | seq g h ihg ihh => exact Parser.keeps_seq ihg ihh
  | refine f g ih => exact Parser.keeps_refine f ih
  | orElse g h ihg ihh => exact Parser.keeps_orElse ihg ihh
  | opt g ih => exact Parser.keeps_opt ih
  | more g ih => exact Parser.keeps_more ih
  | emptyOr g ih => exact Parser.keeps_emptyOr ih
  | typedList default group values ihg ihv => exact Parser.keeps_typedList default ihg ihv

theorem Nonterminal.keeps_parse (I : Invariant) (levels : Nat) {α : Type} (n : Nonterminal α) :
    (n.parse levels).Keeps I := by
  induction levels generalizing α with
  | zero => exact ⟨nofun, fun h => Except.error.inj h ▸ I.tooDeep⟩
  | succ levels ih => exact Grammar.keeps_run (fun n => ih n) n.production

/-- **Every rule keeps every invariant.** -/
theorem Rule.keeps_parse (I : Invariant) {α : Type} (g : Rule α) : g.parse.Keeps I where
  found h := (Grammar.keeps_run (fun n => n.keeps_parse I _) g).found h
  failed h := (Grammar.keeps_run (fun n => n.keeps_parse I _) g).failed h

/-! ### Places and what is remembered there -/

namespace Cursor

variable {c d e : Cursor}

/-- The second cursor is a place of the same text, no nearer and at the same depth, and remembers a
mismatch no nearer than the one that the first remembers. -/
structure LeadsTo (c d : Cursor) : Prop where
  text : d.text = c.text
  depth : d.depth = c.depth
  ceiling : d.ceiling = c.ceiling
  offset_le : c.offset ≤ d.offset
  offset_le_length : c.offset ≤ c.text.length → d.offset ≤ c.text.length
  furthest : ∀ m, c.furthest = some m → ∃ m', d.furthest = some m' ∧ m.offset ≤ m'.offset

/-- The offset lies neither before the place nor before what is remembered there. -/
def Reaches (c : Cursor) (offset : Nat) : Prop :=
  c.offset ≤ offset ∧ ∀ m, c.furthest = some m → m.offset ≤ offset

theorem LeadsTo.refl (c : Cursor) : c.LeadsTo c :=
  ⟨rfl, rfl, rfl, Nat.le_refl _, id, fun m hm => ⟨m, hm, Nat.le_refl _⟩⟩

theorem LeadsTo.trans (h : c.LeadsTo d) (k : d.LeadsTo e) : c.LeadsTo e where
  text := k.text.trans h.text
  depth := k.depth.trans h.depth
  ceiling := k.ceiling.trans h.ceiling
  offset_le := h.offset_le.trans k.offset_le
  offset_le_length hc := h.text ▸ k.offset_le_length (h.text ▸ h.offset_le_length hc)
  furthest m hm := by
    obtain ⟨m', hm', hle⟩ := h.furthest m hm
    obtain ⟨m'', hm'', hle'⟩ := k.furthest m' hm'
    exact ⟨m'', hm'', hle.trans hle'⟩

theorem LeadsTo.reaches (h : c.LeadsTo d) {offset : Nat} (hd : d.Reaches offset) :
    c.Reaches offset := by
  refine ⟨h.offset_le.trans hd.1, fun m hm => ?_⟩
  obtain ⟨m', hm', hle⟩ := h.furthest m hm
  exact hle.trans (hd.2 m' hm')

theorem leadsTo_advance {n : Nat} (hn : n ≤ c.rest.length) : c.LeadsTo (c.advance n) := by
  cases n with
  | zero => exact .refl c
  | succ n =>
    refine ⟨rfl, rfl, rfl, Nat.le_add_right _ _, fun _ => ?_, fun m hm => ⟨m, hm, Nat.le_refl _⟩⟩
    rw [c.rest_eq, List.length_drop] at hn
    simp only [advance]
    omega

theorem leadsTo_recovered (c : Cursor) (m : Mismatch) : c.LeadsTo (c.recovered m) := by
  unfold recovered
  split
  · exact .refl c
  · split
    · rename_i known hk
      split
      · exact .refl c
      · -- the new mismatch lies further on than the known one
        refine ⟨rfl, rfl, rfl, Nat.le_refl _, id, fun m' hm' => ⟨m, rfl, ?_⟩⟩
        obtain rfl : known = m' := Option.some.inj (hk.symm.trans hm')
        omega
    · rename_i hn
      exact ⟨rfl, rfl, rfl, Nat.le_refl _, id, fun m' hm' => by simp [hn] at hm'⟩

theorem reaches_mismatch (c : Cursor) (x : Expectation) : c.Reaches (c.mismatch x).offset := by
  unfold mismatch
  split
  · rename_i m hm
    split
    · exact ⟨by omega, fun m' hm' => by rw [Option.some.inj (hm.symm.trans hm')]⟩
    · refine ⟨Nat.le_refl _, fun m' hm' => ?_⟩
      obtain rfl : m = m' := Option.some.inj (hm.symm.trans hm')
      simp only [mismatchHere]
      omega
  · rename_i hn
    exact ⟨Nat.le_refl _, fun m hm => by simp [hn] at hm⟩

end Cursor

/-- Parsers move on in their text and lose nothing that is remembered: a mismatch that is no more
than that lies no nearer than what was remembered. -/
def Invariant.remembering : Invariant where
  step := Cursor.LeadsTo
  fails c e := ∀ m, e = .mismatch m → m.cause = .unmatched → c.Reaches m.offset
  trans := Cursor.LeadsTo.trans
  advance := Cursor.leadsTo_advance
  recovered _ := Cursor.leadsTo_recovered _ _
  nested h := ⟨h.text, rfl, h.ceiling, h.offset_le, h.offset_le_length, h.furthest⟩
  behind h k m hm hc := h.reaches (k m hm hc)
  inside h := h
  mismatch {c x} m hm _ := Failure.mismatch.inj hm ▸ c.reaches_mismatch x
  complaint {c} x m hm hc := by
    cases x with
    | unmet x => exact Failure.mismatch.inj hm ▸ c.reaches_mismatch x
    | unknownRequirement =>
      -- an unknown requirement flag is more than an expectation that failed
      obtain rfl := Failure.mismatch.inj hm
      simp [Cursor.mismatchHere] at hc
    | infiniteNumber => simp [Complaint.failure] at hm
  tooDeep m hm := by simp at hm

/-! ### Moving on -/

/-- The grammar moves on whenever it reads something, if every nonterminal does. -/
def Grammar.advances {N : Type → Type} {α : Type} : Grammar N α → Bool
  | terminal t => t.consumes
  | call _ => true
  | seq g h => g.advances || h.advances
  | refine _ g => g.advances
  | orElse g h => g.advances && h.advances
  | opt _ => false
  | more _ => false
  | emptyOr g => g.advances
  | typedList _ _ _ => false

theorem Nonterminal.advances_production {α : Type} (n : Nonterminal α) :
    n.production.advances = true := by
  cases n <;> decide

theorem Rule.advances_of_named {whole : Bool} {α : Type} {g : Rule α} (h : Named whole g) :
    g.advances = true := by
  cases h <;> decide

/-- The parser moves on whenever it reads something. -/
def Parser.Advances {α : Type} (p : Parser α) : Prop :=
  ∀ {c d : Cursor} {a : α}, p c = .ok (d, a) → c.offset < d.offset

theorem Cursor.offset_advance (c : Cursor) (n : Nat) : (c.advance n).offset = c.offset + n := by
  cases n <;> rfl

theorem Grammar.advances_run {N : Type → Type} {parse : {α : Type} → N α → Parser α}
    (hk : ∀ {α : Type} (n : N α), (parse n).Keeps .remembering)
    (hn : ∀ {α : Type} (n : N α), (parse n).Advances) {α : Type} (g : Grammar N α)
    (hg : g.advances = true) : (g.run parse).Advances := by
  induction g with
  | terminal t =>
    intro c d a h
    obtain ⟨n, hl, rfl⟩ := Parser.terminal_eq_ok.1 h
    have := Terminal.pos_of_consumes hg hl
    rw [Cursor.offset_advance]
    omega
  | call n =>
    intro c d a h
    obtain ⟨u, hu, rfl⟩ := Parser.nested_eq_ok h
    have hlt := hn n hu
    exact hlt
  | seq g h ihg ihh =>
    intro c d ab hab
    obtain ⟨u, hu, hd⟩ := Parser.seq_eq_ok.1 hab
    have h1 := ((keeps_run hk g).found hu).offset_le
    have h2 := ((keeps_run hk h).found hd).offset_le
    rcases Bool.or_eq_true .. ▸ hg with hg | hg
    · exact (ihg hg hu).trans_le h2
    · exact h1.trans_lt (ihh hg hd)
  | refine f g ih =>
    intro c d b hb
    obtain ⟨a, ha, -⟩ := Parser.refine_eq_ok.1 hb
    exact ih hg ha
  | orElse g h ihg ihh =>
    intro c d a ha
    simp only [advances, Bool.and_eq_true] at hg
    obtain ha | ⟨m, -, -, ha⟩ := Parser.orElse_eq_ok.1 ha
    · exact ihg hg.1 ha
    · exact ihh hg.2 ha
  | emptyOr g ih =>
    intro c d x hx
    obtain ⟨n, hl, rfl, -⟩ | ⟨-, a, ha, -⟩ := Parser.emptyOr_eq_ok.1 hx
    · obtain ⟨blanks, rest, -, -, rfl⟩ := emptyParensLength?_eq_some.1 hl
      rw [Cursor.offset_advance]
      omega
    · exact ih hg ha
  | opt g _ => simp [advances] at hg
  | more g _ => simp [advances] at hg
  | typedList default group values _ _ => simp [advances] at hg

theorem Nonterminal.advances_parse (levels : Nat) {α : Type} (n : Nonterminal α) :
    (n.parse levels).Advances := by
  induction levels generalizing α with
  | zero => exact nofun
  | succ levels ih =>
    exact Grammar.advances_run (fun n => n.keeps_parse _ levels) (fun n => ih n) _
      n.advances_production

namespace Rule

variable {α : Type} {g : Rule α}

/-- **No named rule loses a mismatch that was remembered.**  What it leaves is a later place of the
same text at the same depth, which remembers a mismatch at least as far on; and a mismatch that it
reports lies neither before its place nor before the mismatch remembered there. -/
theorem parse_remembers {whole : Bool} (hg : Named whole g) (c : Cursor)
    (hc : c.offset ≤ c.text.length) :
    (∀ d a, g.parse c = .ok (d, a) →
      d.text = c.text ∧ d.depth = c.depth ∧ d.ceiling = c.ceiling ∧
        c.offset < d.offset ∧ d.offset ≤ c.text.length ∧
        ∀ m, c.furthest = some m → ∃ m', d.furthest = some m' ∧ m.offset ≤ m'.offset) ∧
    ∀ m, g.parse c = .error (.mismatch m) → m.cause = .unmatched →
      c.offset ≤ m.offset ∧ ∀ m', c.furthest = some m' → m'.offset ≤ m.offset := by
  have hk := g.keeps_parse .remembering
  refine ⟨fun d a h => ?_, fun m h hm => hk.failed h m rfl hm⟩
  have hd := hk.found h
  exact ⟨hd.text, hd.depth, hd.ceiling,
    Grammar.advances_run (fun n => n.keeps_parse _ _) (fun n => n.advances_parse _) g
      (advances_of_named hg) h,
    hd.offset_le_length hc, hd.furthest⟩

/-- Parameters behind a place where something further on was once expected. -/
def rememberingCursor : Cursor :=
  { Cursor.ofOffset ['x', '(', '?', 'y', ')'] 1 3 5 with
    furthest := some ⟨.unmatched, .token .number, 3⟩ }

theorem parse_parameters_remembers :
    rememberingCursor.offset ≤ rememberingCursor.text.length ∧
      ∃ d, parse Grammar.parameters rememberingCursor =
          .ok (d, ⟨[⟨⟨"y", by decide⟩, .object⟩]⟩) ∧
        1 < d.offset ∧ ∃ m, d.furthest = some m ∧ 3 ≤ m.offset := by
  have hc : rememberingCursor.offset ≤ rememberingCursor.text.length := by decide
  refine ⟨hc, _, rfl, ?_⟩
  obtain ⟨-, -, -, hlt, -, hm⟩ := (parse_remembers .parameters rememberingCursor hc).1 _ _ rfl
  exact ⟨hlt, hm _ rfl⟩

end Rule

end Pddl
