import Pddl.Proofs.Remembering

/-!
# Resources

Parsers recur on measures: nonterminals on the levels that are left, lists on the characters that
are left.  What is read needs neither of them.  A machine that only knows the place where it
stands, and whose loops go on until nothing more is there, comes to the same outcome; and it comes
to it with as many constructs open at once as the ceiling says, whatever the text, and with no more
turns of a loop than the text has characters, and one.

* `Machine` : a parser that has an outcome only if its resources suffice.
* `Grammar.runWithin` : the machine that a grammar stands for, with room for a number of open
  constructs and a number of turns for every loop.
* `Machine.Decides` : a machine comes to the outcome of a parser.
* `Machine.decides_more`, `Machine.decides_groups` : every turn of a loop moves on, or is the last.
* `Rule.parse_within` : **every named rule comes to its outcome within these resources.**
-/

namespace Pddl

/-- A parser that has no outcome where its resources are used up. -/
abbrev Machine (α : Type) := Cursor → Option (Except Failure (Cursor × α))

namespace Machine

variable {α β : Type}

/-- One construct, then another. -/
def seq (m : Machine α) (n : Machine β) : Machine (α × β) := fun c =>
  (m c).bind fun r =>
    match r with
    | .error e => some (.error e)
    | .ok (d, _) => (n d).map fun s => Parser.seq (fun _ => r) (fun _ => s) c

/-- A construct that is checked and changed. -/
def refine (f : α → Except Complaint β) (m : Machine α) : Machine β := fun c =>
  (m c).map fun r => Parser.refine f (fun _ => r) c

/-- The first construct, or else the second at the same place. -/
def orElse (m n : Machine α) : Machine α := fun c =>
  (m c).bind fun r =>
    match r with
    | .ok _ => some r
    | .error e =>
      match e.recoverable? with
      | none => some r
      | some _ => (n c).map fun s => Parser.orElse (fun _ => r) (fun _ => s) c

/-- A construct, or nothing. -/
def opt (m : Machine α) : Machine (Option α) := fun c =>
  (m c).map fun r => Parser.opt (fun _ => r) c

/-- A construct behind what separates it from the one before. -/
def separated (m : Machine α) : Machine α := fun c =>
  match c.separated? with
  | .error x => some (.error (.mismatch x))
  | .ok d => m d

/-- A construct, behind a separation unless it comes first. -/
def separatedUnless (first : Bool) (m : Machine α) : Machine α :=
  if first then m else separated m

/-- A loop over the further elements of a list. -/
def more (m : Machine α) : (turns : Nat) → Machine (List α)
  | 0, _ => none
  | turns + 1, c =>
    (separated m c).bind fun r =>
      match r with
      | .error e =>
        match e.recoverable? with
        | none => some (.error e)
        | some x => some (.ok (c.recovered x, []))
      | .ok (d, a) =>
        if d.offset = c.offset then some (.ok (c, []))
        else
          (more m turns d).map fun s =>
            match s with
            | .error e => .error e
            | .ok (d', as) => .ok (d', a :: as)

/-- A pair of empty parentheses, which is nothing, or a construct. -/
def emptyOr (m : Machine α) : Machine (Option α) := fun c =>
  match emptyParensLength? c.rest with
  | some n => some (.ok (c.advance n, none))
  | none => (m c).map fun r => Parser.emptyOr (fun _ => r) c

/-- One level of nesting more inside the construct than outside. -/
def nested (m : Machine α) : Machine α := fun c =>
  match c.deeper? with
  | .error e => some (.error e)
  | .ok d => (m d).map fun r => Parser.nested (fun _ => r) c

/-- A loop over the groups of items at the beginning of a typed list. -/
def groups (m : Machine (List α)) : (turns : Nat) → (first : Bool) → Machine (List α)
  | 0, _, _ => none
  | turns + 1, first, c =>
    (separatedUnless first m c).bind fun r =>
      match r with
      | .error (.mismatch x) => some (.ok (c.recovered x, []))
      | .error e => some (.error e)
      | .ok (d, as) =>
        (groups m turns (first && as.isEmpty) d).map fun s =>
          match s with
          | .error e => .error e
          | .ok (d', bs) => .ok (d', as ++ bs)

/-- The items without a type at the end of a typed list. -/
def untypedTail (first : Bool) (m : Machine (List α)) : Machine (List α) := fun c =>
  (separatedUnless first m c).map fun r => Parser.untypedTail true (fun _ => r) c

/-- Groups of items with their types, then items without a type, which get the given one. -/
def typedList (default : TypeSpec) (turns : Nat) (m : Machine (List (Typed α)))
    (n : Machine (List α)) : Machine (TypedList α) := fun c =>
  (groups m turns true c).bind fun r =>
    match r with
    | .error e => some (.error e)
    | .ok (d, typed) =>
      (untypedTail typed.isEmpty n d).map fun s =>
        match s with
        | .error e => .error e
        | .ok (d', untyped) => .ok (d', ⟨typed ++ untyped.map fun a => ⟨a, default⟩⟩)

end Machine

/-- The machine that a grammar stands for, given what the nonterminals stand for: with room for a
number of constructs that are open at once, and with a number of turns for every loop. -/
def Grammar.runWithin {N : Type → Type} (production : {α : Type} → N α → Grammar N α)
    (turns : Nat) : (frames : Nat) → {α : Type} → Grammar N α → Machine α
  | 0, _, _ => fun _ => none
  | _ + 1, _, terminal t => fun c => some (t.parse c)
  | frames + 1, _, call n => .nested (runWithin production turns frames (production n))
  | frames + 1, _, seq g h =>
    .seq (runWithin production turns frames g) (runWithin production turns frames h)
  | frames + 1, _, refine f g => .refine f (runWithin production turns frames g)
  | frames + 1, _, orElse g h =>
    .orElse (runWithin production turns frames g) (runWithin production turns frames h)
  | frames + 1, _, opt g => .opt (runWithin production turns frames g)
  | frames + 1, _, more g => .more (runWithin production turns frames g) turns
  | frames + 1, _, emptyOr g => .emptyOr (runWithin production turns frames g)
  | frames + 1, _, typedList default group values =>
    .typedList default turns (runWithin production turns frames group)
      (runWithin production turns frames values)

/-- The machine of a rule. -/
def Rule.runWithin (turns frames : Nat) {α : Type} (g : Rule α) : Machine α :=
  Grammar.runWithin Nonterminal.production turns frames g

/-! ### Coming to an outcome -/

theorem Parser.advances_separated {α : Type} {p : Parser α} (h : p.Advances) :
    (separated p).Advances := by
  intro c d a hd
  have hlt := h (separated_eq_ok.1 hd).2
  rw [Cursor.skipBlanks, Cursor.offset_advance] at hlt
  omega

theorem Parser.advances_separatedUnless {α : Type} {p : Parser α} (h : p.Advances) (first : Bool) :
    (separatedUnless first p).Advances := by
  cases first with
  | false => exact advances_separated h
  | true => exact h

/-- The cursor is a place in the text, with a number of levels left. -/
structure Cursor.At (text : List Char) (levels : Nat) (c : Cursor) : Prop where
  text_eq : c.text = text
  offset_le : c.offset ≤ text.length
  levels_eq : c.ceiling - c.depth = levels

theorem Cursor.At.leadsTo {text : List Char} {levels : Nat} {c d : Cursor} (h : c.At text levels)
    (hd : c.LeadsTo d) : d.At text levels where
  text_eq := hd.text.trans h.text_eq
  offset_le := h.text_eq ▸ hd.offset_le_length (h.text_eq ▸ h.offset_le)
  levels_eq := by rw [hd.ceiling, hd.depth, h.levels_eq]

/-- At the places of a text with a number of levels left, the machine comes to the outcome of the
parser. -/
def Machine.Decides (text : List Char) (levels : Nat) {α : Type} (m : Machine α) (p : Parser α) :
    Prop :=
  ∀ c : Cursor, c.At text levels → m c = some (p c)

namespace Machine

variable {text : List Char} {levels turns : Nat} {α β : Type} {m : Machine α} {p : Parser α}

theorem decides_seq {n : Machine β} {q : Parser β} (hk : p.Keeps .remembering)
    (hm : m.Decides text levels p) (hn : n.Decides text levels q) :
    (seq m n).Decides text levels (Parser.seq p q) := by
  intro c hc
  unfold seq
  rw [hm c hc]
  rcases hp : p c with e | ⟨d, a⟩
  · simp [Parser.seq, hp]
  · have hd := hn d (hc.leadsTo (hk.found hp))
    simp [Parser.seq, hp, hd]

theorem decides_refine (f : α → Except Complaint β) (hm : m.Decides text levels p) :
    (refine f m).Decides text levels (Parser.refine f p) := by
  intro c hc
  simp [refine, hm c hc, Parser.refine]

theorem decides_orElse {n : Machine α} {q : Parser α} (hm : m.Decides text levels p)
    (hn : n.Decides text levels q) : (orElse m n).Decides text levels (Parser.orElse p q) := by
  intro c hc
  unfold orElse
  rw [hm c hc]
  rcases hp : p c with e | ⟨d, a⟩
  · rcases he : e.recoverable? with _ | x <;> simp [Parser.orElse, hp, he, hn c hc]
  · simp [Parser.orElse, hp]

theorem decides_opt (hm : m.Decides text levels p) :
    (opt m).Decides text levels (Parser.opt p) := by
  intro c hc
  simp [opt, hm c hc, Parser.opt]

theorem decides_separated (hm : m.Decides text levels p) :
    (separated m).Decides text levels (Parser.separated p) := by
  intro c hc
  unfold separated Parser.separated
  rw [Cursor.separated?_eq]
  by_cases h : c.view.separates = true
  · simp only [h, ↓reduceIte]
    exact hm _ (hc.leadsTo (Cursor.leadsTo_advance (blankLength_le _ _)))
  · simp only [h, Bool.false_eq_true, ↓reduceIte]

theorem decides_separatedUnless (first : Bool) (hm : m.Decides text levels p) :
    (separatedUnless first m).Decides text levels (Parser.separatedUnless first p) := by
  cases first with
  | false => exact decides_separated hm
  | true => exact hm

/-- A turn that is not the last one moves on, so there are no more turns than characters are left,
and one. -/
theorem decides_more (hk : p.Keeps .remembering) (hm : m.Decides text levels p)
    (hturns : text.length < turns) : (more m turns).Decides text levels (Parser.more p) := by
  have hs := Parser.keeps_separated hk
  suffices h : ∀ turns fuel (c : Cursor), c.At text levels →
      text.length < c.offset + turns → text.length ≤ c.offset + List.length fuel →
      more m turns c = some (Parser.moreWithin p fuel c) by
    intro c hc
    refine h turns c.rest c hc (by omega) ?_
    rw [c.rest_eq, hc.text_eq, List.length_drop]
    omega
  intro turns
  induction turns with
  | zero => exact fun _ c hc h => absurd hc.offset_le (by omega)
  | succ turns ih =>
    intro fuel c hc hturns hfuel
    unfold more Parser.moreWithin
    rw [decides_separated hm c hc]
    rcases hp : Parser.separated p c with e | ⟨d, a⟩
    · rcases he : e.recoverable? with _ | x <;> simp [he]
    · have hd := hc.leadsTo (hs.found hp)
      have hle := (hs.found hp).offset_le
      by_cases heq : d.offset = c.offset
      · simp [heq]
      · cases fuel with
        | nil =>
          -- without characters left, no element takes one
          have := hd.offset_le
          simp only [List.length_nil] at hfuel
          omega
        | cons x fuel =>
          simp only [List.length_cons] at hfuel
          simp only [heq, ↓reduceIte, Option.bind_some, ih fuel d hd (by omega) (by omega)]
          rfl

theorem decides_emptyOr (hm : m.Decides text levels p) :
    (emptyOr m).Decides text levels (Parser.emptyOr p) := by
  intro c hc
  unfold emptyOr
  rcases he : emptyParensLength? c.rest with _ | n <;> simp [Parser.emptyOr, he, hm c hc]

/-- A group moves on, so there are no more of them than characters are left. -/
theorem decides_groups {m : Machine (List α)} {p : Parser (List α)} (hk : p.Keeps .remembering)
    (ha : p.Advances) (hm : m.Decides text levels p) (hturns : text.length < turns) :
    ∀ c, c.At text levels → groups m turns true c = some (Parser.groupsWithin p true c.rest c) := by
  suffices h : ∀ turns fuel first (c : Cursor), c.At text levels →
      text.length < c.offset + turns → text.length ≤ c.offset + List.length fuel →
      groups m turns first c = some (Parser.groupsWithin p first fuel c) by
    intro c hc
    refine h turns c.rest true c hc (by omega) ?_
    rw [c.rest_eq, hc.text_eq, List.length_drop]
    omega
  intro turns
  induction turns with
  | zero => exact fun _ _ c hc h => absurd hc.offset_le (by omega)
  | succ turns ih =>
    intro fuel first c hc hturns hfuel
    have hs := Parser.keeps_separatedUnless hk first
    unfold groups Parser.groupsWithin
    rw [decides_separatedUnless first hm c hc]
    rcases hp : Parser.separatedUnless first p c with e | ⟨d, as⟩
    · rcases e with x | _ | _ <;> rfl
    · have hd := hc.leadsTo (hs.found hp)
      have hlt := Parser.advances_separatedUnless ha first hp
      cases fuel with
      | nil =>
        -- without characters left, there is no group
        have := hd.offset_le
        simp only [List.length_nil] at hfuel
        omega
      | cons x fuel =>
        simp only [List.length_cons] at hfuel
        simp only [Option.bind_some, ih fuel _ d hd (by omega) (by omega)]
        rfl

theorem decides_untypedTail {m : Machine (List α)} {p : Parser (List α)} (first : Bool)
    (hm : m.Decides text levels p) :
    (untypedTail first m).Decides text levels (Parser.untypedTail first p) := by
  intro c hc
  simp [untypedTail, decides_separatedUnless first hm c hc, Parser.untypedTail,
    Parser.separatedUnless]

theorem decides_typedList (default : TypeSpec) {m : Machine (List (Typed α))}
    {p : Parser (List (Typed α))} {n : Machine (List α)} {q : Parser (List α)}
    (hk : p.Keeps .remembering) (ha : p.Advances) (hm : m.Decides text levels p)
    (hn : n.Decides text levels q) (hturns : text.length < turns) :
    (typedList default turns m n).Decides text levels (Parser.typedList default p q) := by
  intro c hc
  unfold typedList Parser.typedList
  rw [decides_groups hk ha hm hturns c hc]
  rcases hp : Parser.groupsWithin p true c.rest c with e | ⟨d, typed⟩
  · rfl
  · have hd := hc.leadsTo ((Parser.keeps_groupsWithin hk _ _).found hp)
    simp only [Option.bind_some, decides_untypedTail _ hn d hd]
    rfl

/-- Inside a construct that is nested, a level less is left. -/
theorem decides_nested (hm : ∀ k, levels = k + 1 → m.Decides text k p) :
    (nested m).Decides text levels (Parser.nested p) := by
  intro c hc
  have hlevels := hc.levels_eq
  unfold nested Parser.nested Cursor.deeper?
  by_cases h : c.depth < c.ceiling
  · obtain ⟨k, rfl⟩ : ∃ k, levels = k + 1 := ⟨levels - 1, by omega⟩
    have hd : (c.withDepth (c.depth + 1)).At text k :=
      ⟨hc.text_eq, hc.offset_le, by simp only [Cursor.withDepth]; omega⟩
    simp only [h, ↓reduceIte, hm k rfl _ hd, Option.map_some]
  · simp only [h, ↓reduceIte]

end Machine

/-! ### What a grammar needs -/

namespace Grammar

variable {N : Type → Type} {α : Type}

/-- How many constructs are open at once at most, up to the nonterminals. -/
def height {α : Type} : Grammar N α → Nat
  | terminal _ => 1
  | call _ => 1
  | seq g h => max g.height h.height + 1
  | refine _ g => g.height + 1
  | orElse g h => max g.height h.height + 1
  | opt g => g.height + 1
  | more g => g.height + 1
  | emptyOr g => g.height + 1
  | typedList _ group values => max group.height values.height + 1

/-- The groups of every typed list in the grammar move on. -/
def groupsAdvance {α : Type} : Grammar N α → Bool
  | terminal _ => true
  | call _ => true
  | seq g h => g.groupsAdvance && h.groupsAdvance
  | refine _ g => g.groupsAdvance
  | orElse g h => g.groupsAdvance && h.groupsAdvance
  | opt g => g.groupsAdvance
  | more g => g.groupsAdvance
  | emptyOr g => g.groupsAdvance
  | typedList _ group values => group.advances && group.groupsAdvance && values.groupsAdvance

end Grammar

/-- No production and no named rule opens more constructs at once, up to the nonterminals. -/
def greatestHeight : Nat := 88

set_option maxRecDepth 4000 in
theorem Nonterminal.height_production {α : Type} (n : Nonterminal α) :
    n.production.height ≤ greatestHeight := by
  cases n <;> decide

theorem Nonterminal.groupsAdvance_production {α : Type} (n : Nonterminal α) :
    n.production.groupsAdvance = true := by
  cases n <;> decide

set_option maxRecDepth 4000 in
theorem Rule.height_of_named {whole : Bool} {α : Type} {g : Rule α} (h : Named whole g) :
    g.height ≤ greatestHeight := by
  cases h <;> decide

theorem Rule.groupsAdvance_of_named {whole : Bool} {α : Type} {g : Rule α} (h : Named whole g) :
    g.groupsAdvance = true := by
  cases h <;> decide

namespace Grammar

/-- A grammar itself is one of the open constructs. -/
theorem exists_frame {N : Type → Type} {α : Type} {g : Grammar N α} {frames room : Nat}
    (h : g.height + room ≤ frames) : ∃ k, frames = k + 1 ∧ g.height - 1 + room ≤ k := by
  have hpos : 0 < g.height := by cases g <;> simp [height]
  exact ⟨frames - 1, by omega, by omega⟩

variable {text : List Char} {turns levels : Nat}

/-- The machine of a grammar comes to the outcome of its parser, with room for the constructs of
the grammar and for what its nonterminals need. -/
theorem decides_runWithin (hturns : text.length < turns) (room : Nat)
    (hn : ∀ {α : Type} (n : Nonterminal α) (k frames : Nat), levels = k + 1 → room ≤ frames →
      (Rule.runWithin turns frames n.production).Decides text k
        (n.parse levels))
    {α : Type} (g : Rule α) (hg : g.groupsAdvance = true) {frames : Nat}
    (hframes : g.height + room ≤ frames) :
    (Rule.runWithin turns frames g).Decides text levels
      (g.run (Nonterminal.parse levels)) := by
  have hk : ∀ {α : Type} (g : Rule α), (g.run (Nonterminal.parse levels)).Keeps .remembering :=
    keeps_run fun n => n.keeps_parse _ levels
  induction g generalizing frames with
  | terminal t =>
    obtain ⟨frames, rfl, -⟩ := exists_frame hframes
    exact fun c _ => rfl
  | call n =>
    obtain ⟨frames, rfl, hle⟩ := exists_frame hframes
    simp only [height] at hle
    exact Machine.decides_nested fun k hk => hn n k frames hk (by omega)
  | seq g h ihg ihh =>
    obtain ⟨frames, rfl, hle⟩ := exists_frame hframes
    simp only [height] at hle
    simp only [groupsAdvance, Bool.and_eq_true] at hg
    exact Machine.decides_seq (hk g) (ihg hg.1 (by omega)) (ihh hg.2 (by omega))
  | refine f g ih =>
    obtain ⟨frames, rfl, hle⟩ := exists_frame hframes
    exact Machine.decides_refine f (ih hg hle)
  | orElse g h ihg ihh =>
    obtain ⟨frames, rfl, hle⟩ := exists_frame hframes
    simp only [height] at hle
    simp only [groupsAdvance, Bool.and_eq_true] at hg
    exact Machine.decides_orElse (ihg hg.1 (by omega)) (ihh hg.2 (by omega))
  | opt g ih =>
    obtain ⟨frames, rfl, hle⟩ := exists_frame hframes
    exact Machine.decides_opt (ih hg hle)
  | more g ih =>
    obtain ⟨frames, rfl, hle⟩ := exists_frame hframes
    exact Machine.decides_more (hk g) (ih hg hle) hturns
  | emptyOr g ih =>
    obtain ⟨frames, rfl, hle⟩ := exists_frame hframes
    exact Machine.decides_emptyOr (ih hg hle)
  | typedList default group values ihg ihv =>
    obtain ⟨frames, rfl, hle⟩ := exists_frame hframes
    simp only [height] at hle
    simp only [groupsAdvance, Bool.and_eq_true] at hg
    have ha : (group.run (Nonterminal.parse levels)).Advances :=
      advances_run (fun n => n.keeps_parse _ levels) (fun n => n.advances_parse levels) group
        hg.1.1
    exact Machine.decides_typedList default (hk group) ha (ihg hg.1.2 (by omega))
      (ihv hg.2 (by omega)) hturns

end Grammar

/-- Every level that is left needs room for the constructs of one more production. -/
theorem Nonterminal.decides_runWithin {text : List Char} {turns : Nat}
    (hturns : text.length < turns) (levels frames : Nat) {α : Type} (n : Nonterminal α)
    (hframes : (levels + 1) * greatestHeight ≤ frames) :
    (Rule.runWithin turns frames n.production).Decides text levels
      (n.parse (levels + 1)) := by
  induction levels generalizing frames α with
  | zero =>
    refine Grammar.decides_runWithin hturns 0 (fun _ _ _ h => by simp at h) _
      n.groupsAdvance_production ?_
    have := n.height_production
    omega
  | succ levels ih =>
    refine Grammar.decides_runWithin hturns ((levels + 1) * greatestHeight)
      (fun n k frames h hroom => ?_) _ n.groupsAdvance_production ?_
    · obtain rfl : levels = k := Nat.succ.inj h
      exact ih frames n hroom
    · have := n.height_production
      rw [Nat.succ_mul] at hframes
      omega

namespace Rule

variable {α : Type} {g : Rule α}

/-- The room for open constructs under a ceiling. -/
def frames (ceiling : Nat) : Nat := (ceiling + 1) * greatestHeight

/-- **Every named rule comes to its outcome**, with room for a number of open constructs that only
depends on the ceiling, and with at most one more turn of every loop than the text has
characters. -/
theorem parse_within {whole : Bool} (hg : Named whole g) (c : Cursor)
    (hc : c.offset ≤ c.text.length) :
    g.runWithin (c.text.length + 1) (frames c.ceiling) c = some (g.parse c) := by
  have hroom : greatestHeight + (c.ceiling - c.depth) * greatestHeight ≤ frames c.ceiling := by
    have := Nat.mul_le_mul_right greatestHeight (Nat.sub_le c.ceiling c.depth)
    rw [frames, Nat.succ_mul]
    omega
  refine Grammar.decides_runWithin (Nat.lt_succ_self _) ((c.ceiling - c.depth) * greatestHeight)
    (fun n k frames h hframes => ?_) g (groupsAdvance_of_named hg)
    ((Nat.add_le_add_right (height_of_named hg) _).trans hroom) c ⟨rfl, hc, rfl⟩
  rw [h] at hframes ⊢
  exact n.decides_runWithin (Nat.lt_succ_self _) k frames hframes

/-- A goal whose argument is too deep for the ceiling. -/
theorem parse_within_goal :
    (Cursor.ofText "(p x)".toList 1).offset ≤ (Cursor.ofText "(p x)".toList 1).text.length ∧
      goal.runWithin 6 (frames 1) (Cursor.ofText "(p x)".toList 1) =
        some (.error (.tooDeep 1 3)) := by
  have hparse : goal.parse (Cursor.ofText "(p x)".toList 1) = .error (.tooDeep 1 3) :=
    failure?_eq_some.1 (by decide +kernel)
  have hle : (Cursor.ofText "(p x)".toList 1).offset ≤
    (Cursor.ofText "(p x)".toList 1).text.length := Nat.zero_le _
  exact ⟨hle, (parse_within .goal _ hle).trans (congrArg some hparse)⟩

/-- Three variables take more than one turn. -/
example : (runWithin 1 (frames 1) Grammar.parameters
    (Cursor.ofText "(?x ?y ?z)".toList 1)).isNone := by decide +kernel

end Rule

end Pddl
