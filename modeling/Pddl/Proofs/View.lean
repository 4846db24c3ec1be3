import Pddl.Proofs.Lexeme
import Pddl.Reading

/-!
# What a reading depends on

A cursor carries an offset into a whole text, a depth and a remembered mismatch.  None of these
decides what is read: a reading depends on the characters that are left, on the one character
before them, and on how many levels of nesting may still be opened.

* `View` : the characters that are left and the one before.
* `Finding` : what comes of a reading, without offsets and wordings.
* `Grammar.denote`, `Nonterminal.denote` : what a grammar reads at a view.
* `Rule.look` : what a rule reads at a view, for a number of levels.

That parsing does nothing else is `Rule.parse_agrees`.
-/

namespace Pddl

/-- What is left to read: the character before a place and the characters from there on. -/
structure View where
  /-- The character before the place. -/
  before : Option Char
  /-- The characters from the place on. -/
  rest : List Char

namespace View

/-- The view some characters further on. -/
def advance (v : View) : Nat → View
  | 0 => v
  | n + 1 => ⟨v.rest[n]?, v.rest.drop (n + 1)⟩

/-- The view behind the blanks and comments. -/
def skipBlanks (v : View) : View := v.advance (blankLength false v.rest)

/-- Two elements of a list are separated here. -/
def separates (v : View) : Bool :=
  decide (0 < blankLength false v.rest) || v.before.any (fun x => x == ')' || isWideBlank x)
    || v.rest.head?.any (fun x => x == '(' || x == ')')

@[simp] theorem advance_zero (v : View) : v.advance 0 = v := rfl

@[simp] theorem rest_advance (v : View) (n : Nat) : (v.advance n).rest = v.rest.drop n := by
  cases n <;> simp [advance]

end View

/-! ### Findings -/

/-- What comes of a reading. -/
inductive Finding (α : Type) where
  /-- A construct, and what is left behind it. -/
  | found (v : View) (a : α)
  /-- Something else was expected. -/
  | missing
  /-- A requirement flag is unknown. -/
  | unknownFlag
  /-- The levels of nesting are used up. -/
  | tooDeep
  /-- A number is beyond every finite value. -/
  | infinite

namespace Finding

variable {α β : Type}

/-- What comes of a reading that goes on behind a construct. -/
def andThen (o : Finding α) (k : View → α → Finding β) : Finding β :=
  match o with
  | found v a => k v a
  | missing => missing
  | unknownFlag => unknownFlag
  | tooDeep => tooDeep
  | infinite => infinite

/-- What comes of a reading with an alternative. -/
def orElse (o alternative : Finding α) : Finding α :=
  match o with
  | missing => alternative
  | o => o

/-- The finding of a complaint. -/
def complaint : Complaint → Finding α
  | .unmet _ => missing
  | .unknownRequirement => unknownFlag
  | .infiniteNumber => infinite

/-- The finding of a lexeme of known length. -/
def lexeme (v : View) : Option (Nat × α) → Finding α
  | some (n, a) => found (v.advance n) a
  | none => missing

theorem andThen_eq_found {o : Finding α} {k : View → α → Finding β} {w : View} {b : β} :
    o.andThen k = found w b ↔ ∃ v a, o = found v a ∧ k v a = found w b := by
  cases o <;> simp [andThen]

theorem andThen_congr {o : Finding α} {k k' : View → α → Finding β}
    (h : ∀ v a, o = found v a → k v a = k' v a) : o.andThen k = o.andThen k' := by
  cases o with
  | found v a => exact h v a rfl
  | _ => rfl

theorem orElse_eq_found {o o' : Finding α} {w : View} {a : α} :
    o.orElse o' = found w a ↔ o = found w a ∨ o = missing ∧ o' = found w a := by
  cases o <;> simp [orElse]

end Finding

/-- What reads a construct at a view. -/
abbrev Reader (α : Type) := View → Finding α

namespace Reader

variable {α β : Type}

/-- One construct, then another. -/
def seq (p : Reader α) (q : Reader β) : Reader (α × β) := fun v =>
  (p v).andThen fun w a => (q w).andThen fun w' b => .found w' (a, b)

/-- A construct that is checked and changed. -/
def refine (f : α → Except Complaint β) (p : Reader α) : Reader β := fun v =>
  (p v).andThen fun w a =>
    match f a with
    | .ok b => .found w b
    | .error e => .complaint e

/-- The first construct, or else the second. -/
def orElse (p q : Reader α) : Reader α := fun v => (p v).orElse (q v)

/-- A construct, or nothing. -/
def opt (p : Reader α) : Reader (Option α) := fun v =>
  ((p v).andThen fun w a => .found w (some a)).orElse (.found v none)

/-- A construct behind a separation. -/
def separated (p : Reader α) : Reader α := fun v =>
  if v.separates then p v.skipBlanks else .missing

/-- The further elements of a list, at most as many as there is fuel. -/
def moreWithin (p : Reader α) : List Char → Reader (List α)
  | [], v => (opt (separated p) v).andThen fun _ _ => .found v []
  | _ :: fuel, v =>
    (opt (separated p) v).andThen fun w a? =>
      match a? with
      | none => .found v []
      | some a =>
        if w.rest.length = v.rest.length then .found v []
        else (moreWithin p fuel w).andThen fun w' as => .found w' (a :: as)

/-- The further elements of a list. -/
def more (p : Reader α) : Reader (List α) := fun v => moreWithin p v.rest v

/-- A pair of empty parentheses, or a construct. -/
def emptyOr (p : Reader α) : Reader (Option α) := fun v =>
  match emptyParensLength? v.rest with
  | some n => .found (v.advance n) none
  | none => (p v).andThen fun w a => .found w (some a)

/-- A construct, behind a separation unless it comes first. -/
def separatedUnless (first : Bool) (p : Reader α) : Reader α := if first then p else separated p

/-- The groups of items at the beginning of a typed list. -/
def groupsWithin (group : Reader (List α)) : (first : Bool) → List Char → Reader (List α)
  | first, [], v => (opt (separatedUnless first group) v).andThen fun w as? => .found w (as?.getD [])
  | first, _ :: fuel, v =>
    (opt (separatedUnless first group) v).andThen fun w as? =>
      match as? with
      | none => .found v []
      | some as =>
        (groupsWithin group (first && as.isEmpty) fuel w).andThen fun w' bs =>
          .found w' (as ++ bs)

/-- The items without a type at the end of a typed list. -/
def untypedTail (first : Bool) (values : Reader (List α)) : Reader (List α) := fun v =>
  (opt (separatedUnless first values) v).andThen fun w as? =>
    match as? with
    | none => .found v []
    | some as => .found (if as.isEmpty then v else w) as

/-- Groups of items with their types, then items without a type. -/
def typedList (default : TypeSpec) (group : Reader (List (Typed α)))
    (values : Reader (List α)) : Reader (TypedList α) := fun v =>
  (groupsWithin group true v.rest v).andThen fun w typed =>
    (untypedTail typed.isEmpty values w).andThen fun w' untyped =>
      .found w' ⟨typed ++ untyped.map fun a => ⟨a, default⟩⟩

/-! ### What is found -/

theorem opt_eq_found {r : Reader α} {v w : View} {x : Option α} :
    opt r v = .found w x ↔
      (∃ a, r v = .found w a ∧ x = some a) ∨ r v = .missing ∧ w = v ∧ x = none := by
  unfold opt
  rcases r v with ⟨u, a⟩ | _ | _ | _ | _ <;> simp [Finding.andThen, Finding.orElse, eq_comm]

theorem separated_eq_found {r : Reader α} {v w : View} {a : α} :
    separated r v = .found w a ↔ v.separates = true ∧ r v.skipBlanks = .found w a := by
  unfold separated
  split <;> simp_all

theorem seq_eq_found {r : Reader α} {s : Reader β} {v w : View} {ab : α × β} :
    seq r s v = .found w ab ↔ ∃ u, r v = .found u ab.1 ∧ s u = .found w ab.2 := by
  obtain ⟨a, b⟩ := ab
  simp only [seq, Finding.andThen_eq_found, Finding.found.injEq, Prod.mk.injEq]
  constructor
  · rintro ⟨u, a', hr, w', b', hs, rfl, rfl, rfl⟩
    exact ⟨u, hr, hs⟩
  · rintro ⟨u, hr, hs⟩
    exact ⟨u, a, hr, w, b, hs, rfl, rfl, rfl⟩

theorem refine_eq_found {f : α → Except Complaint β} {r : Reader α} {v w : View} {b : β} :
    refine f r v = .found w b ↔ ∃ a, r v = .found w a ∧ f a = .ok b := by
  simp only [refine, Finding.andThen_eq_found]
  constructor
  · rintro ⟨u, a, hr, h⟩
    rcases hf : f a with e | b'
    · rw [hf] at h
      cases e <;> simp [Finding.complaint] at h
    · rw [hf] at h
      obtain ⟨rfl, rfl⟩ := Finding.found.inj h
      exact ⟨a, hr, hf⟩
  · rintro ⟨a, hr, hf⟩
    exact ⟨w, a, hr, by rw [hf]⟩

end Reader

/-! ### Denotations -/

namespace Terminal

/-- The number of characters that a terminal takes, and its result. -/
def lexeme? {α : Type} : Terminal α → View → Option (Nat × α)
  | pure a, _ => some (0, a)
  | refuse _, _ => none
  | blanks, v => some (blankLength false v.rest, ())
  | separator, v => if v.separates then some (blankLength false v.rest, ()) else none
  | char x, v => if v.rest.head? = some x then some (1, ()) else none
  | word w, v => (keywordLength? w v.rest).map fun n => (n, ())
  | oneOf entries, v => firstMatch? v.rest (longestFirst entries)
  | symbol kind, v => symbolLexeme? kind v.rest
  | flag, v => flagLexeme? v.rest
  | decimal, v => decimalLexeme? v.rest
  | integer, v => integerLexeme? v.rest

end Terminal

/-- What a grammar reads at a view, given what every nonterminal reads. -/
def Grammar.denote {N : Type → Type} (read : {α : Type} → N α → Reader α) {α : Type} :
    Grammar N α → Reader α
  | terminal t => fun v => .lexeme v (t.lexeme? v)
  | call n => read n
  | seq g h => Reader.seq (g.denote read) (h.denote read)
  | refine f g => Reader.refine f (g.denote read)
  | orElse g h => Reader.orElse (g.denote read) (h.denote read)
  | opt g => Reader.opt (g.denote read)
  | more g => Reader.more (g.denote read)
  | emptyOr g => Reader.emptyOr (g.denote read)
  | typedList default group values =>
    Reader.typedList default (group.denote read) (values.denote read)

/-- What a nonterminal reads at a view, for a number of levels. -/
def Nonterminal.denote : (levels : Nat) → {α : Type} → Nonterminal α → Reader α
  | 0, _, _ => fun _ => .tooDeep
  | levels + 1, _, n => n.production.denote (denote levels)

/-- What a rule reads at a view, for a number of levels. -/
def Rule.look {α : Type} (levels : Nat) (g : Rule α) : Reader α := g.denote (Nonterminal.denote levels)

end Pddl
