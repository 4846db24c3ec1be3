import Pddl.Cursor
import Pddl.Typed

/-!
# Parsers

A parser reads a construct at a cursor and gives the cursor behind it, or fails.  The functions
here put parsers together; what they have in common is how they treat a mismatch that can be
recovered from: an alternative is tried, an optional part is left out, a list ends.  The cursor
that they then give remembers the mismatch, so that a later report can point at the deepest
attempt.

* `Parser` : the type of parsers.
* `Parser.seq`, `Parser.refine` : one after the other; a result that is checked.
* `Parser.orElse`, `Parser.opt` : alternatives and optional parts.
* `Parser.more` : the further elements of a list.
* `Parser.typedList` : groups of values with their types, and values without a type at the end.
* `Parser.nested` : one level of nesting more inside than outside.
-/

namespace Pddl

/-- A parser of constructs of a type. -/
abbrev Parser (α : Type) := Cursor → Except Failure (Cursor × α)

/-- What can be wrong with a construct that was read. -/
inductive Complaint where
  /-- Something else was expected in its place. -/
  | unmet (expected : Expectation)
  /-- A requirement flag is unknown. -/
  | unknownRequirement
  /-- A number is beyond every finite value. -/
  | infiniteNumber

/-- The failure that a complaint about a construct at a cursor makes. -/
def Complaint.failure (c : Cursor) : Complaint → Failure
  | unmet expected => .mismatch (c.mismatch expected)
  | unknownRequirement => .mismatch (c.mismatchHere .unknownRequirement .requirementFlag)
  | infiniteNumber => .infiniteNumber

namespace Parser

variable {α β : Type}

/-- Gives a result without reading anything. -/
def pure (a : α) : Parser α := fun c => .ok (c, a)

/-- Fails with an expectation. -/
def refuse (expected : Expectation) : Parser α := fun c => .error (.mismatch (c.mismatch expected))

/-- Takes some characters along, or fails with an expectation. -/
def take (length : Option Nat) (expected : Expectation) : Parser Unit := fun c =>
  match length with
  | some n => .ok (c.advance n, ())
  | none => .error (.mismatch (c.mismatch expected))

/-- One construct, then another. -/
def seq (p : Parser α) (q : Parser β) : Parser (α × β) := fun c =>
  match p c with
  | .error e => .error e
  | .ok (d, a) =>
    match q d with
    | .error e => .error e
    | .ok (d', b) => .ok (d', (a, b))

/-- A construct that is checked and changed. -/
def refine (f : α → Except Complaint β) (p : Parser α) : Parser β := fun c =>
  match p c with
  | .error e => .error e
  | .ok (d, a) =>
    match f a with
    | .error e => .error (e.failure c)
    | .ok b => .ok (d, b)

/-- The first construct, or else the second at the same place.  If neither is there, the mismatch
that lies further on is reported, the first of two at the same offset. -/
def orElse (p q : Parser α) : Parser α := fun c =>
  match p c with
  | .ok r => .ok r
  | .error e =>
    match e.recoverable? with
    | none => .error e
    | some m =>
      match q c with
      | .ok r => .ok r
      | .error e' =>
        match e'.recoverable? with
        | none => .error e'
        | some m' => .error (.mismatch (if m.offset < m'.offset then m' else m))

/-- A construct, or nothing. -/
def opt (p : Parser α) : Parser (Option α) := fun c =>
  match p c with
  | .ok (d, a) => .ok (d, some a)
  | .error e =>
    match e.recoverable? with
    | none => .error e
    | some m => .ok (c.recovered m, none)

/-- A construct behind what separates it from the one before. -/
def separated (p : Parser α) : Parser α := fun c =>
  match c.separated? with
  | .error m => .error (.mismatch m)
  | .ok d => p d

/-- The further elements of a list, each behind a separation, given at least as many elements of
fuel as there can be elements.  The list ends at an element that is not there or that takes no
characters. -/
def moreWithin (p : Parser α) : List Char → Parser (List α)
  | fuel, c =>
    match separated p c with
    | .error e =>
      match e.recoverable? with
      | none => .error e
      | some m => .ok (c.recovered m, [])
    | .ok (d, a) =>
      if d.offset = c.offset then .ok (c, [])
      else
        match fuel with
        | [] => .ok (c, [])
        | _ :: fuel =>
          match moreWithin p fuel d with
          | .error e => .error e
          | .ok (d', as) => .ok (d', a :: as)

/-- The further elements of a list.  Every element takes a character, so there are no more of
them than characters. -/
def more (p : Parser α) : Parser (List α) := fun c => moreWithin p c.rest c

/-- A pair of empty parentheses, which is nothing, or a construct. -/
def emptyOr (p : Parser α) : Parser (Option α) := fun c =>
  match emptyParensLength? c.rest with
  | some n => .ok (c.advance n, none)
  | none =>
    match p c with
    | .error e => .error e
    | .ok (d, a) => .ok (d, some a)

/-- One level of nesting more inside the construct than outside. -/
def nested (p : Parser α) : Parser α := fun c =>
  match c.deeper? with
  | .error e => .error e
  | .ok d =>
    match p d with
    | .error e => .error e
    | .ok (d', a) => .ok (d'.withDepth c.depth, a)

/-! ### Typed lists -/

/-- A construct, behind a separation unless it comes first. -/
def separatedUnless (first : Bool) (p : Parser α) : Parser α := if first then p else separated p

/-- The groups of items at the beginning of a typed list, with fuel as in `moreWithin`.  No
mismatch is final here: whatever the group, the groups end where it is not there. -/
def groupsWithin (group : Parser (List α)) : (first : Bool) → List Char → Parser (List α)
  | first, fuel, c =>
    match separatedUnless first group c with
    | .error (.mismatch m) => .ok (c.recovered m, [])
    | .error e => .error e
    | .ok (d, as) =>
      match fuel with
      | [] => .ok (d, as)
      | _ :: fuel =>
        match groupsWithin group (first && as.isEmpty) fuel d with
        | .error e => .error e
        | .ok (d', bs) => .ok (d', as ++ bs)

/-- The items without a type at the end of a typed list. -/
def untypedTail (first : Bool) (values : Parser (List α)) : Parser (List α) := fun c =>
  match separatedUnless first values c with
  | .error (.mismatch m) => .ok (c.recovered m, [])
  | .error e => .error e
  | .ok (d, as) => .ok (if as.isEmpty then c else d, as)

/-- Groups of items with their types, then items without a type, which get the given one. -/
def typedList (default : TypeSpec) (group : Parser (List (Typed α)))
    (values : Parser (List α)) : Parser (TypedList α) := fun c =>
  match groupsWithin group true c.rest c with
  | .error e => .error e
  | .ok (d, typed) =>
    match untypedTail typed.isEmpty values d with
    | .error e => .error e
    | .ok (d', untyped) => .ok (d', ⟨typed ++ untyped.map fun a => ⟨a, default⟩⟩)

end Parser

end Pddl
