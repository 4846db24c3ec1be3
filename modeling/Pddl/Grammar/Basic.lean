import Pddl.Parser

/-!
# Grammars

A grammar is data: an expression made of terminals and of references to nonterminals, and its type
says what it reads.  One function runs every grammar, so what holds of all grammars is proved once,
by induction on the expression.

* `Terminal` : what is read without looking further into the grammar.
* `Grammar` : expressions over nonterminals.
* `Grammar.run` : the parser that a grammar stands for, given one for every nonterminal.
-/

namespace Pddl

/-- What is read in one step. -/
inductive Terminal : Type → Type 1 where
  /-- Nothing, with a result. -/
  | pure {α : Type} (a : α) : Terminal α
  /-- Nothing fits. -/
  | refuse {α : Type} (expected : Expectation) : Terminal α
  /-- Blanks and comments, possibly none. -/
  | blanks : Terminal Unit
  /-- What separates two elements. -/
  | separator : Terminal Unit
  /-- A single character. -/
  | char (c : Char) : Terminal Unit
  /-- A fixed word. -/
  | word (w : String) : Terminal Unit
  /-- The longest of some fixed words, with its result. -/
  | oneOf {α : Type} (entries : List (String × α)) : Terminal α
  /-- A symbol, with its sigil. -/
  | symbol (kind : SymbolKind) : Terminal (Symbol kind)
  /-- A keyword that begins with a colon. -/
  | flag : Terminal String
  /-- A decimal number without a sign. -/
  | decimal : Terminal Decimal
  /-- A whole number without a sign. -/
  | integer : Terminal Nat

namespace Terminal

/-- A symbol: the sigil of its kind and a name. -/
def parseSymbol (kind : SymbolKind) : Parser (Symbol kind) := fun c =>
  let sigil := kind.sigil.toList
  let missing := Failure.mismatch (c.mismatch (.token (if sigil.isEmpty then .name else .var)))
  match sigil.isPrefixOf? c.rest with
  | none => .error missing
  | some rest =>
    match h : nameLexeme? rest with
    | none => .error missing
    | some name =>
      .ok (c.advance (sigil.length + name.length),
        ⟨String.ofList name, by rw [String.toList_ofList]; exact isName_of_nameLexeme? h⟩)

/-- The first entry whose word is in front. -/
def firstMatch? {α : Type} (cs : List Char) : List (String × α) → Option (Nat × α)
  | [] => none
  | (w, a) :: entries =>
    match keywordLength? w cs with
    | some n => some (n, a)
    | none => firstMatch? cs entries

/-- The entries with longer words first. -/
def longestFirst {α : Type} (entries : List (String × α)) : List (String × α) :=
  entries.mergeSort fun a b => b.1.length ≤ a.1.length

/-- The longest of some fixed words. -/
def parseOneOf {α : Type} (entries : List (String × α)) : Parser α := fun c =>
  match firstMatch? c.rest (longestFirst entries) with
  | some (n, a) => .ok (c.advance n, a)
  | none => .error (.mismatch (c.mismatch (.oneOf (entries.map Prod.fst))))

/-- The parser of a terminal. -/
def parse {α : Type} : Terminal α → Parser α
  | pure a => Parser.pure a
  | refuse expected => Parser.refuse expected
  | blanks => fun c => .ok (c.skipBlanks, ())
  | separator => Parser.separated (Parser.pure ())
  | char x => fun c => ((c.taken? (some x)).map fun d => (d, ())).mapError .mismatch
  | word w => fun c => Parser.take (keywordLength? w c.rest) (.word w) c
  | oneOf entries => parseOneOf entries
  | symbol kind => parseSymbol kind
  | flag => fun c =>
    match Token.keyword.lexeme? c.rest with
    | some cs => .ok (c.advance cs.length, String.ofList cs)
    | none => .error (.mismatch (c.mismatch (.token .keyword)))
  | decimal => fun c =>
    match decimalParts? c.rest with
    | some (whole, places) =>
      .ok (c.advance (decimalLexeme whole places).length,
        ⟨natOfDigits (whole ++ places), -places.length⟩)
    | none => .error (.mismatch (c.mismatch (.token .number)))
  | integer => fun c =>
    match c.rest.takeWhile Char.isDigit with
    | [] => .error (.mismatch (c.mismatch .integer))
    | cs => .ok (c.advance cs.length, natOfDigits cs)

end Terminal

/-- A grammar over the nonterminals `N`, for constructs of a type. -/
inductive Grammar (N : Type → Type) : Type → Type 1 where
  /-- A terminal. -/
  | terminal {α : Type} (t : Terminal α) : Grammar N α
  /-- A nonterminal, one level of nesting deeper. -/
  | call {α : Type} (n : N α) : Grammar N α
  /-- One construct, then another. -/
  | seq {α β : Type} (g : Grammar N α) (h : Grammar N β) : Grammar N (α × β)
  /-- A construct that is checked and changed. -/
  | refine {α β : Type} (f : α → Except Complaint β) (g : Grammar N α) : Grammar N β
  /-- The first construct, or else the second. -/
  | orElse {α : Type} (g h : Grammar N α) : Grammar N α
  /-- A construct, or nothing. -/
  | opt {α : Type} (g : Grammar N α) : Grammar N (Option α)
  /-- The further elements of a list. -/
  | more {α : Type} (g : Grammar N α) : Grammar N (List α)
  /-- A pair of empty parentheses, or a construct. -/
  | emptyOr {α : Type} (g : Grammar N α) : Grammar N (Option α)
  /-- Groups of items with their types, then items without a type. -/
  | typedList {α : Type} (default : TypeSpec) (group : Grammar N (List (Typed α)))
      (values : Grammar N (List α)) : Grammar N (TypedList α)

/-- The parser that a grammar stands for, given a parser for every nonterminal. -/
def Grammar.run {N : Type → Type} (parse : {α : Type} → N α → Parser α) {α : Type} :
    Grammar N α → Parser α
  | terminal t => t.parse
  | call n => Parser.nested (parse n)
  | seq g h => Parser.seq (g.run parse) (h.run parse)
  | refine f g => Parser.refine f (g.run parse)
  | orElse g h => Parser.orElse (g.run parse) (h.run parse)
  | opt g => Parser.opt (g.run parse)
  | more g => Parser.more (g.run parse)
  | emptyOr g => Parser.emptyOr (g.run parse)
  | typedList default group values =>
    Parser.typedList default (group.run parse) (values.run parse)

end Pddl
