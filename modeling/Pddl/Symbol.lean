import Pddl.Text.Blank
import Pddl.Text.Quoted

/-!
# Symbols

A symbol is a name together with the kind of thing that it names.  The name is checked when the
symbol is made, so every symbol in a planning text can be written and read again.

* `SymbolKind` : what a symbol names; `SymbolKind.sigil` is written in front of it.
* `Symbol` : a well-formed name of one kind.
* `Symbol.ofString?` : the symbol with the given name, if that is a name at all.
* `InvalidName` : a text that is no name, with its wording.
-/

namespace Pddl

/-- What a symbol names. -/
inductive SymbolKind where
  /-- Nothing in particular. -/
  | general
  /-- A domain, a problem, an object, a constant or an action. -/
  | name
  /-- A variable. -/
  | var
  /-- A predicate. -/
  | predicate
  /-- A numeric or an object fluent. -/
  | function
  /-- A preference. -/
  | preference
  /-- A primitive type. -/
  | type
  deriving DecidableEq, Repr

namespace SymbolKind

/-- Every kind of symbol. -/
def all : List SymbolKind := [.general, .name, .var, .predicate, .function, .preference, .type]

/-- The kind as it is displayed. -/
def title : SymbolKind → String
  | general => "Symbol"
  | name => "Name"
  | var => "Variable"
  | predicate => "Predicate"
  | function => "FunctionSymbol"
  | preference => "PreferenceName"
  | type => "PrimitiveType"

/-- What is written in front of the name: variables begin with a question mark. -/
def sigil : SymbolKind → String
  | var => "?"
  | _ => ""

end SymbolKind

/-- A well-formed name of one kind of thing. -/
structure Symbol (kind : SymbolKind) where
  /-- The name, without the sigil. -/
  text : String
  valid : isName text.toList = true
  deriving DecidableEq

/-- The name of a domain, a problem, an object, a constant or an action. -/
abbrev Name := Symbol .name

/-- A variable, without its question mark. -/
abbrev Variable := Symbol .var

/-- The name of a predicate. -/
abbrev Predicate := Symbol .predicate

/-- The name of a numeric or an object fluent. -/
abbrev FunctionSymbol := Symbol .function

/-- The name of a preference. -/
abbrev PreferenceName := Symbol .preference

/-- The name of a primitive type. -/
abbrev PrimitiveType := Symbol .type

namespace Symbol

variable {kind : SymbolKind}

/-- The symbol with the given name. -/
def ofString? (kind : SymbolKind) (text : String) : Option (Symbol kind) :=
  if h : isName text.toList = true then some ⟨text, h⟩ else none

/-- The symbol as it is written. -/
def written (s : Symbol kind) : String := kind.sigil ++ s.text

/-- The symbol with its kind, for display. -/
def display (s : Symbol kind) : String := kind.title ++ "(" ++ displayText s.text ++ ")"

theorem ofString?_eq_some_iff {text : String} {s : Symbol kind} :
    ofString? kind text = some s ↔ s.text = text := by
  rcases s with ⟨t, ht⟩
  simp only [ofString?]
  constructor
  · split
    · rintro ⟨⟩; rfl
    · simp
  · rintro rfl; simp [ht]

end Symbol

/-- A text that was to name something and is no name. -/
structure InvalidName where
  /-- What it was to name. -/
  kind : SymbolKind
  /-- The text. -/
  text : String

/-- The wording of the complaint. -/
def InvalidName.message (e : InvalidName) : String :=
  "Invalid " ++ e.kind.title.map Char.toLower ++ " name: '" ++ e.text ++ "'."

/-- The built-in root type of every object. -/
def objectType : PrimitiveType := ⟨"object", by decide⟩

/-- The built-in type of numeric fluents. -/
def numberType : PrimitiveType := ⟨"number", by decide⟩

end Pddl
