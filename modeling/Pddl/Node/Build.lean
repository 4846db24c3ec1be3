import Pddl.Node.Basic
import Pddl.Number.Numeral

/-!
# Building syntax nodes by hand

A node can be put together from the title of what it is and its fields by name.  Symbols, numbers
and keywords are checked; fields that are left out take their default.

* `Node.build?` : the node, or what is wrong with it.
* `BuildError` : the possible complaints, with their wording.
-/

namespace Pddl

/-- What can be wrong with a node that is put together by hand. -/
inductive BuildError where
  /-- A symbol's text is no name. -/
  | invalidName (e : InvalidName)
  /-- A number's value is not finite. -/
  | notFinite (x : Binary64)
  /-- An integer is beyond every number. -/
  | integerTooLarge
  /-- The vocabulary has no such word. -/
  | notAKeyword (title word : String)
  /-- A field without a default is missing, or holds something that does not belong there. -/
  | badField (title field : String)
  /-- Nothing has this title. -/
  | unknownTitle (title : String)

/-- The wording of the complaint. -/
def BuildError.message : BuildError → String
  | invalidName e => e.message
  | notFinite x => "PDDL numbers must be finite, got " ++ x.display ++ "."
  | integerTooLarge => "int too large to convert to float"
  | notAKeyword title word => displayText word ++ " is not a valid " ++ title
  | badField title field => title ++ " has no usable field " ++ displayText field
  | unknownTitle title => "unknown construct " ++ displayText title

/-- A vocabulary as it is known by its title: the words. -/
structure WordList where
  /-- The title of the vocabulary. -/
  title : String
  /-- Its words. -/
  words : List String

/-- The words of a vocabulary, under its title. -/
def WordList.of (α : Type) [Vocabulary α] : WordList :=
  ⟨Vocabulary.title α, (Vocabulary.members : List α).map Vocabulary.keyword⟩

/-- Every vocabulary of the language. -/
def wordLists : List WordList :=
  [.of Comparator, .of ArithmeticOp, .of VariadicOp, .of AssignOp, .of RateOp,
    .of DurationComparator, .of TimePoint, .of Interval, .of Optimization, .of Requirement]

/-- The number with the given value, which must be finite. -/
def Number.ofBinary64 : Binary64 → Except BuildError Number
  | .finite x => .ok x
  | x => .error (.notFinite x)

/-- The number nearest to an integer, which must not be too large. -/
def Number.ofInt (n : Int) : Except BuildError Number :=
  match Number.ofInt? n with
  | some x => .ok x
  | none => .error .integerTooLarge

/-- The symbol with the given name. -/
def Symbol.ofString (kind : SymbolKind) (text : String) : Except BuildError (Symbol kind) :=
  match Symbol.ofString? kind text with
  | some s => .ok s
  | none => .error (.invalidName ⟨kind, text⟩)

namespace Node

/-- The nodes without those that equal an earlier one. -/
def withoutRepeats : List Node → List Node
  | [] => []
  | n :: ns => n :: (withoutRepeats ns).filter fun m => !n.same m

/-- The form of a kind with the given fields; declared requirements lose their repeats. -/
def makeForm (kind : Kind) (fields : List Node) : Node :=
  match kind, fields with
  | .requirements, [tuple rs] => form .requirements [tuple (withoutRepeats rs)]
  | kind, fields => form kind fields

/-- The number that a field holds: a value, an integer or a numeral. -/
def buildNumber? : Node → Except BuildError Node
  | float x => return number (← Number.ofBinary64 x)
  | integer n => return number (← Number.ofInt n)
  | text s =>
    match Binary64.ofNumeral? s with
    | some x => return number (← Number.ofBinary64 x)
    | none => .error (.badField "Number" "value")
  | _ => .error (.badField "Number" "value")

/-- The node with the given title and fields. -/
def build? (title : String) (fields : List (String × Node)) : Except BuildError Node := do
  let value := fields.lookup "value"
  if let some kind := SymbolKind.all.find? fun k => k.title == title then
    match value with
    | some (text s) => return symbol (← Symbol.ofString kind s)
    | _ => throw (.badField title "value")
  if title == "Number" then
    match value with
    | some v => return ← buildNumber? v
    | none => throw (.badField title "value")
  if let some list := wordLists.find? fun l => l.title == title then
    match value with
    | some (text s) =>
      if list.words.contains s then return keyword title s else throw (.notAKeyword title s)
    | _ => throw (.badField title "value")
  match Kind.ofTitle? title with
  | none => throw (.unknownTitle title)
  | some kind =>
    let given ← kind.schema.mapM fun field =>
      match fields.lookup field.name, field.default with
      | some n, _ => pure n
      | none, some n => pure n
      | none, none => throw (BuildError.badField title field.name)
    return makeForm kind given

end Node

end Pddl
