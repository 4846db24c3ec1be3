import Pddl.Text.Quoted
import Pddl.Text.Similarity
import Pddl.Vocabulary

/-!
# Arguments

The arguments of the program are options, the values of options, and plain words.  An option
begins with a hyphen; its value follows it or is joined to it by an equals sign; behind two hyphens
nothing is an option.

* `CommandOption` : the options; `CommandOption.read` makes one out.
* `UsageError` : arguments that make no command, with the wording.
* `Arguments` : what arguments say; `Arguments.parse` takes them apart.
-/

namespace Pddl

/-! ### Options -/

/-- An option. -/
inductive CommandOption where
  /-- The outline is to be shown. -/
  | outline
  /-- The canonical form is to be shown. -/
  | rendering
  /-- The settings are in a file. -/
  | settingsFile
  /-- The usage is to be shown. -/
  | help
  deriving DecidableEq, Repr

instance : Vocabulary CommandOption where
  title := "Option"
  members := [.outline, .rendering, .settingsFile, .help]
  keyword
    | .outline => "--tree"
    | .rendering => "--pddl"
    | .settingsFile => "--config"
    | .help => "--help"
  complete a := by cases a <;> simp

namespace CommandOption

/-- The option as a word. -/
def word (o : CommandOption) : String := Vocabulary.keyword o

/-- The option has a value. -/
def takesValue : CommandOption → Bool
  | settingsFile => true
  | _ => false

end CommandOption

/-! ### Errors -/

/-- Arguments that make no command. -/
inductive UsageError where
  /-- There is no command. -/
  | noCommand
  /-- The command is unknown; the known ones that resemble it. -/
  | unknownCommand (word : String) (similar : List String)
  /-- The option is unknown; the known ones that resemble it. -/
  | unknownOption (word : String) (similar : List String)
  /-- The option needs a value. -/
  | missingValue (o : CommandOption)
  /-- The option takes no value. -/
  | needlessValue (o : CommandOption)
  /-- There is no description file. -/
  | missingPath
  /-- The file that a parameter names does not exist. -/
  | missingFile (parameter path : String)
  /-- The file that a parameter names is a directory. -/
  | directory (parameter path : String)
  /-- There are more arguments than needed. -/
  | furtherArguments (arguments : List String)
  deriving DecidableEq

/-- A hint at words that resemble an unknown one. -/
def similarityHint (similar : List String) : String :=
  match similar.mergeSort fun a b => a ≤ b with
  | [] => ""
  | [one] => " Did you mean " ++ displayText one ++ "?"
  | several => " (Did you mean one of: " ++ ", ".intercalate (several.map displayText) ++ "?)"

/-- The wording of the error. -/
def UsageError.message : UsageError → String
  | noCommand => "Missing command."
  | unknownCommand word similar =>
    "No such command " ++ displayText word ++ "." ++ similarityHint similar
  | unknownOption word similar =>
    "No such option " ++ displayText word ++ "." ++ similarityHint similar
  | missingValue o => "Option " ++ displayText o.word ++ " requires an argument."
  | needlessValue o => "Option " ++ displayText o.word ++ " does not take a value."
  | missingPath => "Missing argument 'PATH'."
  | missingFile parameter path =>
    "Invalid value for " ++ displayText parameter ++ ": File " ++ displayText path ++
      " does not exist."
  | directory parameter path =>
    "Invalid value for " ++ displayText parameter ++ ": File " ++ displayText path ++
      " is a directory."
  | furtherArguments arguments =>
    "Got unexpected extra argument" ++ (if arguments.length = 1 then "" else "s") ++ " (" ++
      " ".intercalate arguments ++ ")"

/-! ### Taking arguments apart -/

/-- The name and the value of an option that are joined by an equals sign. -/
def joinedValue (argument : String) : String × Option String :=
  match argument.toList.dropWhile (· != '=') with
  | [] => (argument, none)
  | _ :: value => (String.ofList (argument.toList.takeWhile (· != '=')), some (String.ofList value))

/-- The argument begins like an option. -/
def isOption (argument : String) : Bool :=
  argument.toList.head? == some '-' && argument.length != 1

/-- The unknown option in an argument: a long one with all its letters, a short one with a single
letter.  Only long options are compared with known ones. -/
def unknownOptionIn (known : List CommandOption) (argument : String) : UsageError :=
  match argument.toList with
  | '-' :: '-' :: _ =>
    let name := (joinedValue argument).1
    .unknownOption name (similarWords name (known.map CommandOption.word))
  | cs => .unknownOption (String.ofList (cs.take 2)) []

/-- The option in an argument, and the value joined to it. -/
def CommandOption.read (known : List CommandOption) (argument : String) :
    Except UsageError (CommandOption × Option String) :=
  let (name, value) := joinedValue argument
  match known.find? fun o => o.word == name with
  | none => .error (unknownOptionIn known argument)
  | some o => if value.isSome && !o.takesValue then .error (.needlessValue o) else .ok (o, value)

/-- What arguments say. -/
structure Arguments where
  /-- The options without a value. -/
  flags : List CommandOption := []
  /-- The settings file; of several the last one. -/
  settingsPath : Option String := none
  /-- The plain words. -/
  words : List String := []

namespace Arguments

/-- The option is there. -/
def has (given : Arguments) (o : CommandOption) : Bool := given.flags.contains o

/-- What further arguments say.  Unless options may follow plain words, the first plain word ends
the options. -/
def parse (known : List CommandOption) (optionsFollow : Bool) (given : Arguments) :
    List String → Except UsageError Arguments
  | [] => .ok given
  | "--" :: rest => .ok { given with words := given.words ++ rest }
  | argument :: rest =>
    if !isOption argument then
      if optionsFollow then
        parse known optionsFollow { given with words := given.words ++ [argument] } rest
      else .ok { given with words := given.words ++ argument :: rest }
    else
      match CommandOption.read known argument with
      | .error e => .error e
      | .ok (_, some path) => parse known optionsFollow { given with settingsPath := some path } rest
      | .ok (o, none) =>
        if o.takesValue then
          match rest with
          | [] => .error (.missingValue o)
          | path :: rest => parse known optionsFollow { given with settingsPath := some path } rest
        else parse known optionsFollow { given with flags := o :: given.flags } rest

end Arguments

end Pddl
