import Pddl.Command.Arguments
import Pddl.Loading
import Pddl.Node.Outline
import Pddl.Summary

/-!
# Commands

A command names a description file and says what to show of it: always the summary and the
requirement flags that are used but not declared, on demand the outline of the syntax tree and
the canonical form.  Its outcome is a function of the arguments and of the files: it ends with a
status, or an error escapes that it is not prepared for.

* `Command` : what is asked for of a description; `Request` : what is asked for at all.
* `Request.ofArguments` : the request that arguments make.
* `CommandError`, `Outcome` : what can go wrong, and how a command ends.
* `Command.run` : the outcome of a command, `Store.execute` that of arguments.
-/

namespace Pddl

/-! ### Requests -/

/-- What is asked for of a description. -/
structure Command where
  /-- What the file is to hold. -/
  kind : Description.Kind
  /-- The description file. -/
  path : String
  /-- The settings file, if there is one. -/
  settingsPath : Option String := none
  /-- The outline is to be shown. -/
  showsOutline : Bool := false
  /-- The canonical form is to be shown. -/
  showsRendering : Bool := false
  deriving DecidableEq

/-- What is asked for. -/
inductive Request where
  /-- Nothing; the usage is shown instead. -/
  | nothing
  /-- The usage. -/
  | help
  /-- Something of a description. -/
  | command (c : Command)
  deriving DecidableEq

/-- A parameter must name a file. -/
def Store.checkFile (s : Store) (parameter path : String) : Except UsageError Unit :=
  match s.lookUp path with
  | .file _ _ => .ok ()
  | .directory => .error (.directory parameter path)
  | .free _ | .nowhere | .blocked => .error (.missingFile parameter path)

/-- The settings file, which must exist if it is given. -/
def Store.checkSettings (s : Store) : Option String → Except UsageError Unit
  | none => .ok ()
  | some path => s.checkFile CommandOption.settingsFile.word path

/-- The description file, which is the only word and must exist. -/
def Store.checkWords (s : Store) : List String → Except UsageError String
  | [] => .error .missingPath
  | path :: further => do
    s.checkFile "PATH" path
    if further.isEmpty then return path else throw (.furtherArguments further)

/-- The command of a kind that arguments make.  Every file that is named must exist, the settings
file first. -/
def Command.ofArguments (s : Store) (kind : Description.Kind) (given : Arguments) :
    Except UsageError Command := do
  s.checkSettings given.settingsPath
  let path ← s.checkWords given.words
  return ⟨kind, path, given.settingsPath, given.has .outline, given.has .rendering⟩

namespace Request

/-- What a word in place of a command that is none amounts to: it may be an option after all. -/
def ofUnknown (word : String) (rest : List String) : Except UsageError Request := do
  let given ← Arguments.parse [.help] false {} (word :: rest)
  if given.has .help then return help
  throw (.unknownCommand word
    (similarWords word ((Vocabulary.members : List Description.Kind).map Description.Kind.word)))

/-- The request that arguments make. -/
def ofArguments (s : Store) : List String → Except UsageError Request
  | [] => return nothing
  | arguments => do
    let outer ← Arguments.parse [.help] false {} arguments
    if outer.has .help then return help
    match outer.words with
    | [] => throw .noCommand
    | word :: rest =>
      match Vocabulary.ofKeyword? word with
      | none => ofUnknown word rest
      | some kind =>
        let given ← Arguments.parse Vocabulary.members true {} rest
        if given.has .help then return help
        return command (← Command.ofArguments s kind given)

end Request

/-! ### Outcomes -/

/-- Why a command does not show what was asked for. -/
inductive CommandError where
  /-- There are no settings. -/
  | settings (path : String) (e : SettingsError)
  /-- There is no description. -/
  | load (e : LoadError)
  /-- The description has no written form. -/
  | unwritable (e : Unwritable)

namespace CommandError

/-- The wording of the error. -/
def message : CommandError → String
  | settings path e => e.message path
  | load e => e.message
  | unwritable e => e.message

/-- The command is prepared for the error: it tells what a file holds in place of settings or of a
description, not that there is no file or no text to read. -/
def isExpected : CommandError → Bool
  | settings _ .malformed | settings _ .noMapping | settings _ (.invalid _) => true
  | load (.unreadable _ _) => true
  | _ => false

end CommandError

/-- How a command ends. -/
inductive Outcome where
  /-- It printed the lines and ended with the status, which is zero for success. -/
  | ended (status : Nat) (lines : List String)
  /-- It printed the lines, and then an error that it is not prepared for put an end to it. -/
  | escaped (lines : List String) (e : CommandError)

/-- The status with which the program ends. -/
def Outcome.status : Outcome → Nat
  | ended status _ => status
  | escaped _ _ => 1

/-- What was printed. -/
def Outcome.lines : Outcome → List String
  | ended _ lines | escaped lines _ => lines

namespace Command

variable (c : Command)

/-- The outcome of an error that the command is prepared for. -/
def failed (message : String) : Outcome :=
  .ended 1 (("Failed to parse " ++ c.kind.word ++ " " ++ normalPath c.path ++ ": " ++
    message).splitOn "\n")

/-- What is shown of a description before its canonical form. -/
def overview (d : Description) : List String :=
  let undeclared := match d.undeclared with
    | [] => []
    | rs => ["Undeclared requirements: " ++ " ".intercalate (rs.map Requirement.keyword)]
  let outline := if c.showsOutline then ((toNode d).outline none).lines else []
  d.summary.lines ++ undeclared ++ outline

/-- The outcome when there is a description. -/
def report (d : Description) : Outcome :=
  if c.showsRendering then
    match (toNode d).render with
    | .ok text => .ended 0 (c.overview d ++ text.splitOn "\n")
    | .error e => .escaped (c.overview d) (.unwritable e)
  else .ended 0 (c.overview d)

/-- The settings under which the description is read. -/
def settings (s : Store) : Except CommandError Settings :=
  match c.settingsPath with
  | none => .ok .standard
  | some path => (s.loadSettings path).mapError (.settings path)

/-- The description; it is read when there are settings. -/
def description (s : Store) : Except CommandError Description := do
  (s.load c.kind c.path (← c.settings s)).mapError .load

/-- The outcome of a command. -/
def run (s : Store) : Outcome :=
  match c.description s with
  | .ok d => c.report d
  | .error e => if e.isExpected then c.failed e.message else .escaped [] e

end Command

/-- What the program is for. -/
def purpose : String := "Parse PDDL 3.1 domain and problem files."

/-- The outcome of arguments. -/
def Store.execute (s : Store) (arguments : List String) : Outcome :=
  match Request.ofArguments s arguments with
  | .error e => .ended 2 (("Error: " ++ e.message).splitOn "\n")
  | .ok .nothing => .ended 2 [purpose]
  | .ok .help => .ended 0 [purpose]
  | .ok (.command c) => c.run s

end Pddl
