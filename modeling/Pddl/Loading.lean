import Pddl.Description
import Pddl.Node.Render
import Pddl.Reading
import Pddl.Settings.Document
import Pddl.Store

/-!
# Loading from a store

Descriptions and settings are loaded from the files of a store; a description can also be written
back in its canonical form.

* `Store.loadDomain`, `Store.loadProblem`, `Store.load` : the description that a file holds.
* `Store.loadSettings` : the settings that a file holds.
* `Store.Program` : a program that works on a store; `Store.normalize` writes the canonical form of a
  description.
* `LoadError`, `SettingsError`, `NormalizeError` : what can go wrong, with its wording.
-/

namespace Pddl

/-! ### Descriptions -/

/-- Why a file holds no description. -/
inductive LoadError where
  /-- There is no such file. -/
  | missing (path : String)
  /-- What is there cannot be read. -/
  | inaccessible (e : AccessError)
  /-- The file holds no text. -/
  | undecodable
  /-- The text holds no description. -/
  | unreadable (text : List Char) (failure : Failure)

/-- The wording of the error. -/
def LoadError.message : LoadError → String
  | missing path => "Cannot parse nonexistent PDDL file: " ++ path
  | inaccessible e => e.message
  | undecodable => "The file holds no UTF-8 text."
  | unreadable text failure => failure.message text

/-- The construct that a text holds, read by a rule. -/
def Rule.load {α : Type} (g : Rule α) (settings : Settings) (text : List Char) :
    Except LoadError α :=
  (g.read settings text).mapError (.unreadable text)

namespace Store

variable (s : Store)

/-- The text of a file. -/
def text (path : String) : Except LoadError (List Char) := do
  let path := normalPath path
  if !(s.lookUp path).isThere then throw (.missing path)
  let bytes ← (s.open? path).mapError .inaccessible
  match textOf? bytes with
  | none => throw .undecodable
  | some text => return text

/-- The domain that a file holds. -/
def loadDomain (path : String) (settings : Settings) : Except LoadError Domain := do
  Rule.domain.load settings (← s.text path)

/-- The problem that a file holds. -/
def loadProblem (path : String) (settings : Settings) : Except LoadError Problem := do
  Rule.problem.load settings (← s.text path)

/-- The description that a file holds. -/
def load (kind : Description.Kind) (path : String) (settings : Settings) :
    Except LoadError Description :=
  match kind with
  | .domain => (s.loadDomain path settings).map .domain
  | .problem => (s.loadProblem path settings).map .problem

end Store

/-! ### Settings -/

/-- Why a file holds no settings. -/
inductive SettingsError where
  /-- There is no such file. -/
  | missing
  /-- What is there cannot be read. -/
  | inaccessible (e : AccessError)
  /-- The file holds no text. -/
  | undecodable
  /-- The text is no document. -/
  | malformed
  /-- The document is no mapping. -/
  | noMapping
  /-- The settings are wrong. -/
  | invalid (complaints : List Settings.Complaint)

/-- The wording of the error about a file. -/
def SettingsError.message (path : String) : SettingsError → String
  | missing => "Cannot load settings from nonexistent YAML file: " ++ normalPath path
  | inaccessible e => e.message
  | undecodable => "The file holds no UTF-8 text."
  | malformed => "Failed to load from YAML file: " ++ normalPath path
  | noMapping => "Expected a mapping of settings in " ++ normalPath path ++ "."
  | invalid complaints =>
    "Validation error in " ++ normalPath path ++ ": " ++ toString complaints.length ++
      (if complaints.length = 1 then " validation error" else " validation errors") ++
      " for ParserSettings"

/-- The settings of a document. -/
def Settings.ofDocument : Settings.Document → Except SettingsError Settings
  | .fields fields => (Settings.ofFields fields).mapError .invalid
  | .other => .error .noMapping
  | .malformed => .error .malformed

/-- The settings that a file holds. -/
def Store.loadSettings (s : Store) (path : String) : Except SettingsError Settings := do
  let path := normalPath path
  if !(s.lookUp path).isThere then throw .missing
  let bytes ← (s.open? path).mapError .inaccessible
  match textOf? bytes with
  | none => throw .undecodable
  | some text => Settings.ofDocument (.ofText text)

/-! ### Canonical files -/

/-- Why a file is not written in canonical form. -/
inductive NormalizeError where
  /-- The output file is there already. -/
  | existing (path : String)
  /-- The input file holds no description. -/
  | load (e : LoadError)
  /-- The description has no written form. -/
  | unwritable (e : Unwritable)
  /-- The output file cannot be written. -/
  | inaccessible (e : AccessError)

/-- The wording of the error. -/
def NormalizeError.message : NormalizeError → String
  | existing path => "Cannot overwrite existing output path: " ++ path
  | load e => e.message
  | unwritable e => e.message
  | inaccessible e => e.message

namespace Store

/-- A program that works on a store.  What it did before a failure stays done. -/
abbrev Program (ε α : Type) := EStateM ε Store α

namespace Program

variable {ε α : Type}

/-- What is read off the store, which stays as it is. -/
def reads (f : Store → Except ε α) : Program ε α := fun s =>
  match f s with
  | .ok a => .ok a s
  | .error e => .error e s

/-- The store gets the contents at a path. -/
def saves (path : String) (bytes : ByteArray) : Program AccessError Unit := fun s =>
  match s.save path bytes with
  | .ok s' => .ok () s'
  | .error e => .error e s

end Program

/-- Writes the canonical form of the description in the input file to the output file. -/
def normalize (kind : Description.Kind) (input output : String) (overwrite : Bool) :
    Program NormalizeError Unit := do
  let output := normalPath output
  if !overwrite && ((← get).lookUp output).isThere then throw (.existing output)
  let description ← Program.reads fun s => (s.load kind input .standard).mapError .load
  let text ← Program.reads fun _ => (toNode description).render.mapError .unwritable
  EStateM.adaptExcept .inaccessible (Program.saves output (text ++ "\n").toUTF8)

end Store

end Pddl
