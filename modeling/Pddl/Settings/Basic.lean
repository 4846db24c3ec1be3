import Pddl.Cursor
import Pddl.Number.Numeral
import Pddl.Vocabulary

/-!
# Settings

Three settings say how texts are read: the ceiling on nesting, whether a definition must be
followed by nothing, and from which level on the program reports what it does.  They are given by
name, as values of any sort, and a value of another sort is taken where it can only mean one
thing: a whole number may stand as a text, a truth value as a word or as one or zero.

* `Settings` : the settings; `Settings.standard` holds their defaults.
* `Datum` : what can be given as the value of a setting.
* `Settings.Complaint` : a setting that was given wrongly, and how.
* `Settings.ofFields` : the settings given by name, or everything that is wrong with them.
-/

namespace Pddl

/-- From which level on the program reports what it does. -/
inductive LogLevel where
  | debug | info | warning | error
  deriving DecidableEq, Repr

instance : Vocabulary LogLevel where
  title := "LogLevel"
  members := [.debug, .info, .warning, .error]
  keyword
    | .debug => "DEBUG"
    | .info => "INFO"
    | .warning => "WARNING"
    | .error => "ERROR"
  complete a := by cases a <;> simp

/-- How texts are read. -/
structure Settings where
  /-- How deeply constructs may nest. -/
  ceiling : Nat
  ceiling_pos : 0 < ceiling
  /-- Nothing but blanks and comments may follow. -/
  completeInput : Bool
  /-- From which level on the program reports what it does. -/
  logLevel : LogLevel

/-- The settings where nothing is said. -/
def Settings.standard : Settings := ⟨defaultCeiling, defaultCeiling_pos, true, .warning⟩

/-- What can be given as the value of a setting. -/
inductive Datum where
  /-- Nothing. -/
  | nothing
  /-- A truth value. -/
  | truth (b : Bool)
  /-- An integer. -/
  | integer (n : Int)
  /-- A binary64 value. -/
  | real (x : Binary64)
  /-- A text. -/
  | text (s : String)
  /-- A list or a mapping. -/
  | compound

namespace Settings

/-! ### Complaints -/

/-- How a setting can be given wrongly. -/
inductive Cause where
  /-- The text is no integer. -/
  | integerText
  /-- The number is too large for an integer. -/
  | integerSize
  /-- The number has a fractional part. -/
  | fraction
  /-- The number is not finite. -/
  | infinite
  /-- The value is no number at all. -/
  | noInteger
  /-- The integer is not positive. -/
  | notPositive
  /-- The text or number is no truth value. -/
  | truthText
  /-- The value can be no truth value. -/
  | noTruth
  /-- The value is no level. -/
  | unknownLevel
  /-- There is no such setting. -/
  | unknownSetting
  deriving DecidableEq, Repr

namespace Cause

/-- The cause as a single word. -/
def identifier : Cause → String
  | integerText => "int_parsing"
  | integerSize => "int_parsing_size"
  | fraction => "int_from_float"
  | infinite => "finite_number"
  | noInteger => "int_type"
  | notPositive => "greater_than"
  | truthText => "bool_parsing"
  | noTruth => "bool_type"
  | unknownLevel => "literal_error"
  | unknownSetting => "extra_forbidden"

/-- The cause in words. -/
def message : Cause → String
  | integerText => "Input should be a valid integer, unable to parse string as an integer"
  | integerSize => "Unable to parse input string as an integer, exceeded maximum size"
  | fraction => "Input should be a valid integer, got a number with a fractional part"
  | infinite => "Input should be a finite number"
  | noInteger => "Input should be a valid integer"
  | notPositive => "Input should be greater than 0"
  | truthText => "Input should be a valid boolean, unable to interpret input"
  | noTruth => "Input should be a valid boolean"
  | unknownLevel => "Input should be 'DEBUG', 'INFO', 'WARNING' or 'ERROR'"
  | unknownSetting => "Extra inputs are not permitted"

end Cause

/-- A setting that was given wrongly. -/
structure Complaint where
  /-- The name under which it was given. -/
  name : String
  /-- How it is wrong. -/
  cause : Cause
  deriving DecidableEq, Repr

/-! ### Values -/

/-- The digits behind leading zeros and underscores, given the character before them: at least one
character is kept, and the zero before a point. -/
def behindZeros? (previous : Char) : List Char → Option (List Char)
  | [] => some [previous]
  | c :: cs =>
    if c == '0' || c == '_' then behindZeros? c cs
    else if c == '.' then some (previous :: c :: cs)
    else if c.isDigit then some (c :: cs)
    else none

/-- The text of an integer without a plus sign and leading zeros.  There are none behind a minus
sign. -/
def withoutZerosBefore? : List Char → Option (List Char)
  | [] => none
  | c :: cs =>
    if c == '0' || c == '+' then behindZeros? c cs
    else if c.isDigit || c == '-' then some (c :: cs)
    else none

/-- The text of an integer without a fraction of zeros. -/
def withoutZeroPlaces (cs : List Char) : List Char :=
  match cs.dropWhile (· != '.') with
  | '.' :: places => if places.all (· == '0') then cs.takeWhile (· != '.') else cs
  | _ => cs

/-- The text of an integer without its underscores, each of which must stand alone and inside. -/
def withoutUnderscores (cs : List Char) : List Char :=
  let double := (cs.zip (cs.drop 1)).contains ('_', '_')
  if double || cs.head? == some '_' || cs.getLast? == some '_' then cs else cs.filter (· != '_')

/-- The integer that a text without superfluous characters denotes. -/
def plainInteger? (cs : List Char) : Option Int :=
  let (negative, digits) := match cs with
    | '-' :: cs => (true, cs)
    | cs => (false, cs)
  if digits.isEmpty || !digits.all Char.isDigit || (digits.head? == some '0' && digits.length != 1)
  then none
  else some (if negative then -natOfDigits digits else natOfDigits digits)

/-- The integer that a text denotes: white space around it, leading zeros, a fraction of zeros and
single underscores do not matter. -/
def integerOfText? (cs : List Char) : Option Int := do
  let cs ← withoutZerosBefore? (trimWhiteSpace cs)
  plainInteger? (withoutUnderscores (withoutZeroPlaces cs))

/-- The number beyond which a value with a point means no integer. -/
def integerBound : Nat := twoTo 63

/-- The integer that a number with a point means, if it is a whole number and not too large. -/
def integerOfNumber (x : Number) : Except Cause Int :=
  if !x.isInteger then .error .fraction
  else
    let n := x.signedUnits / unitsPerOne
    if n.natAbs < integerBound then .ok n else .error .integerSize

/-- The integer that a value means. -/
def integerOf : Datum → Except Cause Int
  | .truth b => .ok (if b then 1 else 0)
  | .integer n => .ok n
  | .real (.finite x) => integerOfNumber x
  | .real _ => .error .infinite
  | .text s =>
    match integerOfText? s.toList with
    | some n => .ok n
    | none => .error .integerText
  | _ => .error .noInteger

/-- The ceiling that a value means. -/
def ceilingOf (d : Datum) : Except Cause { n : Nat // 0 < n } := do
  let n ← integerOf d
  if h : 0 < n.toNat then return ⟨n.toNat, h⟩ else throw .notPositive

/-- The words for a truth value, in lower case. -/
def truthWords : Bool → List String
  | true => ["1", "t", "true", "y", "yes", "on"]
  | false => ["0", "f", "false", "n", "no", "off"]

/-- The truth value that a word means, in any case. -/
def truthOfWord? (word : String) : Option Bool :=
  let lower := String.ofList (word.toList.map Char.toLower)
  [true, false].find? fun b => (truthWords b).contains lower

/-- The truth value that an integer means; one that needs more than 64 bits cannot mean any. -/
def truthOfInteger (n : Int) : Except Cause Bool :=
  if n = 1 then .ok true
  else if n = 0 then .ok false
  else if -integerBound ≤ n ∧ n < integerBound then .error .truthText
  else .error .noTruth

/-- The truth value that a value means. -/
def truthOf : Datum → Except Cause Bool
  | .truth b => .ok b
  | .integer n => truthOfInteger n
  | .real (.finite x) =>
    match integerOfNumber x with
    | .ok n => truthOfInteger n
    | .error _ => .error .noTruth
  | .text s =>
    match truthOfWord? s with
    | some b => .ok b
    | none => .error .truthText
  | _ => .error .noTruth

/-- The level that a value means. -/
def levelOf : Datum → Except Cause LogLevel
  | .text s =>
    match Vocabulary.ofKeyword? s with
    | some level => .ok level
    | none => .error .unknownLevel
  | _ => .error .unknownLevel

/-! ### Settings by name -/

/-- The name of the ceiling on nesting. -/
def ceilingName : String := "max_nesting_depth"

/-- The name of the setting that nothing may follow a definition. -/
def completeInputName : String := "require_complete_input"

/-- The name of the level from which on the program reports what it does. -/
def logLevelName : String := "log_level"

/-- The names of the settings. -/
def names : List String := [ceilingName, completeInputName, logLevelName]

/-- The setting of a name, or its default if it is not given. -/
def given {α : Type} (fields : List (String × Datum)) (name : String) (default : α)
    (read : Datum → Except Cause α) : Except Complaint α :=
  match fields.lookup name with
  | none => .ok default
  | some d => (read d).mapError (Complaint.mk name)

/-- The complaint about a setting, if there is one. -/
def complaints {α : Type} : Except Complaint α → List Complaint
  | .ok _ => []
  | .error e => [e]

/-- The settings given by name, or everything that is wrong with them: first the known settings
in their order, then the unknown ones in the order in which they are given. -/
def ofFields (fields : List (String × Datum)) : Except (List Complaint) Settings :=
  let unknown := (fields.map Prod.fst).filter fun name => !names.contains name
  let extra := unknown.map fun name => Complaint.mk name .unknownSetting
  match given fields ceilingName ⟨standard.ceiling, standard.ceiling_pos⟩ ceilingOf,
      given fields completeInputName standard.completeInput truthOf,
      given fields logLevelName standard.logLevel levelOf,
      extra with
  | .ok ⟨ceiling, pos⟩, .ok completeInput, .ok logLevel, [] =>
    .ok ⟨ceiling, pos, completeInput, logLevel⟩
  | ceiling, completeInput, logLevel, extra =>
    .error (complaints ceiling ++ complaints completeInput ++ complaints logLevel ++ extra)

end Settings

end Pddl
