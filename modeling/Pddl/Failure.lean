import Pddl.Lexeme
import Pddl.Text.Position

/-!
# Failures

Reading a text can fail in three ways: something expected is not there, the nesting exceeds its
ceiling, or a number is beyond every finite value.  Only the first kind can be recovered from, and
not all of that: an unknown requirement flag is final.

* `Expectation` : what was expected, with its wording.
* `Mismatch` : an expectation that failed at an offset; `Mismatch.committed` is a final one.
* `Failure` : the three ways to fail; `Failure.recoverable?` is what an alternative may catch.
* `Failure.message` : the wording, with the position in the text.
-/

namespace Pddl

/-- What was expected at a place. -/
inductive Expectation where
  /-- A lexeme of a class. -/
  | token (t : Token)
  /-- A fixed word. -/
  | word (w : String)
  /-- One of several fixed words. -/
  | oneOf (ws : List String)
  /-- An integer. -/
  | integer
  /-- Blanks between two elements. -/
  | separation
  /-- One of no alternatives. -/
  | alternative
  /-- A second operand for an operator that is no sign. -/
  | secondOperand (op : String)
  /-- Two operands for an operator that takes no more. -/
  | twoOperands (op : String)
  /-- A known requirement flag. -/
  | requirementFlag
  /-- The end of the text. -/
  | endOfInput
  /-- Something that is described in words. -/
  | described (words : String)
  deriving DecidableEq, Repr

/-- A word in quotes. -/
def quoted (word : String) : String := "'" ++ word ++ "'"

/-- The wording of an expectation. -/
def Expectation.description : Expectation → String
  | token t => t.description
  | word w => quoted w
  | oneOf ws => " or ".intercalate (ws.map quoted)
  | integer => "an integer"
  | separation => "whitespace"
  | alternative => "an alternative"
  | secondOperand op => "a second operand for " ++ quoted op
  | twoOperands op => "exactly two operands for " ++ quoted op
  | requirementFlag => "a requirement flag"
  | endOfInput => "the end of input"
  | described words => words

/-- Why a mismatch is more than an expectation that failed. -/
inductive Mismatch.Cause where
  /-- It is not. -/
  | unmatched
  /-- A requirement flag is unknown. -/
  | unknownRequirement
  /-- Something is left of a text that was to be read as a whole. -/
  | trailingInput
  deriving DecidableEq, Repr

/-- An expectation that failed at an offset. -/
structure Mismatch where
  /-- Why it failed. -/
  cause : Mismatch.Cause
  /-- What was expected. -/
  expected : Expectation
  /-- Where it was expected. -/
  offset : Nat
  deriving DecidableEq, Repr

/-- The mismatch is final: no alternative, list or optional section recovers from it. -/
def Mismatch.committed (m : Mismatch) : Bool := m.cause == .unknownRequirement

/-- A failure to read a text. -/
inductive Failure where
  /-- Something expected is not there. -/
  | mismatch (m : Mismatch)
  /-- Constructs are nested more deeply than the ceiling allows. -/
  | tooDeep (ceiling offset : Nat)
  /-- A number is beyond every finite value. -/
  | infiniteNumber
  deriving DecidableEq, Repr

namespace Failure

/-- The mismatch that an alternative may recover from. -/
def recoverable? : Failure → Option Mismatch
  | mismatch m => if m.committed then none else some m
  | _ => none

/-- The offset of the failure, if it has one. -/
def offset? : Failure → Option Nat
  | mismatch m => some m.offset
  | tooDeep _ offset => some offset
  | infiniteNumber => none

/-- The position of an offset, in words. -/
def placeInWords (text : List Char) (offset : Nat) : String :=
  let p := Position.of text offset
  " at line " ++ toString p.line ++ ", column " ++ toString p.column ++ "."

/-- The wording of the failure to read the given text. -/
def message (text : List Char) : Failure → String
  | mismatch m => "Expected " ++ m.expected.description ++ placeInWords text m.offset
  | tooDeep ceiling offset =>
    "Expressions nested deeper than " ++ toString ceiling ++ " levels" ++ placeInWords text offset
  | infiniteNumber => "PDDL numbers must be finite, got inf."

end Failure

end Pddl
