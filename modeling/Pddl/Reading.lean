import Pddl.Grammar.Production
import Pddl.Settings.Basic

/-!
# Reading whole texts

A whole text is read from its beginning, under settings.  What the rule leaves must be blank,
unless the settings allow anything to follow.

* `Rule.read` : the construct that a text holds, or why it holds none.
* `Rule.readOnStack`, `Rule.parseEnclosed` : the same on a stack that bounds the nesting as well;
  where it ends first, the nesting counts as too deep from the beginning.
-/

namespace Pddl

namespace Rule

variable {α : Type}

/-- The construct that a text holds. -/
def read (g : Rule α) (settings : Settings) (text : List Char) : Except Failure α :=
  match g.parse (Cursor.ofText text settings.ceiling) with
  | .error e => .error e
  | .ok (c, a) =>
    let rest := c.skipBlanks
    if settings.completeInput && !rest.atEnd then
      .error (.mismatch (rest.mismatchHere .trailingInput .endOfInput))
    else .ok a

/-! ### Bounded stacks -/

/-- How many levels of nesting the stack is sure to hold. -/
def stackLevels : Nat := 1000

theorem stackLevels_pos : 0 < stackLevels := by decide

/-- The construct that a text holds, read on a bounded stack. -/
def readOnStack (g : Rule α) (settings : Settings) (text : List Char) : Except Failure α :=
  if settings.ceiling ≤ stackLevels then g.read settings text
  else
    match g.read { settings with ceiling := stackLevels, ceiling_pos := stackLevels_pos } text with
    | .error (.tooDeep _ _) => .error (.tooDeep settings.ceiling 0)
    | r => r

/-- A construct in a number of pairs of parentheses, on a stack that holds some of them. -/
def enclosedWithin (g : Rule α) : (stack pairs : Nat) → Parser α
  | _, 0, c => g.parse c
  | 0, _ + 1, c => .error (.tooDeep c.ceiling 0)
  | stack + 1, pairs + 1, c => do
    let (c, _) ← parse (Grammar.terminal (.char '(') <* Grammar.blanks) c
    let (c, a) ← enclosedWithin g stack pairs c
    let (c, _) ← parse (Grammar.blanks *> Grammar.terminal (.char ')')) c
    return (c, a)

/-- A construct in a number of pairs of parentheses, on a bounded stack. -/
def parseEnclosed (g : Rule α) (pairs : Nat) (text : List Char) : Except Failure α :=
  (enclosedWithin g stackLevels pairs (Cursor.ofText text defaultCeiling)).map Prod.snd

end Rule

end Pddl
