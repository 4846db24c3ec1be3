import Pddl.Settings.Scalar

/-!
# Settings documents

Settings can be kept in a file, in the simplest shapes of YAML: a line `name: value` for each
setting, and comments from a hash sign on.  Of values that go on in further lines, or in brackets,
no more is kept than that they are no simple values.

* `Settings.Document` : the fields of a mapping, a document that holds something else, or none.
* `Settings.Document.ofText` : the document that a text is.
* `Settings.Value` : what stands behind a name or for a whole document.
-/

namespace Pddl

namespace Settings

/-! ### Values -/

/-- What stands behind a name or for a whole document. -/
inductive Value where
  /-- Nothing; what is meant stands in the lines below. -/
  | absent
  /-- A scalar without quotes, which can go on in the lines below. -/
  | plain (cs : List Char)
  /-- A scalar in quotes. -/
  | quoted (cs : List Char)
  /-- A list or a mapping in brackets. -/
  | bracketed (cs : List Char)

/-- Nothing but blanks and a comment. -/
def isOver (cs : List Char) : Bool :=
  (cs.dropWhile (· == ' ')).head?.all (· == '#')

/-- The line without its comment, which begins at a hash sign at the beginning or behind a blank, and
without the blanks at its end. -/
def withoutComment (afterBlank : Bool) : List Char → List Char
  | [] => []
  | c :: cs =>
    if c == '#' && afterBlank then []
    else
      let rest := withoutComment (c == ' ') cs
      if c == ' ' && rest.isEmpty then [] else c :: rest

/-- The character ends a name, a list entry or a question if it stands behind its sign. -/
def endsSign (c : Option Char) : Bool := c.all fun c => c == ' ' || c == '\t'

/-- What is before and behind the first colon that ends a name. -/
def divided? : List Char → Option (List Char × List Char)
  | [] => none
  | c :: cs =>
    if c == ':' && endsSign cs.head? then some ([], cs)
    else (divided? cs).map fun (name, value) => (c :: name, value)

/-- The characters that begin no scalar without quotes. -/
def reservedStarts : List Char :=
  ['%', '@', '\x60', '&', '*', '!', '|', '>', ',', ']', '\x7d']

/-- The characters may stand for a scalar without quotes: they hold no tab and no further name, and
do not begin with a sign. -/
def canBePlain (cs : List Char) : Bool :=
  !cs.contains '\t' && (divided? cs).isNone && !cs.head?.any reservedStarts.contains &&
    !(cs.head?.any ['-', '?'].contains && endsSign (cs.drop 1).head?) && cs != ['='] &&
    cs != ['<', '<']

/-- The bracket that closes a list or a mapping on one line. -/
def closingBracket? : Char → Option Char
  | '[' => some ']'
  | '\x7b' => some '\x7d'
  | _ => none

/-- The value that the rest of a line holds, unless it is malformed. -/
def Value.ofLine? (cs : List Char) : Option Value :=
  let cs := cs.dropWhile (· == ' ')
  if isOver cs then some .absent
  else
    let content := withoutComment false cs
    match cs with
    | '\x22' :: rest => do
      let (text, rest) ← Scalar.doubleQuoted? 0 rest
      if isOver rest then some (.quoted text) else none
    | '\x27' :: rest => do
      let (text, rest) ← Scalar.singleQuoted? rest
      if isOver rest then some (.quoted text) else none
    | c :: _ =>
      match closingBracket? c with
      | some close => if content.getLast? == some close then some (.bracketed content) else none
      | none => if canBePlain content then some (.plain content) else none
    | [] => some .absent

/-- The datum of a value that does not go on. -/
def Value.datum : Value → Datum
  | absent => .nothing
  | plain cs => Scalar.plain cs
  | quoted cs => .text (String.ofList cs)
  | bracketed _ => .compound

/-! ### Lines -/

/-- The number of blanks in front of a line. -/
def indent (line : List Char) : Nat := (line.takeWhile (· == ' ')).length

/-- The line is an entry of a list. -/
def isEntry (line : List Char) : Bool := line.head? == some '-' && endsSign (line.drop 1).head?

/-- The name and the value of a line, if a colon divides it. -/
def named? (line : List Char) : Option (List Char × List Char) :=
  match line with
  | '\x22' :: rest => do
    let (name, rest) ← Scalar.doubleQuoted? 0 rest
    let ([], value) ← divided? (rest.dropWhile (· == ' ')) | none
    return (name, value)
  | '\x27' :: rest => do
    let (name, rest) ← Scalar.singleQuoted? rest
    let ([], value) ← divided? (rest.dropWhile (· == ' ')) | none
    return (name, value)
  | _ => do
    let (name, value) ← divided? line
    if (withoutComment true line).length < name.length then none
    return (withoutComment false name, value)

/-- A simple value that goes on in the given lines, or lines that hold a value of their own. -/
def datumBelow? (value : Value) (below : List (List Char)) : Option Datum :=
  let below := below.map (·.dropWhile (· == ' '))
  match value, below with
  | value, [] => some value.datum
  | .absent, [line] =>
    if isEntry line || (named? line).isSome then some .compound
    else (Value.ofLine? line).map Value.datum
  | .absent, _ => some .compound
  | .plain cs, below =>
    let parts := below.map (withoutComment false)
    if parts.all canBePlain then
      some (.text (String.ofList ([' '].intercalate (cs :: parts))))
    else none
  | _, _ => none

/-- The lines in groups: a line without indentation, and those below it that belong to it. -/
def groups : List (List Char) → List (List Char × List (List Char))
  | [] => []
  | line :: lines =>
    match groups lines with
    | [] => [(line, [])]
    | (next, below) :: rest =>
      if indent next = 0 && !isEntry next then (line, []) :: (next, below) :: rest
      else (line, next :: below) :: rest

/-- The field of a line and the lines below it, unless it is malformed. -/
def field? (line : List Char) (below : List (List Char)) : Option (String × Datum) := do
  let (name, value) ← named? line
  if !canBePlain name then none
  return (String.ofList name, ← datumBelow? (← Value.ofLine? value) below)

/-! ### Documents -/

/-- What a settings document holds. -/
inductive Document where
  /-- Settings by name; there are none in an empty document. -/
  | fields (fields : List (String × Datum))
  /-- Something else. -/
  | other
  /-- Nothing that can be made out. -/
  | malformed

/-- The fields with only the last one of each name, at the place of the first. -/
def lastOfEach (fields : List (String × Datum)) : List (String × Datum) :=
  fields.foldl (fun kept (name, d) =>
    if kept.any (·.1 == name) then
      kept.map fun field => if field.1 == name then (name, d) else field
    else kept ++ [(name, d)]) []

/-- The character may stand in a document. -/
def isDocumentChar (c : Char) : Bool :=
  let n := c.toNat
  n == 9 || n == 10 || n == 13 || (0x20 ≤ n && n ≤ 0x7E) || n == 0x85 || (0xA0 ≤ n && n ≤ 0xFFFD) ||
    0x10000 ≤ n

/-- The lines of a text that hold more than a comment, without the marks of beginning and end. -/
def contentLines (cs : List Char) : List (List Char) :=
  let lines := ((if cs.head? == some '\uFEFF' then cs.drop 1 else cs).splitOn '\n').filter
    fun line => !isOver line
  let lines := if lines.head? == some "---".toList then lines.drop 1 else lines
  if lines.getLast? == some "...".toList then lines.dropLast else lines

/-- The fields of a mapping in brackets, of simple values only. -/
def bracketedFields? (cs : List Char) : Option (List (String × Datum)) :=
  let inside := (cs.drop 1).dropLast
  if isOver inside then some []
  else (inside.splitOn ',').mapM fun part => field? (part.dropWhile (· == ' ')) []

/-- The document that a single value is. -/
def Document.ofValue : Value → Document
  | .bracketed cs =>
    if cs.head? != some '\x7b' then other
    else
      match bracketedFields? cs with
      | some given => fields (lastOfEach given)
      | none => malformed
  | value =>
    match value.datum with
    | .nothing => fields []
    | _ => other

/-- The document that lines are: a list, a mapping, or a single value. -/
def Document.ofLines : List (List Char) → Document
  | [] => fields []
  | first :: rest =>
    let all := first :: rest
    if isEntry first then other
    else if (named? first).isSome && closingBracket? (first.headD ' ') = none then
      match (groups all).mapM fun (line, below) => field? line below with
      | some given => fields (lastOfEach given)
      | none => malformed
    else
      match all.mapM Value.ofLine? with
      | none => malformed
      | some [value] => ofValue value
      | some values =>
        if values.all fun
          | .plain _ => true
          | _ => false
        then other
        else malformed

/-- The document that a text is.  Its lines may all be indented as the first one is. -/
def Document.ofText (cs : List Char) : Document :=
  if !cs.all isDocumentChar then .malformed
  else
    let lines := contentLines cs
    let depth := indent (lines.headD [])
    if lines.all fun line => depth ≤ indent line then .ofLines (lines.map (·.drop depth))
    else .malformed

end Settings

end Pddl
