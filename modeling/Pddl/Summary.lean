import Pddl.Description

/-!
# Summaries

A summary counts the sections of a description in a table of two columns.

* `Summary` : a title and the rows of the table.
* `Description.summary` : the summary of a description.
* `Summary.lines` : the table drawn with lines, its title centred above it.
-/

namespace Pddl

/-- A table of sections and their contents. -/
structure Summary where
  /-- The title. -/
  title : String
  /-- The rows. -/
  rows : List (String × String)
  deriving DecidableEq, Repr

/-! ### Descriptions -/

/-- The declared flags in words. -/
def Requirements.inWords (rs : Requirements) : String :=
  if rs.isEmpty then "(:strips implied)" else " ".intercalate (rs.declared.map Requirement.keyword)

/-- The summary of a domain. -/
def Domain.summary (d : Domain) : Summary :=
  let names := d.actions.map (·.symbol.text) ++ d.durativeActions.map (·.symbol.text)
  let names := if names.isEmpty then "-" else ", ".intercalate names
  { title := "Domain: " ++ d.name.text
    rows := [
      ("Requirements", d.requirements.inWords),
      ("Types", toString d.types.items.length),
      ("Constants", toString d.constants.items.length),
      ("Predicates", toString d.predicates.length),
      ("Functions", toString d.functions.items.length),
      ("Structure", toString d.definitions.length ++ " (" ++ names ++ ")")] }

/-- The summary of a problem. -/
def Problem.summary (p : Problem) : Summary where
  title := "Problem: " ++ p.name.text
  rows := [
    ("Domain", p.domain.text),
    ("Requirements", p.requirements.inWords),
    ("Objects", toString p.objects.items.length),
    ("Init", toString p.init.length),
    ("Goal", toString p.goal.goals.length),
    ("Metric", (p.metric.map fun m => Vocabulary.keyword m.optimization).getD "-")]

/-- The summary of a description. -/
def Description.summary : Description → Summary
  | domain d => d.summary
  | problem p => p.summary

/-! ### Tables -/

namespace Summary

/-- The headings of the two columns. -/
def headings : String × String := ("Section", "Contents")

/-- A text with blanks behind it up to a width. -/
def padRight (width : Nat) (s : String) : String :=
  s ++ String.ofList (List.replicate (width - s.length) ' ')

/-- A number of copies of a character. -/
def rule (width : Nat) (c : Char) : String := String.ofList (List.replicate width c)

variable (s : Summary)

/-- The width of a column: that of its widest cell. -/
def width (column : String × String → String) : Nat :=
  ((headings :: s.rows).map fun row => (column row).length).foldl max 0

/-- A line across both columns. -/
def across (left middle right line : Char) : String :=
  rule 1 left ++ rule (s.width Prod.fst + 2) line ++ rule 1 middle ++
    rule (s.width Prod.snd + 2) line ++ rule 1 right

/-- A row of the table between upright lines. -/
def row (upright : String) (cells : String × String) : String :=
  upright ++ " " ++ padRight (s.width Prod.fst) cells.1 ++ " " ++ upright ++ " " ++
    padRight (s.width Prod.snd) cells.2 ++ " " ++ upright

/-- The title, centred above the table. -/
def heading : String :=
  let whole := s.width Prod.fst + s.width Prod.snd + 7
  rule ((whole - s.title.length) / 2) ' ' ++ s.title

/-- The lines of the table under its title. -/
def lines : List String :=
  [s.heading, s.across '┏' '┳' '┓' '━', s.row "┃" headings, s.across '┡' '╇' '┩' '━'] ++
    s.rows.map (s.row "│") ++ [s.across '└' '┴' '┘' '─']

end Summary

end Pddl
