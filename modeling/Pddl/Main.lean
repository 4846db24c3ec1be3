import Pddl.Command

/-!
# The program

Looks at what is along the paths that the arguments name, lets the command decide on its outcome,
prints it and ends with its status.
-/

namespace Pddl

/-- The paths among the arguments: any of them may be one. -/
def candidates (arguments : List String) : List String :=
  arguments ++ arguments.filterMap fun argument => (joinedValue argument).2

/-- The locations on the way along a path. -/
def locationsOn (workingDirectory : Location) (path : String) : List Location :=
  (stepsOf path).scanl Location.step (if isAbsolute path then [] else workingDirectory)

/-- What is at a location. -/
def entryAt (location : Location) : IO (Option Entry) := do
  let path := "/" ++ "/".intercalate location
  try return some (.file (← IO.FS.readBinFile path))
  catch _ =>
    try
      discard <| IO.FS.realPath (path ++ "/.")
      return some .directory
    catch _ => return none

/-- The store of what is along paths. -/
def storeAlong (paths : List String) : IO Store := do
  let workingDirectory := stepsOf (← IO.currentDir).toString
  let mut entries := []
  for location in paths.flatMap (locationsOn workingDirectory) do
    if let some entry ← entryAt location then entries := (location, entry) :: entries
  return ⟨entries, workingDirectory⟩

end Pddl

open Pddl in
/-- Runs the command that the arguments make. -/
def main (arguments : List String) : IO UInt32 := do
  let outcome := (← storeAlong (candidates arguments)).execute arguments
  for line in outcome.lines do
    if outcome.status = 2 then IO.eprintln line else IO.println line
  if let .escaped _ e := outcome then IO.eprintln e.message
  return outcome.status.toUInt32
