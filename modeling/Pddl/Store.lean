import Pddl.Text.Quoted

/-!
# Stores

A store holds files and directories by location.  Files hold bytes; a text file holds a text in
UTF-8, whose lines may end in a carriage return, a line feed or both.

* `textOf?` : the text that bytes hold, with a line feed at the end of every line.
* `normalPath` : a path without steps to the place itself.
* `Store` : what is there; `Store.get?` and `Store.write` are all that is done with it.
* `Store.lookUp` : what a path leads to, a `Place`.  It is followed one part after another, from the
  root or from the working directory, through directories that are there.
* `Store.open?`, `Store.save` : reading and writing by path; an `AccessError` says why it fails.
-/

namespace Pddl

/-! ### Texts -/

/-- The text with a line feed at the end of every line. -/
def unifyLineEnds : List Char → List Char
  | [] => []
  | '\r' :: '\n' :: cs => '\n' :: unifyLineEnds cs
  | '\r' :: cs => '\n' :: unifyLineEnds cs
  | c :: cs => c :: unifyLineEnds cs

/-- The text that bytes hold. -/
def textOf? (bytes : ByteArray) : Option (List Char) :=
  (String.fromUTF8? bytes).map fun s => unifyLineEnds s.toList

/-! ### Paths -/

/-- The parts of a path between its slashes. -/
def partsOf (path : String) : List String := (path.toList.splitOn '/').map String.ofList

/-- The part of a path is a step to the place itself. -/
def stays (part : String) : Bool := part == "" || part == "."

/-- The steps of a path that lead somewhere. -/
def stepsOf (path : String) : List String := (partsOf path).filter fun part => !stays part

/-- The path begins at the root. -/
def isAbsolute (path : String) : Bool := path.toList.head? == some '/'

/-- The slashes in front of a normal path: exactly two of them are kept, any other number is one. -/
def rootOf (path : String) : String :=
  match (path.toList.takeWhile (· == '/')).length with
  | 0 => ""
  | 2 => "//"
  | _ => "/"

/-- The path without empty parts and without steps to the place itself. -/
def normalPath (path : String) : String :=
  if (stepsOf path).isEmpty && rootOf path == "" then "."
  else rootOf path ++ "/".intercalate (stepsOf path)

/-! ### Stores -/

/-- Where something is: the names that lead to it from the root. -/
abbrev Location := List String

/-- What can be at a location. -/
inductive Entry where
  /-- A file with its contents. -/
  | file (bytes : ByteArray)
  /-- A directory. -/
  | directory

/-- Files and directories by location. -/
structure Store where
  /-- What is there. -/
  entries : List (Location × Entry) := [([], .directory)]
  /-- The directory in which relative paths begin. -/
  workingDirectory : Location := []

namespace Store

variable (s : Store)

/-- What is at a location, if there is something. -/
def get? (location : Location) : Option Entry := s.entries.lookup location

/-- The store with new contents of a file. -/
def write (location : Location) (bytes : ByteArray) : Store :=
  { s with
    entries := (location, .file bytes) :: s.entries.filter fun entry => entry.1 != location }

@[simp] theorem workingDirectory_write (location : Location) (bytes : ByteArray) :
    (s.write location bytes).workingDirectory = s.workingDirectory := rfl

theorem get?_write_self (location : Location) (bytes : ByteArray) :
    (s.write location bytes).get? location = some (.file bytes) := by
  simp [write, get?]

theorem get?_write_of_ne {location other : Location} (bytes : ByteArray) (h : other ≠ location) :
    (s.write location bytes).get? other = s.get? other := by
  have hne : (other == location) = false := by simpa using h
  simp only [write, get?, List.lookup_cons, hne]
  induction s.entries with
  | nil => rfl
  | cons entry entries ih =>
    rcases entry with ⟨here, e⟩
    by_cases hn : here = location
    · subst hn; simp [List.lookup_cons, hne, ih]
    · by_cases ho : other = here
      · subst ho; simp [hn]
      · have hon : (other == here) = false := by simpa using ho
        simp [List.lookup_cons, hn, hon, ih]

end Store

/-! ### Places -/

/-- What a path leads to. -/
inductive Place where
  /-- A file, at a location. -/
  | file (location : Location) (bytes : ByteArray)
  /-- A directory. -/
  | directory
  /-- Nothing, but a file can be put there, at this location. -/
  | free (location : Location)
  /-- Nothing, and not even the directory for it is there. -/
  | nowhere
  /-- Nothing, because the way leads through a file. -/
  | blocked

/-- There is something. -/
def Place.isThere : Place → Bool
  | file _ _ | directory => true
  | _ => false

/-- The location that a part of a path leads to, one level up or down. -/
def Location.step (here : Location) (part : String) : Location :=
  if part == ".." then here.dropLast else here ++ [part]

namespace Store

variable (s : Store)

/-- What the rest of a path leads to from the directory where it begins. -/
def follow (here : Location) : List String → Place
  | [] => .directory
  | part :: parts =>
    if stays part then follow here parts
    else
      let next := here.step part
      match s.get? next with
      | some (.file bytes) => if parts.isEmpty then .file next bytes else .blocked
      | some .directory => follow next parts
      | none => if parts.isEmpty then .free next else .nowhere

/-- What a path leads to, from the root if it begins with a slash. -/
def lookUp (path : String) : Place :=
  if path.isEmpty then .nowhere
  else s.follow (if isAbsolute path then [] else s.workingDirectory) (partsOf path)

end Store

/-! ### Reading and writing by path -/

/-- Why a path cannot be read or written. -/
inductive AccessError where
  /-- There is nothing. -/
  | nothing (path : String)
  /-- The way leads through a file. -/
  | noDirectory (path : String)
  /-- It is a directory. -/
  | directory (path : String)

namespace AccessError

/-- The number of the error. -/
def number : AccessError → Nat
  | nothing _ => 2
  | noDirectory _ => 20
  | directory _ => 21

/-- The wording of the error. -/
def message (e : AccessError) : String :=
  let (words, path) := match e with
    | nothing path => ("No such file or directory", path)
    | noDirectory path => ("Not a directory", path)
    | directory path => ("Is a directory", path)
  "[Errno " ++ toString e.number ++ "] " ++ words ++ ": " ++ displayText path

end AccessError

namespace Store

variable (s : Store)

/-- The bytes at a path. -/
def open? (path : String) : Except AccessError ByteArray :=
  match s.lookUp path with
  | .file _ bytes => .ok bytes
  | .directory => .error (.directory path)
  | .blocked => .error (.noDirectory path)
  | .free _ | .nowhere => .error (.nothing path)

/-- The store with new contents at a path. -/
def save (path : String) (bytes : ByteArray) : Except AccessError Store :=
  match s.lookUp path with
  | .file location _ | .free location => .ok (s.write location bytes)
  | .directory => .error (.directory path)
  | .blocked => .error (.noDirectory path)
  | .nowhere => .error (.nothing path)

end Store

end Pddl
