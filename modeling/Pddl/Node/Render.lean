import Pddl.Node.Layout

/-!
# Rendering syntax nodes

A node is rendered bottom up: every node is annotated with its text, and a construct puts its own
text together from the annotations of its fields, as the table of layouts says.  Nested forms
stand on one line; actions, domains and problems take one line per section, indented by two
blanks a level.

* `Rendering` : a node with its text and the renderings of its fields or members.
* `Node.render` : the text of a node, unless some part of it cannot be written.
* `Node.renderAt` : the text at an indentation level.
* `Node.renderItems` : a typed list under a given closing type.
* `runs` : the runs of neighbouring items that share a type.
-/

namespace Pddl

/-- What was to be written and cannot be. -/
structure Unwritable where
  /-- The type of the node. -/
  typeName : String
  deriving DecidableEq, Repr

/-- The wording of the complaint. -/
def Unwritable.message (e : Unwritable) : String :=
  "Cannot render object of type " ++ e.typeName ++ " as PDDL."

/-- A text, unless some part of it cannot be written. -/
abbrev Written := Except Unwritable String

/-- Several words, unless some part of them cannot be written. -/
abbrev WrittenWords := Except Unwritable (List String)

/-- Words separated by single blanks. -/
def spaced (words : List String) : String := " ".intercalate words

/-- Words in parentheses. -/
def parenthesized (words : List String) : String := "(" ++ spaced words ++ ")"

/-- Two blanks for every level. -/
def indentation (level : Nat) : String := String.ofList (List.replicate (2 * level) ' ')

/-- A title in an opened parenthesis, then a line for each section, the last of which closes
it. -/
def blockText (level : Nat) (title : String) (sections : List String) : String :=
  indentation level ++ "(" ++ title ++ "\n" ++ "\n".intercalate sections ++ ")"

/-- A node, its text at every indentation level, and the renderings of its fields or members. -/
inductive Rendering where
  /-- The node, its text and its parts. -/
  | mk (node : Node) (textAt : Nat → Written) (parts : List Rendering)

namespace Rendering

/-- The node. -/
def node : Rendering → Node
  | mk node _ _ => node

/-- The text of the node at an indentation level. -/
def textAt : Rendering → Nat → Written
  | mk _ textAt _ => textAt

/-- The renderings of the fields or members of the node. -/
def parts : Rendering → List Rendering
  | mk _ _ parts => parts

/-- The text of the node. -/
def text (r : Rendering) : Written := r.textAt 0

/-- The rendering of a node whose text does not depend on the level but for the blanks in front
of it. -/
def inline (node : Node) (text : Written) (parts : List Rendering) : Rendering :=
  mk node (fun level => return indentation level ++ (← text)) parts

/-- The rendering of a node that cannot be written. -/
def unwritable (node : Node) (parts : List Rendering) : Rendering :=
  mk node (fun _ => .error ⟨node.typeName⟩) parts

/-- Nothing is there. -/
def isAbsent (r : Rendering) : Bool :=
  match r.node with
  | .absent => true
  | _ => false

/-- The truth value true is there. -/
def isTrue (r : Rendering) : Bool :=
  match r.node with
  | .truth true => true
  | _ => false

/-- The part at a position of a list of parts. -/
def get (parts : List Rendering) (i : Nat) : Rendering := parts.getD i (unwritable .absent [])

/-- The items of a typed list. -/
def items (r : Rendering) : List Rendering := (get r.parts 0).parts

end Rendering

open Rendering

/-! ### Typed lists -/

/-- A run of items of one type. -/
structure Run where
  /-- The values. -/
  values : List Rendering
  /-- Their type. -/
  type : Rendering

/-- The runs of neighbouring items that share a type. -/
def runs : List Rendering → List Run
  | [] => []
  | item :: items =>
    let value := get item.parts 0
    let type := get item.parts 1
    match runs items with
    | [] => [⟨[value], type⟩]
    | run :: rest =>
      if type.node.same run.type.node then ⟨value :: run.values, type⟩ :: rest
      else ⟨[value], type⟩ :: run :: rest

/-- The words of the runs of a typed list; the last type is left out if it is the closing one. -/
def runWords (closing : Node) : List Run → WrittenWords
  | [] => return []
  | run :: rest => do
    let values := spaced (← run.values.mapM text)
    if rest.isEmpty && run.type.node.same closing then return [values]
    let type := "- " ++ (← run.type.text)
    return values :: type :: (← runWords closing rest)

/-- A typed list under a closing type. -/
def itemsText (closing : Node) (list : Rendering) : Written :=
  return spaced (← runWords closing (runs list.items))

/-! ### Forms and blocks -/

/-- The words that a piece contributes to a form with the given parts. -/
def Piece.words (parts : List Rendering) : Piece → WrittenWords
  | word w => return [w]
  | field i => return [← (get parts i).text]
  | members i => (get parts i).parts.mapM text
  | given i => if (get parts i).isAbsent then return [] else return [← (get parts i).text]
  | givenOr i w => if (get parts i).isAbsent then return [w] else return [← (get parts i).text]
  | unlessSame i n => if (get parts i).node.same n then return [] else return [← (get parts i).text]
  | leaf i => return [(get parts i).node.display]
  | items i closing =>
    if (get parts i).items.isEmpty then return [] else return [← itemsText closing (get parts i)]
  | parameters i => return ["(" ++ (← itemsText .rootType (get parts i)) ++ ")"]
  | option keyword i =>
    if (get parts i).isAbsent then return []
    else return [parenthesized [keyword, (get parts i).node.display]]

/-- The word at the head of a form with the given parts. -/
def Head.text (parts : List Rendering) : Head → String
  | word w => w
  | name i => ((get parts i).node.word?).getD ""

/-- A form of some pieces. -/
def formText (parts : List Rendering) (head : String) (pieces : List Piece) : Written :=
  return parenthesized (head :: (← pieces.mapM (Piece.words parts)).flatten)

/-- The lines that a section contributes to a block at an indentation level. -/
def Line.texts (parts : List Rendering) (level : Nat) : Line → WrittenWords
  | labelled label piece => do
    let words ← piece.words parts
    return if words.isEmpty then [] else [indentation (level + 1) ++ spaced (label :: words)]
  | form head piece => do
    let words ← piece.words parts
    return if words.isEmpty then [] else [indentation (level + 1) ++ parenthesized (head :: words)]
  | always head piece => do
    return [indentation (level + 1) ++ parenthesized (head :: (← piece.words parts))]
  | bare piece => return (← piece.words parts).map (indentation (level + 1) ++ ·)
  | blocks i => (get parts i).parts.mapM (·.textAt (level + 1))

/-- The rendering of a form by its layout. -/
def Layout.rendering (node : Node) (parts : List Rendering) : Layout → Rendering
  | unwritable => .unwritable node parts
  | display => inline node (return node.display) parts
  | typedList => inline node (itemsText .rootType (inline node (return "") parts)) parts
  | self => inline node (get parts 0).text parts
  | form head pieces => inline node (formText parts (head.text parts) pieces) parts
  | negatable head =>
    inline node
      (if (get parts 1).isTrue then formText parts head [.field 0] else (get parts 0).text) parts
  | loneOr head =>
    inline node
      (match (get parts 0).parts with
      | [one] => one.text
      | _ => formText parts head [.members 0]) parts
  | bareOr bare head pieces =>
    inline node
      (if (get parts 0).isAbsent then return bare else formText parts head pieces) parts
  | block title leaf lines =>
    .mk node (fun level => do
      let sections ← lines.mapM (Line.texts parts level)
      let title := spaced (title :: (leaf.map fun i => (get parts i).node.display).toList)
      return blockText level title sections.flatten) parts

/-! ### Nodes -/

namespace Node

mutual

/-- The node with its text and the renderings of its fields or members. -/
def rendering : Node → Rendering
  | form kind fields => kind.layout.rendering (form kind fields) (renderings fields)
  | tuple members => .unwritable (tuple members) (renderings members)
  | symbol s => inline (symbol s) (return s.written) []
  | number x => inline (number x) (return x.written) []
  | keyword title word => inline (keyword title word) (return word) []
  | text s => inline (text s) (return s) []
  | integer n => .unwritable (integer n) []
  | float x => .unwritable (float x) []
  | truth b => .unwritable (truth b) []
  | absent => .unwritable absent []

/-- The nodes with their texts. -/
def renderings : List Node → List Rendering
  | [] => []
  | n :: ns => rendering n :: renderings ns

end

/-- The text of the node. -/
def render (n : Node) : Written := n.rendering.text

/-- The text of the node at an indentation level. -/
def renderAt (level : Nat) (n : Node) : Written := n.rendering.textAt level

/-- A typed list under a closing type. -/
def renderItems (n : Node) (closing : Node) : Written := itemsText closing n.rendering

end Node

end Pddl
