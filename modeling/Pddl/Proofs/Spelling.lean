import Pddl.Node.Render
import Pddl.Proofs.Rereading

/-!
# How constructs are spelled

The printer renders nodes by a table.  For the constructs of the language its texts can be given
directly, and none of them is ever refused.

* `Spelled` : the types of constructs with their texts; `Spelled.render_toNode` says that the
  printer makes these texts.
* `oneLine`, `loneOr`, `preferenceParts` : the shapes of texts on one line.
* `itemParts` : a typed list as words, neighbouring items of one type sharing it.
* `Line.Gives`, `Node.render_block` : a block has its sections on lines of their own.
-/

namespace Pddl

open Rendering

/-! ### Texts of nodes -/

namespace Node

theorem renderings_eq_map (ns : List Node) : renderings ns = ns.map rendering := by
  induction ns with
  | nil => rfl
  | cons n ns ih => rw [renderings, ih, List.map_cons]

theorem node_rendering (n : Node) : n.rendering.node = n := by
  cases n with
  | form k fields =>
    rw [rendering]
    cases k.layout <;> rfl
  | _ => rfl

theorem parts_rendering_form (k : Kind) (fields : List Node) :
    (form k fields).rendering.parts = fields.map rendering := by
  rw [rendering, renderings_eq_map]
  cases k.layout <;> rfl

theorem parts_rendering_tuple (ns : List Node) :
    (tuple ns).rendering.parts = ns.map rendering := by
  rw [rendering, renderings_eq_map]
  rfl

end Node

theorem indentation_zero : indentation 0 = "" := rfl

theorem textAt_inline_ok (n : Node) (s : String) (parts : List Rendering) (level : Nat) :
    (Rendering.inline n (.ok s) parts).textAt level = .ok (indentation level ++ s) := rfl

theorem text_inline (n : Node) (text : Written) (parts : List Rendering) :
    (Rendering.inline n text parts).text = text := by
  cases text with
  | error e => rfl
  | ok s => rw [Rendering.text, textAt_inline_ok, indentation_zero, String.empty_append]

/-- Words in parentheses on one line. -/
def oneLine (head : String) (parts : List (List Char)) : List Char := enclose [' '] head parts

theorem toList_spaced (words : List String) :
    (spaced words).toList = [' '].intercalate (words.map String.toList) :=
  String.toList_intercalate

theorem parenthesized_eq (head : String) (words : List (List Char)) :
    parenthesized (head :: words.map String.ofList) = String.ofList (oneLine head words) := by
  rw [← String.toList_inj, String.toList_ofList, parenthesized, String.toList_append,
    String.toList_append, toList_spaced, List.map_cons, intercalate_cons, oneLine, enclose,
    List.map_map]
  simp [Function.comp_def]

theorem spread_append (gap : List Char) (ps qs : List (List Char)) :
    spread gap (ps ++ qs) = spread gap ps ++ spread gap qs := List.flatMap_append

theorem spread_intercalate {gap : List Char} {ps : List (List Char)} (h : ps ≠ []) :
    spread gap [gap.intercalate ps] = spread gap ps := by
  obtain ⟨p, ps, rfl⟩ := List.exists_cons_of_ne_nil h
  simp [intercalate_cons]

/-- What stands between gaps is known from what stands behind them. -/
theorem intercalate_eq_of_spread_eq {gap : List Char} {ps qs : List (List Char)}
    (h : spread gap ps = spread gap qs) (hgap : gap ≠ []) :
    gap.intercalate ps = gap.intercalate qs := by
  rcases ps with _ | ⟨p, ps⟩ <;> rcases qs with _ | ⟨q, qs⟩
  · rfl
  · simp [hgap] at h
  · simp [hgap] at h
  · rw [spread_cons, spread_cons] at h
    rw [intercalate_cons, intercalate_cons, List.append_cancel_left h]

/-! ### Forms -/

/-- The words that some pieces contribute. -/
theorem mapM_words {parts : List Rendering} {pieces : List Piece} {words : List (List (List Char))}
    (h : List.Forall₂ (fun p ws => Piece.words parts p = .ok (ws.map String.ofList)) pieces words) :
    pieces.mapM (Piece.words parts) = .ok (words.map (List.map String.ofList)) := by
  induction h with
  | nil => rfl
  | cons hp _ ih => rw [List.mapM_cons, hp, ih]; rfl

/-- A form is written if its pieces are. -/
theorem formText_eq {parts : List Rendering} (head : String) {pieces : List Piece}
    {words : List (List (List Char))}
    (h : List.Forall₂ (fun p ws => Piece.words parts p = .ok (ws.map String.ofList)) pieces words) :
    formText parts head pieces = .ok (String.ofList (oneLine head words.flatten)) := by
  have hwords : (words.map (List.map String.ofList)).flatten = words.flatten.map String.ofList := by
    clear h
    induction words with
    | nil => rfl
    | cons ws words _ => simp
  rw [formText, mapM_words h]
  show Except.ok (parenthesized (head :: (words.map (List.map String.ofList)).flatten)) = _
  rw [hwords, parenthesized_eq]

theorem Node.render_form {k : Kind} {head : Head} {pieces : List Piece} {f : List Node}
    {words : List (List (List Char))} (hk : k.layout = .form head pieces)
    (h : List.Forall₂ (fun p ws => Piece.words (f.map rendering) p = .ok (ws.map String.ofList))
      pieces words) :
    (form k f).render =
      .ok (String.ofList (oneLine (head.text (f.map rendering)) words.flatten)) := by
  rw [render, rendering, renderings_eq_map, hk, Layout.rendering, text_inline, formText_eq _ h]

/-- The texts of several nodes. -/
theorem mapM_text {ns : List Node} {ws : List (List Char)}
    (h : List.Forall₂ (fun n w => n.render = .ok (String.ofList w)) ns ws) :
    (ns.map Node.rendering).mapM Rendering.text = .ok (ws.map String.ofList) := by
  induction h with
  | nil => rfl
  | @cons n w ns ws hn _ ih =>
    rw [List.map_cons, List.mapM_cons, show n.rendering.text = n.render from rfl, hn, ih]
    rfl

section

variable {f : List Node} {i : Nat} {s : List Char}

theorem get_of_getElem? {n : Node} (hi : f[i]? = some n) :
    Rendering.get (f.map Node.rendering) i = n.rendering := by
  simp [Rendering.get, List.getD, hi]

theorem words_word (w : String) :
    Piece.words (f.map Node.rendering) (.word w) = .ok ([w.toList].map String.ofList) := by
  simp only [List.map_cons, String.ofList_toList, List.map_nil]
  rfl

theorem words_field {n : Node} (hi : f[i]? = some n) (h : n.render = .ok (String.ofList s)) :
    Piece.words (f.map Node.rendering) (.field i) = .ok ([s].map String.ofList) := by
  rw [Piece.words, get_of_getElem? hi, show n.rendering.text = n.render from rfl, h]
  rfl

theorem words_members {ns : List Node} {ws : List (List Char)} (hi : f[i]? = some (.tuple ns))
    (h : List.Forall₂ (fun n w => n.render = .ok (String.ofList w)) ns ws) :
    Piece.words (f.map Node.rendering) (.members i) = .ok (ws.map String.ofList) := by
  rw [Piece.words, get_of_getElem? hi, Node.parts_rendering_tuple, mapM_text h]

theorem isAbsent_rendering (n : Node) : n.rendering.isAbsent = true ↔ n = .absent := by
  rw [Rendering.isAbsent, Node.node_rendering]
  cases n <;> simp

end

/-! ### Spelled constructs -/

/-- A type of constructs, each with its text. -/
class Spelled (α : Type) [ToNode α] where
  /-- The text of the construct. -/
  spelling : α → List Char
  render_toNode : ∀ a, (toNode a).render = .ok (String.ofList (spelling a))

export Spelled (spelling)

section

variable {α : Type} [ToNode α] [Spelled α] {f : List Node} {i : Nat}

theorem words_field_toNode {a : α} (hi : f[i]? = some (toNode a)) :
    Piece.words (f.map Node.rendering) (.field i) = .ok ([spelling a].map String.ofList) :=
  words_field hi (Spelled.render_toNode a)

theorem forall₂_render (as : List α) :
    List.Forall₂ (fun n w => n.render = .ok (String.ofList w)) (as.map toNode) (as.map spelling) := by
  induction as with
  | nil => exact .nil
  | cons a as ih => exact .cons (Spelled.render_toNode a) ih

theorem mapM_text_toNode (as : List α) :
    (as.map fun a => (toNode a).rendering).mapM Rendering.text =
      .ok ((as.map spelling).map String.ofList) := by
  have h := mapM_text (forall₂_render as)
  rwa [List.map_map] at h

theorem words_members_toNode {as : List α} (hi : f[i]? = some (toNode as)) :
    Piece.words (f.map Node.rendering) (.members i) =
      .ok ((as.map spelling).map String.ofList) := by
  rw [Piece.words, get_of_getElem? hi]
  show ((Node.tuple (as.map toNode)).rendering.parts).mapM Rendering.text = _
  rw [Node.parts_rendering_tuple, List.map_map]
  exact mapM_text_toNode as

end

/-- Without a sigil, a symbol is written as its text. -/
theorem Symbol.written_of_sigil {kind : SymbolKind} (hk : kind.sigil = "") (s : Symbol kind) :
    s.written = s.text := by
  rw [written, hk, String.empty_append]

instance {kind : SymbolKind} : Spelled (Symbol kind) where
  spelling s := s.written.toList
  render_toNode s := by
    show (Node.symbol s).render = _
    rw [Node.render, Node.rendering, text_inline, String.ofList_toList]
    rfl

instance : Spelled Number where
  spelling x := x.written.toList
  render_toNode x := by
    show (Node.number x).render = _
    rw [Node.render, Node.rendering, text_inline, String.ofList_toList]
    rfl

instance (priority := low) {α : Type} [Vocabulary α] : Spelled α where
  spelling a := (Vocabulary.keyword a).toList
  render_toNode a := by
    show (Node.keyword (Vocabulary.title α) (Vocabulary.keyword a)).render = _
    rw [Node.render, Node.rendering, text_inline, String.ofList_toList]
    rfl

/-! ### Types and typed lists -/

namespace TypeSpec

/-- The text of a type. -/
def spelling : TypeSpec → List Char
  | exact t => t.written.toList
  | either ts => '(' :: ("either ".toList ++
      ([' '].intercalate (ts.map fun t => t.written.toList) ++ [')']))

theorem spelling_either {ts : List PrimitiveType} (h : ts ≠ []) :
    spelling (either ts) = oneLine "either" (ts.map fun t => t.written.toList) := by
  obtain ⟨t, ts, rfl⟩ := List.exists_cons_of_ne_nil h
  simp [spelling, oneLine, enclose, intercalate_cons]

theorem displayAll_symbols (ts : List PrimitiveType) :
    Node.display.displayAll (ts.map toNode) = ts.map Symbol.written := by
  induction ts with
  | nil => rfl
  | cons t ts ih => simp only [List.map_cons, Node.display.displayAll, ih]; rfl

theorem render_toNode (t : TypeSpec) : (toNode t).render = .ok (String.ofList t.spelling) := by
  cases t with
  | exact t =>
    show (Node.form .exactType [.symbol t]).render = _
    rw [Node.render, Node.rendering, Kind.layout, Layout.rendering, text_inline, Node.display,
      spelling, String.ofList_toList]
    rfl
  | either ts =>
    show (Node.form .eitherType [.tuple (ts.map toNode)]).render = _
    rw [Node.render, Node.rendering, Kind.layout, Layout.rendering, text_inline, Node.display,
      displayAll_symbols, spelling]
    show Except.ok _ = _
    rw [Except.ok.injEq, ← String.toList_inj, String.toList_ofList]
    simp [Function.comp_def]

instance : Spelled TypeSpec := ⟨spelling, render_toNode⟩

end TypeSpec

theorem allSame_symbols (ss ts : List PrimitiveType) :
    Node.allSame (ss.map toNode) (ts.map toNode) = decide (ss = ts) := by
  induction ss generalizing ts with
  | nil => cases ts <;> simp [Node.allSame]
  | cons s ss ih =>
    cases ts with
    | nil => simp [Node.allSame]
    | cons t ts =>
      rcases s with ⟨s, hs⟩
      rcases t with ⟨t, ht⟩
      have ih : Node.allSame (ss.map Node.symbol) (ts.map Node.symbol) = decide (ss = ts) := ih ts
      simp [Node.allSame, ih, toNode, ToNode.toNode, Node.same, Node.sameLeaf, Bool.beq_eq_decide_eq]

/-- Types are equal if their nodes are. -/
theorem TypeSpec.same_toNode (s t : TypeSpec) : (toNode s).same (toNode t) = decide (s = t) := by
  cases s with
  | exact s =>
    cases t with
    | exact t =>
      have h := allSame_symbols [s] [t]
      simpa [toNode, ToNode.toNode, Node.same] using h
    | either ts => rfl
  | either ss =>
    cases t with
    | exact t => rfl
    | either ts =>
      have h := allSame_symbols ss ts
      simp [toNode, ToNode.toNode, Node.same, Node.allSame] at h ⊢
      exact h

/-- The groups of neighbouring items that share a type, each with that type. -/
def groupsOf {α : Type} : List (Typed α) → List (List α × TypeSpec)
  | [] => []
  | a :: as =>
    match groupsOf as with
    | [] => [([a.value], a.type)]
    | (vs, t) :: rest =>
      if a.type = t then (a.value :: vs, t) :: rest else ([a.value], a.type) :: (vs, t) :: rest

theorem ne_nil_of_mem_groupsOf {α : Type} {items : List (Typed α)} {vs : List α} {t : TypeSpec}
    (h : (vs, t) ∈ groupsOf items) : vs ≠ [] := by
  induction items with
  | nil => simp [groupsOf] at h
  | cons a as ih =>
    rw [groupsOf] at h
    rcases hg : groupsOf as with _ | ⟨⟨us, s⟩, rest⟩
    · rw [hg] at h
      simp at h
      simp [h.1]
    · rw [hg] at h ih
      simp only at h
      split at h
      · simp only [List.mem_cons, Prod.mk.injEq] at h ih
        rcases h with ⟨rfl, -⟩ | h
        · simp
        · exact ih (.inr h)
      · simp only [List.mem_cons, Prod.mk.injEq] at h ih
        rcases h with ⟨rfl, -⟩ | h | h
        · simp
        · exact ih (.inl h)
        · exact ih (.inr h)

/-- The words of some groups; the last type is left out if it is the closing one. -/
def groupParts {α : Type} [ToNode α] [Spelled α] (closing : TypeSpec) :
    List (List α × TypeSpec) → List (List Char)
  | [] => []
  | (vs, t) :: rest =>
    if rest = [] ∧ t = closing then vs.map spelling
    else vs.map spelling ++ ['-'] :: t.spelling :: groupParts closing rest

/-- The words of a typed list under a closing type. -/
def itemParts {α : Type} [ToNode α] [Spelled α] (closing : TypeSpec) (l : TypedList α) :
    List (List Char) :=
  groupParts closing (groupsOf l.items)

section

variable {α : Type} [ToNode α]

/-- A group as the printer sees it. -/
def runOf (group : List α × TypeSpec) : Run :=
  ⟨group.1.map fun a => (toNode a).rendering, (toNode group.2).rendering⟩

theorem runs_eq (items : List (Typed α)) :
    runs (items.map fun a => (toNode a).rendering) = (groupsOf items).map runOf := by
  induction items with
  | nil => rfl
  | cons a as ih =>
    have hvalue : Rendering.get (toNode a).rendering.parts 0 = (toNode a.value).rendering := by
      show Rendering.get (Node.form .typed [toNode a.value, toNode a.type]).rendering.parts 0 = _
      rw [Node.parts_rendering_form]
      rfl
    have htype : Rendering.get (toNode a).rendering.parts 1 = (toNode a.type).rendering := by
      show Rendering.get (Node.form .typed [toNode a.value, toNode a.type]).rendering.parts 1 = _
      rw [Node.parts_rendering_form]
      rfl
    rw [List.map_cons, runs, ih, hvalue, htype, groupsOf]
    rcases groupsOf as with _ | ⟨⟨vs, t⟩, rest⟩
    · rfl
    · simp only [List.map_cons]
      show (if (toNode a.type).rendering.node.same (toNode t).rendering.node then _ else _) = _
      rw [Node.node_rendering, Node.node_rendering, TypeSpec.same_toNode]
      by_cases h : a.type = t <;> simp [h, runOf]

theorem items_rendering (l : TypedList α) :
    (toNode l).rendering.items = l.items.map fun a => (toNode a).rendering := by
  show (Rendering.get (Node.form .typedList [.tuple (l.items.map toNode)]).rendering.parts 0).parts
    = _
  rw [Node.parts_rendering_form]
  show (Node.tuple (l.items.map toNode)).rendering.parts = _
  rw [Node.parts_rendering_tuple, List.map_map]
  rfl

variable [Spelled α]

/-- The words of a typed list, behind gaps, are its parts behind gaps. -/
theorem runWords_eq (closing : TypeSpec) (groups : List (List α × TypeSpec))
    (h : ∀ g ∈ groups, g.1 ≠ []) :
    ∃ words, runWords (toNode closing) (groups.map runOf) = .ok words ∧
      spread [' '] (words.map String.toList) = spread [' '] (groupParts closing groups) := by
  induction groups with
  | nil => exact ⟨[], rfl, rfl⟩
  | cons g groups ih =>
    obtain ⟨vs, t⟩ := g
    obtain ⟨words, hwords, hspread⟩ := ih fun g hg => h g (List.mem_cons_of_mem _ hg)
    have hne : vs ≠ [] := h (vs, t) (by simp)
    rw [List.map_cons, runWords]
    have hvalues : (runOf (vs, t)).values.mapM Rendering.text =
        .ok ((vs.map spelling).map String.ofList) := mapM_text_toNode vs
    have htype : (runOf (vs, t)).type.text = .ok (String.ofList t.spelling) := t.render_toNode
    have hsame : (runOf (vs, t)).type.node.same (toNode closing) = decide (t = closing) := by
      rw [show (runOf (vs, t)).type = (toNode t).rendering from rfl, Node.node_rendering,
        TypeSpec.same_toNode]
    have hempty : (groups.map runOf).isEmpty = decide (groups = []) := by
      cases groups <;> rfl
    have hspaced : spread [' '] [(spaced ((vs.map spelling).map String.ofList)).toList] =
        spread [' '] (vs.map spelling) := by
      rw [toList_spaced, List.map_map, spread_intercalate (by simpa using hne)]
      simp [Function.comp_def]
    rw [hvalues, htype, hsame, hempty, hwords]
    by_cases hlast : groups = [] ∧ t = closing
    · refine ⟨[spaced ((vs.map spelling).map String.ofList)], by simp [hlast]; try rfl, ?_⟩
      rw [groupParts, if_pos hlast, List.map_cons, List.map_nil, hspaced]
    · refine ⟨spaced ((vs.map spelling).map String.ofList) ::
        ("- " ++ String.ofList t.spelling) :: words, ?_, ?_⟩
      · have hlast : (decide (groups = []) && decide (t = closing)) = false := by
          rw [Bool.eq_false_iff]
          simpa using hlast
        rw [hlast]
        rfl
      · have htype : spread [' '] [("- " ++ String.ofList t.spelling).toList] =
            spread [' '] [['-'], t.spelling] := by simp
        rw [groupParts, if_neg hlast, List.map_cons, List.map_cons]
        calc spread [' '] ((spaced ((vs.map spelling).map String.ofList)).toList ::
              ("- " ++ String.ofList t.spelling).toList :: words.map String.toList)
            = spread [' '] [(spaced ((vs.map spelling).map String.ofList)).toList] ++
                (spread [' '] [("- " ++ String.ofList t.spelling).toList] ++
                  spread [' '] (words.map String.toList)) := by simp only [← spread_append]; rfl
          _ = spread [' '] (vs.map spelling) ++
                (spread [' '] [['-'], t.spelling] ++ spread [' '] (groupParts closing groups)) := by
              rw [hspaced, htype, hspread]
          _ = spread [' '] (vs.map spelling ++ ['-'] :: t.spelling :: groupParts closing groups) := by
              simp only [← spread_append]; rfl

/-- A typed list is written as its parts. -/
theorem itemsText_eq (closing : TypeSpec) (l : TypedList α) :
    itemsText (toNode closing) (toNode l).rendering =
      .ok (String.ofList ([' '].intercalate (itemParts closing l))) := by
  obtain ⟨words, hwords, hspread⟩ := runWords_eq closing (groupsOf l.items)
    fun g hg => ne_nil_of_mem_groupsOf (t := g.2) hg
  rw [itemsText, items_rendering, runs_eq, hwords]
  show Except.ok (spaced words) = _
  rw [Except.ok.injEq, ← String.toList_inj, toList_spaced, String.toList_ofList]
  exact intercalate_eq_of_spread_eq hspread (by simp)

variable {f : List Node} {i : Nat}

theorem words_items {l : TypedList α} (closing : TypeSpec) (hi : f[i]? = some (toNode l)) :
    Piece.words (f.map Node.rendering) (.items i (toNode closing)) =
      .ok ((if l.items = [] then [] else [[' '].intercalate (itemParts closing l)]).map
        String.ofList) := by
  have hempty : (toNode l).rendering.items.isEmpty = decide (l.items = []) := by
    rw [items_rendering]
    cases l.items <;> rfl
  rw [Piece.words, get_of_getElem? hi, hempty, itemsText_eq]
  by_cases h : l.items = []
  · rw [if_pos h, if_pos (decide_eq_true h)]
    rfl
  · rw [if_neg h, if_neg (by simpa using h)]
    rfl

/-- A typed list in parentheses. -/
def enclosedItems (l : TypedList α) : List Char :=
  '(' :: ([' '].intercalate (itemParts .object l) ++ [')'])

theorem words_parameters {l : TypedList α} (hi : f[i]? = some (toNode l)) :
    Piece.words (f.map Node.rendering) (.parameters i) =
      .ok ([enclosedItems l].map String.ofList) := by
  rw [Piece.words, get_of_getElem? hi, show Node.rootType = toNode TypeSpec.object from rfl,
    itemsText_eq]
  show Except.ok [_] = _
  rw [Except.ok.injEq, List.map_cons, List.map_nil, List.cons.injEq, ← String.toList_inj]
  simp [enclosedItems]

end

/-- A form of all its fields. -/
theorem Node.render_plain {k : Kind} {head : String} {ns : List Node} {ws : List (List Char)}
    (hk : k.layout = .plain head ns.length)
    (h : List.Forall₂ (fun n w => n.render = .ok (String.ofList w)) ns ws) :
    (form k ns).render = .ok (String.ofList (oneLine head ws)) := by
  have hwords : List.Forall₂
      (fun p ws => Piece.words (ns.map rendering) p = .ok (ws.map String.ofList))
      ((List.range ns.length).map .field) (ws.map ([·])) := by
    rw [List.forall₂_map_left_iff, List.forall₂_map_right_iff, List.forall₂_iff_get]
    refine ⟨by simp [h.length_eq], fun i hi hi' => ?_⟩
    rw [List.length_range] at hi
    rw [List.get_eq_getElem, List.getElem_range]
    exact words_field (List.getElem?_eq_getElem hi) (h.get hi hi')
  have hk : k.layout = .form (.word head) ((List.range ns.length).map .field) := hk
  have h := render_form hk hwords
  rwa [← List.flatMap_def, List.flatMap_singleton'] at h

/-- A form of the members of its only field. -/
theorem Node.render_members {k : Kind} {head : String} (hk : k.layout = .all head) {ns : List Node}
    {ws : List (List Char)} (h : List.Forall₂ (fun n w => n.render = .ok (String.ofList w)) ns ws) :
    (form k [.tuple ns]).render = .ok (String.ofList (oneLine head ws)) := by
  have hwords := words_members (f := [.tuple ns]) (i := 0) rfl h
  have h := render_form hk (.cons hwords .nil)
  rwa [List.flatten_singleton] at h

/-- A form that binds variables. -/
theorem Node.render_quantified {k : Kind} {head : String} (hk : k.layout = .quantified head)
    (vs : TypedList Variable) {n : Node} {w : List Char} (h : n.render = .ok (String.ofList w)) :
    (form k [toNode vs, n]).render = .ok (String.ofList (oneLine head [enclosedItems vs, w])) := by
  have hk : k.layout = .form (.word head) [.parameters 0, .field 1] := hk
  have hvars := words_parameters (f := [toNode vs, n]) (i := 0) (l := vs) rfl
  have hbody := words_field (f := [toNode vs, n]) (i := 1) rfl h
  have h := render_form hk (.cons hvars (.cons hbody .nil))
  exact h

section

variable {α : Type} [ToNode α] [Spelled α] {f : List Node} {i : Nat}

/-- A form whose head is a symbol. -/
theorem head_symbol {kind : SymbolKind} {x : Symbol kind} (hk : kind.sigil = "")
    (hi : f[i]? = some (toNode x)) :
    (Head.name i).text (f.map Node.rendering) = x.written := by
  rw [Head.text, get_of_getElem? hi, Node.node_rendering, Symbol.written_of_sigil hk]
  rfl

/-- A form whose head is a word of a vocabulary. -/
theorem head_keyword {ω : Type} [Vocabulary ω] {x : ω}
    (hi : f[i]? = some (.keyword (Vocabulary.title ω) (Vocabulary.keyword x))) :
    (Head.name i).text (f.map Node.rendering) = Vocabulary.keyword x := by
  rw [Head.text, get_of_getElem? hi, Node.node_rendering]
  rfl

/-- What may be left out. -/
theorem words_given {a? : Option α} (hi : f[i]? = some (toNode a?))
    (hne : ∀ a : α, toNode a ≠ .absent) :
    Piece.words (f.map Node.rendering) (.given i) =
      .ok ((a?.toList.map spelling).map String.ofList) := by
  rw [Piece.words, get_of_getElem? hi]
  cases a? with
  | none => rfl
  | some a =>
    have h : (toNode (some a)).rendering.isAbsent = false := by
      rw [Bool.eq_false_iff, Ne, isAbsent_rendering]
      exact hne a
    rw [h, if_neg Bool.false_ne_true,
      show (toNode (some a)).rendering.text = (toNode a).render from rfl, Spelled.render_toNode]
    rfl

/-- What is written as a word if it is left out. -/
theorem words_givenOr {a? : Option α} {w : String} (hi : f[i]? = some (toNode a?))
    (hne : ∀ a : α, toNode a ≠ .absent) :
    Piece.words (f.map Node.rendering) (.givenOr i w) =
      .ok ([(a?.map spelling).getD w.toList].map String.ofList) := by
  rw [Piece.words, get_of_getElem? hi]
  cases a? with
  | none =>
    simp only [Option.map_none, Option.getD_none, List.map_cons, String.ofList_toList, List.map_nil]
    rfl
  | some a =>
    have h : (toNode (some a)).rendering.isAbsent = false := by
      rw [Bool.eq_false_iff, Ne, isAbsent_rendering]
      exact hne a
    rw [h, if_neg Bool.false_ne_true,
      show (toNode (some a)).rendering.text = (toNode a).render from rfl, Spelled.render_toNode]
    rfl

/-- The only construct, or a form of all of them. -/
def loneOr (head : String) : List (List Char) → List Char
  | [p] => p
  | ps => oneLine head ps

theorem render_loneOr {k : Kind} {head : String} (hk : k.layout = .loneOr head) {ns : List Node}
    {ws : List (List Char)} (h : List.Forall₂ (fun n w => n.render = .ok (String.ofList w)) ns ws) :
    (Node.form k [.tuple ns]).render = .ok (String.ofList (loneOr head ws)) := by
  have hget : (Rendering.get ([Node.tuple ns].map Node.rendering) 0).parts = ns.map Node.rendering :=
    Node.parts_rendering_tuple ns
  rw [Node.render, Node.rendering, Node.renderings_eq_map, hk, Layout.rendering, text_inline]
  cases h with
  | nil =>
    have hw := words_members (f := [.tuple []]) (i := 0) rfl .nil
    rw [hget]
    exact formText_eq _ (.cons hw .nil)
  | @cons n w ns' ws' hn hns =>
    cases hns with
    | nil =>
      rw [hget]
      exact hn
    | @cons n' w' ns'' ws'' hn' hns' =>
      have hw := words_members (f := [.tuple (n :: n' :: ns'')]) (i := 0) rfl
        (.cons hn (.cons hn' hns'))
      rw [hget]
      have h := formText_eq head (.cons hw .nil)
      rwa [List.flatten_singleton] at h

end

/-! ### Blocks -/

/-- What stands in front of a section of a block. -/
def lineGap : List Char := ['\n', ' ', ' ']

theorem isGap_lineGap : IsGap lineGap := by simp [IsGap, lineGap, isBlank]

section

variable {parts : List Rendering} {piece : Piece} {ws : List (List Char)} {head : String}

/-- The line contributes sections with these texts to a block. -/
def Line.Gives (parts : List Rendering) (l : Line) (sections : List (List Char)) : Prop :=
  l.texts parts 0 = .ok (sections.map fun s => indentation 1 ++ String.ofList s)

theorem Line.gives_always (h : piece.words parts = .ok (ws.map String.ofList)) :
    (Line.always head piece).Gives parts [oneLine head ws] := by
  rw [Gives, texts, h]
  show Except.ok [indentation 1 ++ parenthesized (head :: ws.map String.ofList)] = _
  rw [parenthesized_eq]
  rfl

theorem Line.gives_form (head : String) (h : piece.words parts = .ok (ws.map String.ofList)) :
    (Line.form head piece).Gives parts (if ws = [] then [] else [oneLine head ws]) := by
  rw [Gives, texts, h]
  rcases ws with _ | ⟨w, ws⟩
  · rfl
  · show Except.ok [indentation 1 ++ parenthesized (head :: (w :: ws).map String.ofList)] = _
    rw [parenthesized_eq]
    rfl

theorem Line.gives_bare (h : piece.words parts = .ok (ws.map String.ofList)) :
    (Line.bare piece).Gives parts ws := by
  rw [Gives, texts, h]
  show Except.ok ((ws.map String.ofList).map (indentation 1 ++ ·)) = _
  rw [List.map_map]
  rfl

/-- The sections that some lines contribute to a block. -/
theorem mapM_lines {lines : List Line} {sections : List (List (List Char))}
    (h : List.Forall₂ (Line.Gives parts) lines sections) :
    lines.mapM (Line.texts parts 0) =
      .ok (sections.map (List.map fun s => indentation 1 ++ String.ofList s)) := by
  induction h with
  | nil => rfl
  | cons hl _ ih => rw [List.mapM_cons, hl, ih]; rfl

/-- A block is its title and its sections, each on a line of its own. -/
theorem Node.render_block {k : Kind} {title : String} {lines : List Line} {f : List Node}
    {sections : List (List (List Char))} (hk : k.layout = .block title none lines)
    (h : List.Forall₂ (Line.Gives (f.map rendering)) lines sections) (hne : sections.flatten ≠ []) :
    (form k f).render = .ok (String.ofList (enclose lineGap title sections.flatten)) := by
  rw [render, rendering, renderings_eq_map, hk]
  show (lines.mapM (Line.texts (f.map rendering) 0) >>= fun sections => _) = _
  rw [mapM_lines h]
  show Except.ok _ = _
  rw [Except.ok.injEq, ← String.toList_inj, String.toList_ofList]
  have hlines : (sections.map (List.map fun s => indentation 1 ++ String.ofList s)).flatten.map
      String.toList = sections.flatten.map ([' ', ' '] ++ ·) := by
    rw [← List.map_flatten, List.map_map]
    refine List.map_congr_left fun s _ => ?_
    rw [Function.comp, String.toList_append, String.toList_ofList]
    rfl
  have htitle : spaced [title] = title := rfl
  obtain ⟨s, ss, hs⟩ := List.exists_cons_of_ne_nil hne
  rw [show (Option.map _ none : Option String).toList = [] from rfl, htitle, blockText,
    String.toList_append, String.toList_append, String.toList_append, String.toList_append,
    String.toList_append, String.toList_intercalate, hlines, hs]
  have hspread : spread ['\n'] (ss.map ([' ', ' '] ++ ·)) = spread lineGap ss := by
    simp [spread, lineGap, List.flatMap_map]
  rw [show "\n".toList = ['\n'] from rfl, List.map_cons, intercalate_cons, hspread]
  simp [enclose, indentation_zero, lineGap]

end

/-! ### Pieces of sections -/

section

variable {f : List Node} {i : Nat} {s : List Char}

/-- A field that is left out where it is the given node. -/
theorem words_unlessSame {n m : Node} (hi : f[i]? = some n) (h : n.render = .ok (String.ofList s)) :
    Piece.words (f.map Node.rendering) (.unlessSame i m) =
      .ok ((if n.same m then [] else [s]).map String.ofList) := by
  rw [Piece.words, get_of_getElem? hi, Node.node_rendering,
    show n.rendering.text = n.render from rfl, h]
  split <;> rfl

theorem words_leaf {kind : SymbolKind} {x : Symbol kind} (hi : f[i]? = some (toNode x)) :
    Piece.words (f.map Node.rendering) (.leaf i) = .ok ([spelling x].map String.ofList) := by
  rw [Piece.words, get_of_getElem? hi, Node.node_rendering, List.map_cons, spelling]
  show Except.ok [x.written] = .ok [String.ofList x.written.toList]
  rw [String.ofList_toList]

/-- A keyword and a whole number in parentheses, if there is one. -/
theorem words_option {n? : Option Nat} {keyword : String} (hi : f[i]? = some (toNode n?)) :
    Piece.words (f.map Node.rendering) (.option keyword i) =
      .ok ((n?.map fun n => oneLine keyword [Nat.toDigits 10 n]).toList.map String.ofList) := by
  rw [Piece.words, get_of_getElem? hi, Node.node_rendering]
  cases n? with
  | none => rfl
  | some n =>
    show Except.ok [parenthesized (keyword :: [Nat.toDigits 10 n].map String.ofList)] = _
    rw [parenthesized_eq]
    rfl

end

end Pddl
