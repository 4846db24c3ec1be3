import Pddl.Proofs.Parts
import Pddl.Proofs.TypedLists

/-!
# What typed lists hold

Names, variables, types and declarations of functions are listed with their types.  None of them
refers to a nonterminal, so they are read alike on any number of levels, and a typed list of them is
read wherever it stands.

* `Grammar.isCallFree` : the grammar refers to no nonterminal.
* `Rule.Lists` : the rules of what typed lists hold.
* `Rule.parse_typedText` : **a typed list is read group by group**, up to the parenthesis behind it.
* `Rule.parse_renderItems` : **a typed list is printed by its groups and read back.**
-/

namespace Pddl

/-! ### Rules without nonterminals -/

/-- The grammar refers to no nonterminal. -/
def Grammar.isCallFree {N : Type → Type} {α : Type} : Grammar N α → Bool
  | terminal _ => true
  | call _ => false
  | seq g h => g.isCallFree && h.isCallFree
  | refine _ g => g.isCallFree
  | orElse g h => g.isCallFree && h.isCallFree
  | opt g => g.isCallFree
  | more g => g.isCallFree
  | emptyOr g => g.isCallFree
  | typedList _ group values => group.isCallFree && values.isCallFree

/-- Without nonterminals, it does not matter how these are read. -/
theorem Grammar.denote_eq_of_isCallFree {N : Type → Type} {read read' : {α : Type} → N α → Reader α}
    {α : Type} {g : Grammar N α} (hg : g.isCallFree = true) : g.denote read = g.denote read' := by
  induction g with
  | terminal t => rfl
  | call n => cases hg
  | seq g h ihg ihh | orElse g h ihg ihh | typedList default group values ihg ihh =>
    simp only [isCallFree, Bool.and_eq_true] at hg
    simp only [denote]
    rw [ihg hg.1, ihh hg.2]
  | refine f g ih | opt g ih | more g ih | emptyOr g ih =>
    simp only [denote]
    rw [ih hg]

namespace Rule

/-- The rule stays in its parentheses, and refers neither to a nonterminal nor to a flag. -/
structure IsFlat {α : Type} (g : Rule α) : Prop where
  flagFree : g.FlagFree
  callFree : g.isCallFree = true
  next : g.next (.within 0) = some (.within 0)

variable {α : Type} {g : Rule α} {levels : Nat}

namespace IsFlat

/-- Flat rules read the same on any number of levels. -/
theorem look_eq (hg : g.IsFlat) (levels levels' : Nat) : g.look levels = g.look levels' :=
  Grammar.denote_eq_of_isCallFree hg.callFree

/-- Flat rules never use up their levels. -/
theorem look_ne_tooDeep (hg : g.IsFlat) (v : View) : g.look levels v ≠ .tooDeep := by
  rw [hg.look_eq levels (2 * nesting false v.rest + 2)]
  exact Rule.look_ne_tooDeep hg.next (by omega)

end IsFlat

/-- What a flat rule reads at a place is parsed there. -/
theorem Reads.parse {s r : List Char} {a : α} (h : g.Reads s r (· = a)) (hg : g.IsFlat)
    (u : List Char) (depth ceiling : Nat) :
    ∃ c, g.parse (Cursor.ofOffset (u ++ s ++ r) u.length depth ceiling) = .ok (c, a) ∧
      c.offset = u.length + s.length ∧ c.rest = r := by
  let start := Cursor.ofOffset (u ++ s ++ r) u.length depth ceiling
  have hcalm : start.Calm := Cursor.calm_ofOffset _ _ _ _
  have hrest : start.view.rest = s ++ r := by simp [start, Cursor.ofOffset, Cursor.view]
  obtain htoo | ⟨b, a, hlook, rfl⟩ := h (start.ceiling - start.depth) start.view.before
  · exact absurd htoo (hg.look_ne_tooDeep _)
  · rw [← hrest] at hlook
    obtain ⟨c, hc, hfollows, hview⟩ :=
      parse_of_look (Grammar.settled_of_flagFree hg.flagFree) hcalm hlook
    have hcrest : c.rest = r := congrArg View.rest hview
    refine ⟨c, hc, ?_, hcrest⟩
    have hoff := hfollows.offset
    have hlen : start.rest.length = s.length + r.length := by
      rw [← List.length_append, ← hrest]
      rfl
    have hstart : start.offset = u.length := rfl
    rw [hcrest, hlen, hstart] at hoff
    omega

end Rule

/-! ### Declarations of predicates and functions -/

/-- A typed list in a form is written as its parts. -/
theorem oneLine_items {α : Type} [ToNode α] [Spelled α] (head : String) (closing : TypeSpec)
    (l : TypedList α) :
    oneLine head (if l.items = [] then [] else [[' '].intercalate (itemParts closing l)]) =
      oneLine head (itemParts closing l) := by
  by_cases hl : l.items = []
  · rw [if_pos hl, show itemParts closing l = [] by rw [itemParts, hl]; rfl]
  · rw [if_neg hl, oneLine, oneLine, enclose, enclose, spread_intercalate (itemParts_ne_nil hl)]

/-- A declared symbol is written with its variables. -/
theorem Node.render_declared {kind : SymbolKind} (hkind : kind.sigil = "") {k : Kind}
    (hk : k.layout = .form (.name 0) [.items 1 .rootType]) (x : Symbol kind)
    (l : TypedList Variable) :
    (form k [toNode x, toNode l]).render =
      .ok (String.ofList (oneLine x.written (itemParts .object l))) := by
  have h := render_form (f := [toNode x, toNode l]) hk
    (.cons (words_items .object (i := 1) rfl) .nil)
  rwa [head_symbol hkind rfl, List.flatten_singleton, oneLine_items] at h

instance : Spelled PredicateSkeleton where
  spelling s := oneLine s.symbol.written (itemParts .object s.parameters)
  render_toNode s := Node.render_declared (k := .predicateSkeleton) rfl rfl s.symbol s.parameters

/-- The text of the declaration of a function. -/
def FunctionSkeleton.spelling (f : FunctionSkeleton) : List Char :=
  oneLine f.symbol.written (itemParts .object f.parameters)

theorem FunctionSkeleton.render_toNode (f : FunctionSkeleton) :
    (toNode f).render = .ok (String.ofList f.spelling) :=
  Node.render_declared (k := .functionSkeleton) rfl rfl f.symbol f.parameters

instance : Spelled FunctionSkeleton :=
  ⟨FunctionSkeleton.spelling, FunctionSkeleton.render_toNode⟩

/-! ### Items -/

namespace Rule

open Grammar

/-- The rules of what typed lists hold, and what of it can be written: all symbols, and the
declarations of functions whose parameters can be written. -/
inductive Lists : {α : Type} → [ToNode α] → [Spelled α] → Rule α → (α → Prop) → Prop
  | symbol (kind : SymbolKind) : Lists (symbol kind) fun _ => True
  | functionSkeleton : Lists functionSkeleton fun f => f.parameters.IsWritable

theorem isEnclosed_functionSkeleton : IsEnclosed functionSkeleton :=
  ⟨Grammar.settled_of_flagFree (by simp [functionSkeleton]), by decide, rfl⟩

/-- A symbol is all that its text holds. -/
theorem text_symbol {kind : SymbolKind} {ceiling : Nat} (p : Part (symbol kind) ceiling) :
    p.text = p.value.written.toList := by
  obtain ⟨d, hd, hrest⟩ := p.whole
  obtain ⟨-, h⟩ := look_of_parse (by simp) (calm_ofText _ _) hd
  rw [look_symbol, lexeme_eq_found] at h
  obtain ⟨n, hn, hview⟩ := h
  obtain ⟨r, hr, rfl, -⟩ := symbolLexeme?_eq_some hn
  have htext : p.text = kind.sigil.toList ++ p.value.text.toList ++ r := hr
  have hdrop := congrArg View.rest hview
  rw [View.rest_advance] at hdrop
  obtain rfl : r = [] := by
    rw [hr, List.drop_left] at hdrop
    exact hdrop.symm.trans hrest
  rw [htext, List.append_nil, Symbol.written, String.toList_append]

section

variable {α : Type} [ToNode α] [Spelled α] {g : Rule α} {W : α → Prop} {s : List Char}

namespace Lists

theorem flat (hg : g.Lists W) : g.IsFlat := by
  cases hg <;> exact ⟨by simp [Rule.functionSkeleton], rfl, rfl⟩

theorem flat_itemsOf (hg : g.Lists W) (d : TypeSpec) : IsFlat (itemsOf d g) := by
  cases hg <;> exact ⟨by simp [Rule.functionSkeleton], rfl, rfl⟩

theorem misses (hg : g.Lists W) (hs : s.head?.any beginsItem = false) : g.Misses s := by
  cases hg with
  | symbol kind =>
    cases kind with
    | var => exact misses_var_of_not_begins hs
    | _ => exact misses_symbol_of_not_begins rfl hs
  | functionSkeleton =>
    refine misses_of_opens rfl fun hhead => ?_
    rw [hhead] at hs
    exact absurd hs (by decide)

/-- What fills a text of its own is taken from it. -/
theorem takes_part (hg : g.Lists W) {ceiling : Nat} (p : Part g ceiling) :
    g.Takes p.text p.value := by
  have hflat := hg.flat
  cases hg with
  | symbol kind =>
    rw [text_symbol p]
    exact takes_symbol p.value
  | functionSkeleton =>
    obtain ⟨t, ht⟩ := p.exists_text isEnclosed_functionSkeleton
    refine ⟨ht ▸ ⟨'(', t, rfl, by decide, by decide, by decide⟩, fun {r} _ levels b => ?_⟩
    rw [hflat.look_eq levels ceiling, p.look isEnclosed_functionSkeleton rfl]
    exact Finding.leaves_found rfl

/-- What can be written is taken from its text. -/
theorem takes_spelling (hg : g.Lists W) {a : α} (ha : W a) : g.Takes (spelling a) a := by
  cases hg with
  | symbol kind => exact takes_symbol a
  | functionSkeleton =>
    have hitems := readsParts_itemsOf (d := .object) (g := Grammar.symbol .var) (l := a.parameters)
      (fun x _ => takes_symbol x.value) ha misses_var_of_not_begins
    refine ⟨isSolid_enclose _ _ _, fun {r} _ => ?_⟩
    refine (reads_headed (recovers_symbol a.symbol) hitems r).map ?_
    rintro ⟨_, _⟩ ⟨rfl, rfl⟩
    rfl

end Lists

end

end Rule

/-- What can be written, with its text. -/
def Part.written {α : Type} [ToNode α] [Spelled α] {g : Rule α} {W : α → Prop} (hg : g.Lists W)
    {a : α} (ha : W a) (ceiling : Nat) : Part g ceiling where
  text := spelling a
  value := a
  whole := by
    obtain ⟨c, hc, -, hrest⟩ :=
      ((hg.takes_spelling ha).reads (r := []) rfl).parse hg.flat [] 0 ceiling
    exact ⟨c, by simpa [Cursor.ofText] using hc, hrest⟩

/-! ### Reading typed lists -/

namespace Rule

open Grammar

variable {α : Type} [ToNode α] [Spelled α] {g : Rule α} {W : α → Prop}

/-- **A typed list is read group by group.**  Groups of items with their types and items without a
type, each behind blanks or comments, are read wherever they stand, up to the blanks in front of a
closing parenthesis: exactly the items that are written, in their order, each with the type of its
group or with the default. -/
theorem parse_typedText (hg : g.Lists W) {ceiling : Nat} (T : TypedText (Part g ceiling))
    (d : TypeSpec) (u : List Char) (s : Spacing) (y : List Char) (depth ceiling' : Nat) :
    ∃ c, parse (itemsOf d g) (Cursor.ofOffset
        (u ++ T.chars Part.text ++ (s.chars ++ ')' :: y)) u.length depth ceiling') =
          .ok (c, ⟨T.typed Part.value d⟩) ∧
      c.offset = u.length + (T.chars Part.text).length ∧ c.rest = s.chars ++ ')' :: y :=
  (reads_typedText hg.misses (.close s y) d fun p _ => hg.takes_part p).parse
    (hg.flat_itemsOf d) u depth ceiling'

/-- A function with a parameter is declared with a type, and one without parameters behind it. -/
theorem parse_typedText_functions :
    let f : FunctionSkeleton := ⟨⟨"f", by decide⟩, ⟨[⟨⟨"x", by decide⟩, .object⟩]⟩⟩
    let g : FunctionSkeleton := ⟨⟨"g", by decide⟩, ⟨[]⟩⟩
    ∃ c, parse (itemsOf .number functionSkeleton)
        (Cursor.ofOffset "(f ?x) - t ;c\n(g) )".toList 0 0 8) =
          .ok (c, ⟨[⟨f, .exact ⟨"t", by decide⟩⟩, ⟨g, .number⟩]⟩) ∧
      c.offset = 17 ∧ c.rest = " )".toList := by
  intro f g
  let F : Part functionSkeleton 1 := .written .functionSkeleton (a := f)
    (by simp [f, TypedList.IsWritable, TypeSpec.object, TypeSpec.IsWritable]) 1
  let G : Part functionSkeleton 1 := .written .functionSkeleton (a := g)
    (by simp [g, TypedList.IsWritable]) 1
  let gap : Gap := ⟨⟨" ;c\n".toList, by decide, by decide⟩, by decide⟩
  let T : TypedText (Part functionSkeleton 1) :=
    .grouped ⟨⟨⟨F, []⟩, .one, .one, .exact ⟨"t", by decide⟩⟩, []⟩ [(gap, G)]
  have hT : T.chars Part.text = "(f ?x) - t ;c\n(g)".toList := by decide +kernel
  have h := parse_typedText .functionSkeleton T .number [] .one [] 0 8
  rw [hT] at h
  exact h

/-! ### Printing typed lists -/

/-- **A typed list is printed by its groups and read back.**  The groups are not empty, neighbouring
ones have different types, and one behind the other they are the list.  With any default type, what
is printed is the list again. -/
theorem parse_renderItems (hg : g.Lists W) (d : TypeSpec) {l : TypedList α} (hl : l.IsWritable)
    (hW : ∀ a ∈ l.items, W a.value) :
    runs (toNode l).rendering.items = (groupsOf l.items).map runOf ∧
      (∀ group ∈ groupsOf l.items, group.1 ≠ []) ∧
      ((groupsOf l.items).IsChain fun group next => group.2 ≠ next.2) ∧
      groupItems (groupsOf l.items) = l.items ∧
      ∃ text, (toNode l).renderItems (toNode d) = .ok text ∧
        ∀ depth ceiling, ∃ c,
          parse (itemsOf d g) (Cursor.ofOffset text.toList 0 depth ceiling) = .ok (c, l) ∧
            c.rest = [] := by
  refine ⟨?_, fun group h => ne_nil_of_mem_groupsOf (t := group.2) h, isChain_groupsOf _,
    groupItems_groupsOf _, _, itemsText_eq d l, fun depth ceiling => ?_⟩
  · rw [items_rendering, runs_eq]
  · have hread := reads_itemParts (d := d) (fun a ha => hg.takes_spelling (hW a ha)) hl hg.misses
      (.nil .none)
    obtain ⟨c, hc, -, hrest⟩ := hread.parse (hg.flat_itemsOf d) [] depth ceiling
    refine ⟨c, ?_, hrest⟩
    rw [String.toList_ofList]
    simpa [Spacing.none] using hc

/-- The default type is written out in front of another group, and left out at the end. -/
theorem parse_renderItems_variables :
    let l : TypedList Variable :=
      ⟨[⟨⟨"x", by decide⟩, .object⟩, ⟨⟨"y", by decide⟩, .either [⟨"s", by decide⟩]⟩,
        ⟨⟨"z", by decide⟩, .object⟩]⟩
    (toNode l).renderItems (toNode TypeSpec.object) =
        .ok "?x - object ?y - (either s) ?z" ∧
      ∀ depth ceiling, ∃ c, parse (itemsOf .object (symbol .var))
          (Cursor.ofOffset "?x - object ?y - (either s) ?z".toList 0 depth ceiling) = .ok (c, l) ∧
        c.rest = [] := by
  intro l
  have hl : l.IsWritable := by
    simp [l, TypedList.IsWritable, TypeSpec.object, TypeSpec.IsWritable]
  have htext : (toNode l).renderItems (toNode TypeSpec.object) =
      .ok "?x - object ?y - (either s) ?z" := by decide +kernel
  obtain ⟨-, -, -, -, text, ht, h⟩ := parse_renderItems (.symbol .var) .object hl (by simp)
  obtain rfl := Except.ok.inj (htext.symm.trans ht)
  exact ⟨htext, h⟩

end Rule

end Pddl
