import Pddl.Proofs.Comments

/-!
# Texts of typed lists

A typed list is written as groups of items, each with a dash and a type behind it, and items
without a type at the end.  Any blanks and comments may stand between two tokens.

* `Gap`, `Row` : spacing that is not empty, and elements with gaps between them.
* `TypeText`, `GroupText`, `TypedText` : written types, groups and typed lists.
* `Rule.Takes` : the rule takes exactly the text where no name goes on behind it.
* `Rule.reads_typedText` : **a typed list is read group by group**, wherever a list can end.
-/

namespace Pddl

/-! ### Rows -/

/-- Spacing that is not empty. -/
structure Gap extends Spacing where
  nonempty : chars ≠ []

/-- A single blank. -/
def Gap.one : Gap := ⟨.one, by decide⟩

@[simp] theorem Gap.chars_one : Gap.one.chars = [' '] := rfl

/-- One or more elements with gaps between them. -/
structure Row (X : Type) where
  /-- The first element. -/
  first : X
  /-- The other elements, each with the gap in front of it. -/
  others : List (Gap × X)

variable {X : Type}

/-- The texts of some elements, each behind its gap. -/
def behindGaps (text : X → List Char) (xs : List (Gap × X)) : List Char :=
  xs.flatMap fun x => x.1.chars ++ text x.2

@[simp] theorem behindGaps_nil (text : X → List Char) : behindGaps text [] = [] := rfl

@[simp] theorem behindGaps_cons (text : X → List Char) (x : Gap × X) (xs : List (Gap × X)) :
    behindGaps text (x :: xs) = x.1.chars ++ (text x.2 ++ behindGaps text xs) := by
  simp [behindGaps]

namespace Row

/-- The elements. -/
def toList (row : Row X) : List X := row.first :: row.others.map Prod.snd

/-- The text of a row. -/
def chars (text : X → List Char) (row : Row X) : List Char :=
  text row.first ++ behindGaps text row.others

end Row

/-! ### Typed lists as they are written -/

/-- A written type. -/
inductive TypeText where
  /-- A primitive type. -/
  | exact (t : PrimitiveType)
  /-- A choice among types, with spacing inside the parentheses and behind the head word. -/
  | either (lead : Spacing) (gap : Gap) (types : Row PrimitiveType) (trail : Spacing)

namespace TypeText

/-- The text. -/
def chars : TypeText → List Char
  | exact t => t.written.toList
  | either lead gap types trail =>
    '(' :: (lead.chars ++ ("either".toList ++ (gap.chars ++
      (types.chars (·.written.toList) ++ (trail.chars ++ [')'])))))

/-- The type that is written. -/
def type : TypeText → TypeSpec
  | exact t => .exact t
  | either _ _ types _ => .either types.toList

end TypeText

/-- A written group: items, a dash and the type that they share. -/
structure GroupText (X : Type) where
  /-- The items. -/
  items : Row X
  /-- What stands in front of the dash. -/
  before : Gap
  /-- What stands behind the dash. -/
  behind : Gap
  /-- The type. -/
  type : TypeText

namespace GroupText

/-- The text. -/
def chars (text : X → List Char) (group : GroupText X) : List Char :=
  group.items.chars text ++ (group.before.chars ++ '-' :: (group.behind.chars ++ group.type.chars))

/-- The items with their type. -/
def typed {α : Type} (value : X → α) (group : GroupText X) : List (Typed α) :=
  group.items.toList.map fun x => ⟨value x, group.type.type⟩

end GroupText

/-- A written typed list. -/
inductive TypedText (X : Type) where
  /-- Nothing. -/
  | empty
  /-- Items without a type. -/
  | untyped (items : Row X)
  /-- Groups, and items without a type behind them. -/
  | grouped (groups : Row (GroupText X)) (tail : List (Gap × X))

namespace TypedText

/-- The text. -/
def chars (text : X → List Char) : TypedText X → List Char
  | empty => []
  | untyped items => items.chars text
  | grouped groups tail => groups.chars (GroupText.chars text) ++ behindGaps text tail

/-- What is listed, with the given type where none is written. -/
def typed {α : Type} (value : X → α) (default : TypeSpec) : TypedText X → List (Typed α)
  | empty => []
  | untyped items => items.toList.map fun x => ⟨value x, default⟩
  | grouped groups tail =>
    groups.toList.flatMap (GroupText.typed value) ++
      (tail.map Prod.snd).map fun x => ⟨value x, default⟩

/-- The items. -/
def items : TypedText X → List X
  | empty => []
  | untyped items => items.toList
  | grouped groups tail => groups.toList.flatMap (·.items.toList) ++ tail.map Prod.snd

theorem map_value_typed {α : Type} (value : X → α) (d : TypeSpec) (list : TypedText X) :
    (list.typed value d).map Typed.value = list.items.map value := by
  cases list <;>
    simp [typed, items, GroupText.typed, List.map_flatMap, Function.comp_def]

end TypedText

/-! ### Where items end -/

/-- An item of a typed list can begin with the character. -/
def beginsItem (c : Char) : Bool := isNameStart c || c == '?' || c == '('

theorem beginsItem_of_isBlank {c : Char} (h : isBlank c = true) : beginsItem c = false := by
  have hstart : isNameStart c = false := by
    by_contra hs
    rw [isBlank_eq_false_of_isNameChar (isNameChar_of_isNameStart (by simpa using hs))] at h
    cases h
  simp only [beginsItem, hstart, Bool.false_or, Bool.or_eq_false_iff, beq_eq_false_iff_ne]
  constructor <;> rintro rfl <;> exact absurd h (by decide)

/-- Neither a blank nor a comment begins with such a character. -/
structure EndsAtSpacing (p : Char → Bool) : Prop where
  blank : ∀ c, isBlank c = true → p c = false
  comment : p ';' = false

theorem endsAtSpacing_isNameChar : EndsAtSpacing isNameChar where
  blank c hc := by
    by_contra hname
    rw [isBlank_eq_false_of_isNameChar (by simpa using hname)] at hc
    cases hc
  comment := by decide

theorem Gap.any_of_endsAtSpacing {p : Char → Bool} (hp : EndsAtSpacing p) (gap : Gap)
    (y : List Char) : (gap.chars ++ y).head?.any p = false := by
  obtain ⟨c, cs, hc⟩ := List.exists_cons_of_ne_nil gap.nonempty
  have h := gap.toSpacing.any_eq_false hp.blank hp.comment (y := []) rfl
  rw [hc] at h ⊢
  exact h

theorem Gap.any_isNameChar (gap : Gap) (y : List Char) :
    (gap.chars ++ y).head?.any isNameChar = false :=
  gap.any_of_endsAtSpacing endsAtSpacing_isNameChar y

theorem any_eq_false_behindGaps {p : Char → Bool} (hp : EndsAtSpacing p) (text : X → List Char)
    (xs : List (Gap × X)) {r : List Char} (hr : r.head?.any p = false) :
    (behindGaps text xs ++ r).head?.any p = false := by
  cases xs with
  | nil => exact hr
  | cons x xs =>
    rw [behindGaps_cons, List.append_assoc]
    exact x.1.any_of_endsAtSpacing hp _

theorem any_isNameChar_behindGaps (text : X → List Char) (xs : List (Gap × X)) {r : List Char}
    (hr : r.head?.any isNameChar = false) :
    (behindGaps text xs ++ r).head?.any isNameChar = false :=
  any_eq_false_behindGaps endsAtSpacing_isNameChar text xs hr

/-- A row of items ends here: no name goes on, and no item begins, also behind blanks. -/
structure RowEnd (r : List Char) : Prop where
  name : r.head?.any isNameChar = false
  here : r.head?.any beginsItem = false
  behind : (r.drop (blankLength false r)).head?.any beginsItem = false

/-- A row of items ends in front of a dash. -/
theorem rowEnd_dash (gap : Gap) (y : List Char) : RowEnd (gap.chars ++ '-' :: y) where
  name := gap.any_isNameChar _
  here := gap.any_eq_false (fun _ => beginsItem_of_isBlank) (by decide)
    (show beginsItem '-' = false by decide)
  behind := by
    have hy : blankLength false ('-' :: y) = 0 := by simp [blankLength, isBlank]
    rw [gap.blankLength_append, hy, Nat.add_zero, List.drop_left]
    exact show beginsItem '-' = false by decide

/-- A typed list can end here: behind blanks and comments, the text ends or a parenthesis is
closed. -/
inductive ListEnd : List Char → Prop
  | nil (s : Spacing) : ListEnd s.chars
  | close (s : Spacing) (y : List Char) : ListEnd (s.chars ++ ')' :: y)

namespace ListEnd

variable {r : List Char}

theorem exists_eq (h : ListEnd r) : ∃ (s : Spacing) (z : List Char), r = s.chars ++ z ∧
    r.drop (blankLength false r) = z ∧ (z = [] ∨ ∃ y, z = ')' :: y) := by
  cases h with
  | nil s => exact ⟨s, [], by simp, by rw [s.blank, List.drop_length], .inl rfl⟩
  | close s y =>
    refine ⟨s, _, rfl, ?_, .inr ⟨y, rfl⟩⟩
    rw [s.blankLength_append, blankLength_close, Nat.add_zero, List.drop_left]

theorem rowEnd (h : ListEnd r) : RowEnd r := by
  obtain ⟨s, z, hr, hdrop, hz⟩ := h.exists_eq
  have hhead : ∀ {p : Char → Bool}, p ')' = false → z.head?.any p = false := by
    intro p hp
    obtain rfl | ⟨y, rfl⟩ := hz
    · rfl
    · simpa using hp
  refine ⟨?_, ?_, ?_⟩
  · exact hr ▸ s.any_isNameChar (hhead (by decide))
  · exact hr ▸ s.any_eq_false (fun _ => beginsItem_of_isBlank) (by decide) (hhead (by decide))
  · exact hdrop ▸ hhead (by decide)

theorem head?_ne_dash (h : ListEnd r) : (r.drop (blankLength false r)).head? ≠ some '-' := by
  obtain ⟨s, z, -, hdrop, rfl | ⟨y, rfl⟩⟩ := h.exists_eq <;> rw [hdrop] <;> simp

end ListEnd

/-! ### Behind spacing -/

section

variable {α : Type} {s : List Char}

/-- Behind blanks and comments, the other characters are left. -/
theorem View.exists_skipBlanks_drop (b : Option Char) (s : List Char) :
    ∃ b', skipBlanks ⟨b, s⟩ = ⟨b', s.drop (blankLength false s)⟩ := by
  have h : (skipBlanks ⟨b, s⟩).rest = s.drop (blankLength false s) := by simp [skipBlanks]
  exact ⟨_, congrArg (mk _) h⟩

/-- Spacing is skipped up to what follows it. -/
theorem Spacing.exists_skipBlanks (spacing : Spacing) (hs : blankLength false s = 0)
    (b : Option Char) : ∃ b', View.skipBlanks ⟨b, spacing.chars ++ s⟩ = ⟨b', s⟩ := by
  have h := spacing.rest_skipBlanks (v := ⟨b, spacing.chars ++ s⟩) rfl hs
  exact ⟨_, congrArg (View.mk _) h⟩

/-- Behind a gap, a reader is separated from what is in front. -/
theorem Gap.exists_separated (gap : Gap) (hs : blankLength false s = 0) (r : Reader α)
    (b : Option Char) : ∃ b', Reader.separated r ⟨b, gap.chars ++ s⟩ = r ⟨b', s⟩ := by
  obtain ⟨b', hb'⟩ := gap.exists_skipBlanks hs b
  exact ⟨b', by rw [Reader.separated, if_pos (gap.separates gap.nonempty rfl), hb']⟩

end

namespace Rule

open Grammar

variable {α : Type} {g : Rule α} {s r : List Char} {text : X → List Char} {value : X → α}
  {xs : List (Gap × X)}

/-! ### Single items and rows -/

/-- The rule takes exactly the text, and finds the given construct, where none of the characters
follows the text. -/
structure TakesBefore (p : Char → Bool) (g : Rule α) (s : List Char) (a : α) : Prop where
  solid : IsSolid s
  reads : ∀ {r}, r.head?.any p = false → g.Reads s r (· = a)

/-- The rule takes exactly the text, and finds the given construct, where no name goes on behind
the text. -/
abbrev Takes (g : Rule α) (s : List Char) (a : α) : Prop := TakesBefore isNameChar g s a

/-- Symbols are taken. -/
theorem takes_symbol {kind : SymbolKind} (x : Symbol kind) :
    Takes (symbol kind) x.written.toList x where
  solid := (recovers_symbol x).solid
  reads hr := reads_terminal fun _ => Terminal.symbolLexeme?_written x hr

/-- A symbol without a sigil is missing where no item begins. -/
theorem misses_symbol_of_not_begins {kind : SymbolKind} (hk : kind.sigil = "") {s : List Char}
    (hs : s.head?.any beginsItem = false) : Misses (symbol kind) s := by
  refine misses_symbol hk ?_
  rcases h : s.head? with _ | c <;> simp_all [beginsItem]

/-- A variable is missing where no item begins. -/
theorem misses_var_of_not_begins {s : List Char} (hs : s.head?.any beginsItem = false) :
    Misses (symbol .var) s := by
  refine misses_var fun hhead => ?_
  rw [hhead] at hs
  exact absurd hs (by decide)

/-- Where a row of items ends, no other item follows. -/
theorem stops_of_rowEnd (hg : ∀ {s}, s.head?.any beginsItem = false → g.Misses s)
    (hr : RowEnd r) : g.Stops r := by
  intro levels b
  unfold Reader.separated
  split
  · obtain ⟨b', hb'⟩ := View.exists_skipBlanks_drop b r
    rw [hb']
    exact hg hr.behind levels b'
  · exact .inr rfl

section

variable {p : Char → Bool} (hp : EndsAtSpacing p)

include hp

/-- Further items, each behind a gap. -/
theorem reads_behindGaps (hx : ∀ x ∈ xs.map Prod.snd, g.TakesBefore p (text x) (value x))
    (hr : r.head?.any p = false) (hstop : g.Stops r) :
    Reads (.more g) (behindGaps text xs) r (· = (xs.map Prod.snd).map value) := by
  intro levels
  have hf : (g.look levels).Forward := Grammar.forward_denote (fun n => n.forward_denote levels) g
  show ∀ b, (Reader.more (g.look levels) ⟨b, behindGaps text xs ++ r⟩).Leaves r _
  induction xs with
  | nil =>
    intro b
    rw [Reader.more_eq hf]
    obtain h | h := hstop levels b
    · exact .inl (by simp [Reader.opt, h, Finding.andThen, Finding.orElse])
    · exact .inr ⟨b, [], by simp [Reader.opt, h, Finding.andThen, Finding.orElse], rfl⟩
  | cons x xs ih =>
    intro b
    obtain ⟨gap, x⟩ := x
    have hfirst := hx x (by simp)
    have ih := ih fun y hy => hx y (List.mem_cons_of_mem _ hy)
    have hname := any_eq_false_behindGaps hp text xs hr
    obtain ⟨b', hb'⟩ := gap.exists_separated
      (blankLength_of_isSolid (hfirst.solid.append (behindGaps text xs ++ r))) (g.look levels) b
    rw [Reader.more_eq hf, behindGaps_cons, List.append_assoc, List.append_assoc, Reader.opt, hb']
    obtain h | ⟨b'', a, h, rfl⟩ := hfirst.reads hname levels b'
    · exact .inl (by rw [h]; rfl)
    · rw [h]
      -- the gap makes the list go on
      have hlen : ¬(behindGaps text xs ++ r).length =
          (gap.chars ++ (text x ++ (behindGaps text xs ++ r))).length := by
        have := List.length_pos_of_ne_nil gap.nonempty
        simp only [List.length_append]
        omega
      simp only [Finding.andThen, Finding.orElse, if_neg hlen]
      refine (ih b'').andThen ?_
      rintro b₃ _ rfl
      exact Finding.leaves_found rfl

/-- A row of items. -/
theorem reads_row (row : Row X) (hx : ∀ x ∈ row.toList, g.TakesBefore p (text x) (value x))
    (hr : r.head?.any p = false) (hstop : g.Stops r) :
    Reads (many1 g) (row.chars text) r (· = row.toList.map value) := by
  have hfirst := (hx row.first (by simp [Row.toList])).reads
    (any_eq_false_behindGaps hp text row.others hr)
  have hothers : Reads (.more g) _ r (· = (row.others.map Prod.snd).map value) :=
    reads_behindGaps hp (fun x h => hx x (List.mem_cons_of_mem _ h)) hr hstop
  refine (hfirst.seq hothers).map ?_
  rintro ⟨a, as⟩ ⟨rfl, rfl⟩
  rfl

end

theorem solid_row {p : Char → Bool} (row : Row X)
    (hx : ∀ x ∈ row.toList, g.TakesBefore p (text x) (value x)) :
    IsSolid (row.chars text) :=
  (hx row.first (by simp [Row.toList])).solid.append _

/-- Behind the gap in front of it, a row of items is separated. -/
theorem separated_row {β : Type} {p : Char → Bool} (gap : Gap) (row : Row X)
    (hx : ∀ x ∈ row.toList, g.TakesBefore p (text x) (value x)) (rd : Reader β) (b : Option Char)
    (r : List Char) : ∃ b',
      Reader.separated rd ⟨b, behindGaps text ((gap, row.first) :: row.others) ++ r⟩ =
        rd ⟨b', row.chars text ++ r⟩ := by
  rw [behindGaps_cons, List.append_assoc]
  exact gap.exists_separated (blankLength_of_isSolid ((solid_row row hx).append r)) rd b

/-- One or more items are missing where none begins. -/
theorem misses_many1 (hg : g.Misses s) : Misses (many1 g) s := fun levels b => by
  rw [many1, look_map, look_seq]
  exact (hg levels b).andThen.andThen

theorem Reads.opt {P : α → Prop} (hg : g.Reads s r P) :
    Reads (.opt g) s r fun a? => ∃ a, a? = some a ∧ P a := fun levels b =>
  Finding.Leaves.orElse ((hg levels b).andThen fun _ a ha => Finding.leaves_found ⟨a, rfl, ha⟩)

/-- A row of items, as any number of items. -/
theorem reads_many_row {p : Char → Bool} (hp : EndsAtSpacing p) (row : Row X)
    (hx : ∀ x ∈ row.toList, g.TakesBefore p (text x) (value x)) (hr : r.head?.any p = false)
    (hstop : g.Stops r) : Reads (many g) (row.chars text) r (· = row.toList.map value) := by
  refine (reads_row hp row hx hr hstop).opt.map ?_
  rintro _ ⟨as, rfl, rfl⟩
  rfl

/-- No item, as any number of items. -/
theorem leaves_many_of_misses (hg : g.Misses r) (levels : Nat) (b : Option Char) :
    (look levels (many g) ⟨b, r⟩).Leaves r (· = []) := by
  rw [many, look_map, show look levels (.opt (many1 g)) ⟨b, r⟩ =
    Reader.opt (look levels (many1 g)) ⟨b, r⟩ from rfl, Reader.opt]
  obtain h | h := misses_many1 hg levels b <;> rw [h]
  · exact .inl rfl
  · exact Finding.leaves_found rfl

/-! ### Types -/

/-- A form with spacing inside its parentheses. -/
theorem reads_spacedForm {w : String} (hw : IsWord w) (lead : Spacing) (gap : Gap)
    (trail : Spacing) {P : α → Prop} (hs : IsSolid s) (hg : g.Reads s (trail.chars ++ ')' :: r) P) :
    Reads (form w g)
      ('(' :: (lead.chars ++ (w.toList ++ (gap.chars ++ (s ++ (trail.chars ++ [')'])))))) r P := by
  intro levels b
  have htext : '(' :: (lead.chars ++ (w.toList ++ (gap.chars ++ (s ++ (trail.chars ++ [')']))))) ++
      r = '(' :: (lead.chars ++ (w.toList ++ (gap.chars ++ (s ++ (trail.chars ++ ')' :: r))))) := by
    simp
  obtain ⟨b₁, h₁⟩ := lead.exists_skipBlanks (s := w.toList ++ (gap.chars ++ (s ++ (trail.chars ++
    ')' :: r)))) (blankLength_of_isSolid ((isHead_of_isWord hw).solid.append _)) (some '(')
  have hword : Reads (word w) w.toList (gap.chars ++ (s ++ (trail.chars ++ ')' :: r))) (· = ()) :=
    reads_terminal fun _ => by
      simp [Terminal.lexeme?, keywordLength?_append_self hw (gap.any_isNameChar _)]
  rw [htext, form, look_parens, h₁, look_seqRight, look_seqRight]
  obtain h₂ | ⟨b₂, u, h₂, rfl⟩ := hword levels b₁
  · exact .inl (by rw [h₂]; rfl)
  obtain ⟨b₃, h₃⟩ := gap.exists_skipBlanks (s := s ++ (trail.chars ++ ')' :: r))
    (blankLength_of_isSolid (hs.append _)) b₂
  simp only [h₂, look_blanks, h₃, Finding.andThen]
  refine (hg levels b₃).andThen fun b₄ a ha => ?_
  obtain ⟨b₅, h₅⟩ := trail.exists_skipBlanks (blankLength_close r) b₄
  rw [h₅, look_close]
  exact Finding.leaves_found ha

theorem solid_typeText (t : TypeText) : IsSolid t.chars := by
  cases t with
  | exact t => exact (takes_symbol t).solid
  | either lead gap types trail => exact ⟨_, _, rfl, by decide, by decide, by decide⟩

/-- A written type is read. -/
theorem reads_typeText (t : TypeText) (hr : r.head?.any isNameChar = false) :
    Reads type t.chars r (· = t.type) := by
  cases t with
  | exact t =>
    refine .left (((takes_symbol t).reads hr).map ?_)
    rintro _ rfl
    rfl
  | either lead gap types trail =>
    have hend : RowEnd (trail.chars ++ ')' :: r) := (ListEnd.close trail r).rowEnd
    have htakes : ∀ x ∈ types.toList, Takes (symbol .type) x.written.toList (id x) :=
      fun x _ => takes_symbol x
    have htypes := reads_row endsAtSpacing_isNameChar types htakes hend.name
      (stops_of_rowEnd (misses_symbol_of_not_begins rfl) hend)
    refine .right (.map (misses_symbol rfl (by simp [TypeText.chars, isNameStart]))) ?_
    refine (reads_spacedForm (by decide) lead gap trail (solid_row types htakes) htypes).map ?_
    rintro _ rfl
    simp [TypeText.type]

/-! ### Groups -/

/-- Where no group is in front, the groups end. -/
theorem leaves_groupsWithin_nil {rd : Reader (List α)} {first : Bool} {b : Option Char}
    (h : (Reader.separatedUnless first rd ⟨b, r⟩).Misses) (fuel : List Char) :
    (Reader.groupsWithin rd first fuel ⟨b, r⟩).Leaves r (· = []) := by
  obtain h | h := h
  · exact .inl (by
      cases fuel <;> simp [Reader.groupsWithin, Reader.opt, h, Finding.andThen, Finding.orElse])
  · refine .inr ⟨b, [], ?_, rfl⟩
    cases fuel <;> simp [Reader.groupsWithin, Reader.opt, h, Finding.andThen, Finding.orElse]

/-- Behind a group, the other groups follow. -/
theorem leaves_groupsWithin {rd : Reader (List α)} {first : Bool} {v : View} {as bs : List α}
    {c : Char} {fuel fuel' r' : List Char}
    (h : (Reader.separatedUnless first rd v).Leaves r (· = as))
    (hrest : ∀ b, (Reader.groupsWithin rd (first && as.isEmpty) fuel ⟨b, r⟩).Leaves r' (· = bs))
    (hfuel : fuel' = c :: fuel) :
    (Reader.groupsWithin rd first fuel' v).Leaves r' (· = as ++ bs) := by
  subst hfuel
  obtain h | ⟨b, _, h, rfl⟩ := h
  · exact .inl (by simp [Reader.groupsWithin, Reader.opt, h, Finding.andThen, Finding.orElse])
  · simp only [Reader.groupsWithin, Reader.opt, h, Finding.andThen, Finding.orElse]
    refine (hrest b).andThen ?_
    rintro b' _ rfl
    exact Finding.leaves_found rfl

theorem look_dash (levels : Nat) (b : Option Char) (s : List Char) :
    look levels (terminal (.char '-')) ⟨b, '-' :: s⟩ = .found ⟨some '-', s⟩ () := by
  simp [look, denote, Terminal.lexeme?, Finding.lexeme, View.advance]

theorem look_dash_eq_missing {b : Option Char} (h : s.head? ≠ some '-') (levels : Nat) :
    look levels (terminal (.char '-')) ⟨b, s⟩ = .missing := by
  simp [look, denote, Terminal.lexeme?, Finding.lexeme, h]

/-- A dash between gaps, and the type behind it. -/
theorem reads_dash_type (before behind : Gap) (t : TypeText)
    (hr : r.head?.any isNameChar = false) :
    Reads (padded (terminal (.char '-')) *> type)
      (before.chars ++ '-' :: (behind.chars ++ t.chars)) r (· = t.type) := by
  intro levels b
  have htext : (before.chars ++ '-' :: (behind.chars ++ t.chars)) ++ r =
      before.chars ++ ('-' :: (behind.chars ++ (t.chars ++ r))) := by simp
  obtain ⟨b₁, h₁⟩ := before.exists_skipBlanks (s := '-' :: (behind.chars ++ (t.chars ++ r)))
    (by simp [blankLength, isBlank]) b
  obtain ⟨b₂, h₂⟩ := behind.exists_skipBlanks
    (blankLength_of_isSolid ((solid_typeText t).append r)) (some '-')
  rw [htext, look_seqRight, padded, look_seqLeft, look_seqRight]
  simp only [look_blanks, h₁, look_dash, h₂, Finding.andThen]
  exact reads_typeText t hr levels b₂

/-- The items at the end of a list, if there are any. -/
theorem leaves_untypedTail {rd : Reader (List α)} {first : Bool} {v : View} {as : List α}
    (h : (Reader.separatedUnless first rd v).Leaves r (· = as)) (has : as ≠ []) :
    (Reader.untypedTail first rd v).Leaves r (· = as) := by
  obtain h | ⟨b, _, h, rfl⟩ := h
  · exact .inl (by simp [Reader.untypedTail, Reader.opt, h, Finding.andThen, Finding.orElse])
  · refine .inr ⟨b, _, ?_, rfl⟩
    simp [Reader.untypedTail, Reader.opt, h, Finding.andThen, Finding.orElse, has]

/-- No items at the end of a list. -/
theorem leaves_untypedTail_nil {rd : Reader (List α)} {first : Bool} {b : Option Char}
    (h : (Reader.separatedUnless first rd ⟨b, r⟩).Misses ∨
      ∃ r', (Reader.separatedUnless first rd ⟨b, r⟩).Leaves r' (· = [])) :
    (Reader.untypedTail first rd ⟨b, r⟩).Leaves r (· = []) := by
  obtain (h | h) | ⟨r', h | ⟨b', _, h, rfl⟩⟩ := h
  · exact .inl (by simp [Reader.untypedTail, Reader.opt, h, Finding.andThen, Finding.orElse])
  · refine .inr ⟨b, [], ?_, rfl⟩
    simp [Reader.untypedTail, Reader.opt, h, Finding.andThen, Finding.orElse]
  · exact .inl (by simp [Reader.untypedTail, Reader.opt, h, Finding.andThen, Finding.orElse])
  · refine .inr ⟨b, [], ?_, rfl⟩
    simp [Reader.untypedTail, Reader.opt, h, Finding.andThen, Finding.orElse]

variable (hg : ∀ {s}, s.head?.any beginsItem = false → g.Misses s)
include hg

/-- A group of items with their type. -/
theorem reads_group {group : GroupText X}
    (hx : ∀ x ∈ group.items.toList, g.Takes (text x) (value x))
    (hr : r.head?.any isNameChar = false) :
    Reads (typedGroup g) (group.chars text) r (· = group.typed value) := by
  have hdash := rowEnd_dash group.before (group.behind.chars ++ (group.type.chars ++ r))
  have htype := reads_dash_type group.before group.behind group.type hr
  have hitems :=
    reads_row endsAtSpacing_isNameChar group.items hx hdash.name (stops_of_rowEnd hg hdash)
  have hbehind : group.before.chars ++ '-' :: (group.behind.chars ++ (group.type.chars ++ r)) =
      (group.before.chars ++ '-' :: (group.behind.chars ++ group.type.chars)) ++ r := by simp
  rw [hbehind] at hitems
  refine (hitems.seq htype).map ?_
  rintro ⟨as, t⟩ ⟨rfl, rfl⟩
  simp [GroupText.typed]

/-- There is no group where no item begins. -/
theorem misses_typedGroup (hs : s.head?.any beginsItem = false) : Misses (typedGroup g) s :=
  .map fun levels b => by
    rw [look_seq]
    exact (misses_many1 (hg hs) levels b).andThen

/-- Items at the end of a list, without a type, are no group. -/
theorem misses_typedGroup_row (row : Row X) (hx : ∀ x ∈ row.toList, g.Takes (text x) (value x))
    (hr : ListEnd r) : Misses (typedGroup g) (row.chars text ++ r) := by
  refine .map fun levels b => ?_
  rw [look_seq]
  refine (reads_row endsAtSpacing_isNameChar row hx hr.rowEnd.name
    (stops_of_rowEnd hg hr.rowEnd) levels b).andThen_misses fun b' _ _ => ?_
  obtain ⟨b'', hb''⟩ := View.exists_skipBlanks_drop b' r
  rw [look_seqRight, padded, look_seqLeft, look_seqRight]
  simp only [look_blanks, Finding.andThen, hb'', look_dash_eq_missing hr.head?_ne_dash]
  exact .inr rfl

variable {tail : List (Gap × X)} {groups : List (Gap × GroupText X)}
  (htail : ∀ x ∈ tail.map Prod.snd, g.Takes (text x) (value x)) (hr : ListEnd r)
include htail hr

/-- The groups end where items without a type follow, or nothing. -/
theorem stops_typedGroup : Stops (typedGroup g) (behindGaps text tail ++ r) := by
  rcases tail with _ | ⟨⟨gap, x⟩, xs⟩
  · exact stops_of_rowEnd (misses_typedGroup hg) hr.rowEnd
  · intro levels b
    obtain ⟨b', hb'⟩ := separated_row gap ⟨x, xs⟩ htail (look levels (typedGroup g)) b r
    rw [hb']
    exact misses_typedGroup_row hg ⟨x, xs⟩ htail hr levels b'

/-- The groups behind others are read up to the items without a type. -/
theorem look_groups (hgroups : ∀ group ∈ groups.map Prod.snd, ∀ x ∈ group.items.toList,
      g.Takes (text x) (value x)) (levels : Nat) {fuel : List Char} (b : Option Char)
    (hfuel : (behindGaps (GroupText.chars text) groups ++ (behindGaps text tail ++ r)).length ≤
      fuel.length) :
    (Reader.groupsWithin (look levels (typedGroup g)) false fuel
      ⟨b, behindGaps (GroupText.chars text) groups ++ (behindGaps text tail ++ r)⟩).Leaves
        (behindGaps text tail ++ r)
        (· = (groups.map Prod.snd).flatMap (GroupText.typed value)) := by
  induction groups generalizing fuel b with
  | nil =>
    have hstop : (Reader.separatedUnless false (look levels (typedGroup g))
      ⟨b, behindGaps text tail ++ r⟩).Misses := stops_typedGroup hg htail hr levels b
    exact leaves_groupsWithin_nil hstop fuel
  | cons x groups ih =>
    obtain ⟨gap, group⟩ := x
    obtain ⟨c, fuel, rfl⟩ : ∃ c fuel', fuel = c :: fuel' := by
      refine List.exists_cons_of_ne_nil ?_
      rintro rfl
      have := List.length_pos_of_ne_nil gap.nonempty
      simp only [behindGaps_cons, List.length_append, List.length_nil] at hfuel
      omega
    have hgroup := hgroups group (by simp)
    have hend : (behindGaps (GroupText.chars text) groups ++
        (behindGaps text tail ++ r)).head?.any isNameChar = false :=
      any_isNameChar_behindGaps _ _ (any_isNameChar_behindGaps _ _ hr.rowEnd.name)
    obtain ⟨b', hb'⟩ := gap.exists_separated (s := group.chars text ++
      (behindGaps (GroupText.chars text) groups ++ (behindGaps text tail ++ r)))
      (blankLength_of_isSolid (((solid_row group.items hgroup).append _).append _))
      (look levels (typedGroup g)) b
    rw [behindGaps_cons, List.append_assoc, List.append_assoc] at hfuel ⊢
    have hread := reads_group hg hgroup hend levels b'
    rw [← hb'] at hread
    refine leaves_groupsWithin hread (fun b'' => ?_) rfl
    refine ih (fun G hG => hgroups G (List.mem_cons_of_mem _ hG)) b'' ?_
    simp only [List.length_append, List.length_cons] at hfuel ⊢
    have := List.length_pos_of_ne_nil gap.nonempty
    omega

/-- The groups at the beginning of a list are read up to the items without a type. -/
theorem look_groupRow (groups : Row (GroupText X))
    (hgroups : ∀ group ∈ groups.toList, ∀ x ∈ group.items.toList, g.Takes (text x) (value x))
    (levels : Nat) (b : Option Char) :
    (Reader.groupsWithin (look levels (typedGroup g)) true
      (groups.chars (GroupText.chars text) ++ (behindGaps text tail ++ r))
      ⟨b, groups.chars (GroupText.chars text) ++ (behindGaps text tail ++ r)⟩).Leaves
        (behindGaps text tail ++ r) (· = groups.toList.flatMap (GroupText.typed value)) := by
  obtain ⟨group, groups⟩ := groups
  have hfirst := hgroups group (List.mem_cons_self ..)
  have hread (b') := reads_group hg hfirst (any_isNameChar_behindGaps (GroupText.chars text) groups
    (any_isNameChar_behindGaps text tail hr.rowEnd.name)) levels b'
  -- the first group takes a character, which counts for the fuel
  obtain ⟨c, cs, hcs, -⟩ := (solid_row group.items hfirst).append
    (group.before.chars ++ '-' :: (group.behind.chars ++ group.type.chars))
  have hcs : group.chars text = c :: cs := hcs
  rw [Row.chars, List.append_assoc]
  refine leaves_groupsWithin (hread b) (fun b' => look_groups hg htail hr
    (fun G hG => hgroups G (List.mem_cons_of_mem _ hG)) levels b' ?_)
    (by rw [hcs, List.cons_append])
  simp only [List.length_append]
  omega

/-- The items at the end of a list are read, if there are any. -/
theorem look_untypedTail (levels : Nat) (b : Option Char) :
    (Reader.untypedTail false (look levels (many g)) ⟨b, behindGaps text tail ++ r⟩).Leaves r
      (· = (tail.map Prod.snd).map value) := by
  rcases tail with _ | ⟨⟨gap, x⟩, xs⟩
  · rw [behindGaps_nil, List.nil_append]
    refine leaves_untypedTail_nil ?_
    show (Reader.separated _ _).Misses ∨ ∃ r', (Reader.separated _ _).Leaves r' _
    unfold Reader.separated
    split
    · obtain ⟨b', hb'⟩ := View.exists_skipBlanks_drop b r
      rw [hb']
      exact .inr ⟨_, leaves_many_of_misses (hg hr.rowEnd.behind) levels b'⟩
    · exact .inl (.inr rfl)
  · obtain ⟨b', hb'⟩ := separated_row gap ⟨x, xs⟩ htail (look levels (many g)) b r
    have hread := reads_many_row endsAtSpacing_isNameChar ⟨x, xs⟩ htail hr.rowEnd.name
      (stops_of_rowEnd hg hr.rowEnd) levels b'
    rw [← hb'] at hread
    exact leaves_untypedTail hread (by simp)

/-! ### Whole lists -/

omit hg htail hr in
/-- Groups, and the items without a type behind them. -/
theorem leaves_typedList {d : TypeSpec} {group : Reader (List (Typed α))}
    {values : Reader (List α)} {v : View} {r' : List Char} {typed : List (Typed α)}
    {untyped : List α} {first : Bool}
    (hgroups : (Reader.groupsWithin group true v.rest v).Leaves r' (· = typed))
    (huntyped : ∀ b, (Reader.untypedTail first values ⟨b, r'⟩).Leaves r (· = untyped))
    (hfirst : typed.isEmpty = first) :
    (Reader.typedList d group values v).Leaves r
      (· = ⟨typed ++ untyped.map fun a => ⟨a, d⟩⟩) := by
  subst hfirst
  refine hgroups.andThen ?_
  rintro b _ rfl
  refine (huntyped b).andThen ?_
  rintro b' _ rfl
  exact Finding.leaves_found rfl

omit htail in
/-- **A typed list is read group by group**: exactly the items that are written, in their order,
each with the type of its group, or with the given one where no type is written. -/
theorem reads_typedText (d : TypeSpec) {list : TypedText X}
    (hx : ∀ x ∈ list.items, g.Takes (text x) (value x)) :
    Reads (itemsOf d g) (list.chars text) r (· = ⟨list.typed value d⟩) := by
  intro levels b
  show (Reader.typedList d (look levels (typedGroup g)) (look levels (many g)) _).Leaves _ _
  have hend := hr.rowEnd
  cases list with
  | empty =>
    have hgroup : (Reader.separatedUnless true (look levels (typedGroup g)) ⟨b, r⟩).Misses :=
      misses_typedGroup hg hend.here levels b
    have htail (b') : (Reader.untypedTail true (look levels (many g)) ⟨b', r⟩).Leaves r (· = []) :=
      leaves_untypedTail_nil (.inr ⟨r, leaves_many_of_misses (hg hend.here) levels b'⟩)
    exact leaves_typedList (leaves_groupsWithin_nil hgroup _) htail rfl
  | untyped items =>
    have hgroup : (Reader.separatedUnless true (look levels (typedGroup g))
        ⟨b, items.chars text ++ r⟩).Misses := misses_typedGroup_row hg items hx hr levels b
    have hitems := reads_many_row endsAtSpacing_isNameChar items hx hend.name
      (stops_of_rowEnd hg hend) levels
    have htail (b') : (Reader.untypedTail true (look levels (many g))
        ⟨b', items.chars text ++ r⟩).Leaves r (· = items.toList.map value) :=
      leaves_untypedTail (hitems b') (by simp [Row.toList])
    have hread := leaves_typedList (d := d) (leaves_groupsWithin_nil hgroup _) htail rfl
    exact hread.mono fun _ h => by simp [h, TypedText.typed]
  | grouped groups tail =>
    have htail : ∀ x ∈ tail.map Prod.snd, g.Takes (text x) (value x) :=
      fun x h => hx x (List.mem_append_right _ h)
    have hgroups := look_groupRow hg htail hr groups
      (fun G hG x h => hx x (List.mem_append_left _ (List.mem_flatMap.2 ⟨G, hG, h⟩))) levels b
    rw [TypedText.chars, List.append_assoc]
    refine (leaves_typedList (d := d) hgroups (look_untypedTail hg htail hr levels) ?_).mono ?_
    · simp [GroupText.typed, Row.toList]
    · rintro _ rfl
      simp [TypedText.typed]

end Rule

end Pddl
