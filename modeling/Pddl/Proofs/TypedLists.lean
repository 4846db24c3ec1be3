import Pddl.Proofs.Sources
import Pddl.Proofs.Terms
import Pddl.Proofs.TypedTexts

/-!
# Typed lists are read back

A typed list is written as groups of values with the type that they share.  The last group may have
no type, and then its values get the one that closes the list.

* `TypeSpec.IsWritable`, `TypedList.IsWritable` : a choice among types is a choice among at least
  one.
* `exists_typedText` : a typed list is written with single blanks between its words.
* `Rule.reads_itemParts` : **every writable typed list is read back from its words.**
* `Rule.recovers_parameters` : parameters in parentheses.
-/

namespace Pddl

/-- A choice among types has something to choose from. -/
def TypeSpec.IsWritable : TypeSpec → Prop
  | exact _ => True
  | either ts => ts ≠ []

/-- Every type of the list is writable. -/
def TypedList.IsWritable {α : Type} (l : TypedList α) : Prop := ∀ a ∈ l.items, a.type.IsWritable

/-! ### Lists that are found -/

namespace Rule

open Grammar

variable {α : Type} {text : List Char} {levels : Nat} {g : Rule α}

theorem Finds.type {t : TypeSpec} (h : Finds Grammar.type text levels t) : t.IsWritable := by
  rcases h.orElse with h | h
  · obtain ⟨t, -, rfl⟩ := h.map
    exact trivial
  · obtain ⟨ts, hts, rfl⟩ := h.map
    exact hts.form.many1.1

/-- A typed list that is found is writable, and its values are found. -/
theorem Finds.itemsOf {d : TypeSpec} {l : TypedList α} (hd : d.IsWritable)
    (h : Finds (Grammar.itemsOf d g) text levels l) :
    l.IsWritable ∧ ∀ x ∈ l.items, g.Finds text levels x.value := by
  have hitems : ∀ x ∈ l.items, x.type.IsWritable ∧ g.Finds text levels x.value := by
    intro x hx
    rcases h.typedList x hx with ⟨xs, hxs, hx⟩ | ⟨ht, as, has, hx⟩
    · obtain ⟨⟨as, t⟩, hat, rfl⟩ := hxs.map
      obtain ⟨has, ht⟩ := hat.seq
      obtain ⟨a, ha, rfl⟩ := List.mem_map.1 hx
      exact ⟨ht.seqRight.type, has.many1.2 a ha⟩
    · exact ⟨ht ▸ hd, has.many _ hx⟩
  exact ⟨fun x hx => (hitems x hx).1, fun x hx => (hitems x hx).2⟩

theorem Finds.parameters {l : TypedList Variable} (h : Finds Grammar.parameters text levels l) :
    l.IsWritable :=
  (Finds.itemsOf (d := .object) (g := symbol .var) trivial h.parens).1

end Rule

/-! ### Groups and what follows them -/

section

variable {α : Type} [ToNode α] [Spelled α]

/-- The items of some groups. -/
def groupItems (groups : List (List α × TypeSpec)) : List (Typed α) :=
  groups.flatMap fun g => g.1.map fun a => ⟨a, g.2⟩

omit [ToNode α] [Spelled α] in
theorem groupItems_groupsOf (items : List (Typed α)) : groupItems (groupsOf items) = items := by
  induction items with
  | nil => rfl
  | cons a as ih =>
    rw [groupsOf]
    rcases hg : groupsOf as with _ | ⟨⟨vs, t⟩, rest⟩
    · rw [hg] at ih
      simp [groupItems, ← ih]
    · rw [hg] at ih
      simp only
      split
      · rename_i ht
        subst ht
        rw [← ih]
        simp [groupItems]
      · rw [← ih]
        simp [groupItems]

omit [ToNode α] [Spelled α] in
/-- Neighbouring groups have different types. -/
theorem isChain_groupsOf (items : List (Typed α)) :
    (groupsOf items).IsChain fun g h => g.2 ≠ h.2 := by
  induction items with
  | nil => exact .nil
  | cons a as ih =>
    rw [groupsOf]
    rcases hg : groupsOf as with _ | ⟨⟨vs, t⟩, rest⟩
    · exact .singleton _
    · rw [hg] at ih
      simp only
      split
      · exact List.isChain_cons.2 (List.isChain_cons.1 ih)
      · exact .cons_cons ‹_› ih

omit [ToNode α] [Spelled α] in
theorem isWritable_of_mem_groupsOf {l : TypedList α} (hl : l.IsWritable)
    {g : List α × TypeSpec} (hg : g ∈ groupsOf l.items) : g.2.IsWritable := by
  obtain ⟨v, vs, hv⟩ := List.exists_cons_of_ne_nil (ne_nil_of_mem_groupsOf (t := g.2) hg)
  refine hl ⟨v, g.2⟩ ?_
  rw [← groupItems_groupsOf l.items]
  exact List.mem_flatMap.2 ⟨g, hg, by simp [hv]⟩

/-- A typed list that holds something has words. -/
theorem itemParts_ne_nil {closing : TypeSpec} {l : TypedList α} (h : l.items ≠ []) :
    itemParts closing l ≠ [] := by
  have hitems := groupItems_groupsOf l.items
  rw [itemParts]
  rcases hg : groupsOf l.items with _ | ⟨⟨vs, t⟩, groups⟩
  · rw [hg] at hitems
    exact absurd hitems.symm h
  · have hvs : vs ≠ [] := ne_nil_of_mem_groupsOf (t := t) (by rw [hg]; exact List.mem_cons_self ..)
    rw [groupParts]
    split <;> simp [hvs]

/-- A typed list begins with one of its values. -/
theorem exists_of_mem_head?_itemParts {closing : TypeSpec} {l : TypedList α} {p : List Char}
    (hp : p ∈ (itemParts closing l).head?) : ∃ a ∈ l.items, p = spelling a.value := by
  have hitems := groupItems_groupsOf l.items
  rw [itemParts] at hp
  rcases hg : groupsOf l.items with _ | ⟨⟨vs, t⟩, groups⟩
  · simp [hg, groupParts] at hp
  · have hvs : vs ≠ [] := ne_nil_of_mem_groupsOf (t := t) (by rw [hg]; exact List.mem_cons_self ..)
    obtain ⟨v, vs, rfl⟩ := List.exists_cons_of_ne_nil hvs
    rw [hg, groupParts] at hp
    refine ⟨⟨v, t⟩, by rw [← hitems, hg]; simp [groupItems], ?_⟩
    split at hp <;> simpa using hp.symm

end

/-! ### Single blanks -/

/-- Elements with single blanks between them. -/
def Row.ofList {X : Type} (x : X) (xs : List X) : Row X := ⟨x, xs.map fun y => (.one, y)⟩

section

variable {X : Type} {text : X → List Char}

theorem behindGaps_one (xs : List X) :
    behindGaps text (xs.map fun y => (.one, y)) = spread [' '] (xs.map text) := by
  induction xs with
  | nil => rfl
  | cons x xs ih => simp [ih]

theorem Row.chars_ofList (x : X) (xs : List X) :
    (ofList x xs).chars text = [' '].intercalate ((x :: xs).map text) := by
  rw [List.map_cons, intercalate_cons, chars, ofList, behindGaps_one]

theorem Row.toList_ofList (x : X) (xs : List X) : (ofList x xs).toList = x :: xs := by
  simp [toList, ofList, Function.comp_def]

end

/-- Every writable type is written with single blanks between its words. -/
theorem exists_typeText {t : TypeSpec} (ht : t.IsWritable) :
    ∃ T : TypeText, T.type = t ∧ T.chars = t.spelling := by
  cases t with
  | exact t => exact ⟨.exact t, rfl, rfl⟩
  | either ts =>
    obtain ⟨t, ts, rfl⟩ := List.exists_cons_of_ne_nil ht
    refine ⟨.either .none .one (.ofList t ts) .none, ?_, ?_⟩
    · rw [TypeText.type, Row.toList_ofList]
    · rw [TypeSpec.spelling_either ht, TypeText.chars, Row.chars_ofList]
      simp [intercalate_cons, oneLine, enclose, Spacing.none]

theorem intercalate_append {ps : List (List Char)} (h : ps ≠ []) (qs : List (List Char)) :
    [' '].intercalate (ps ++ qs) = [' '].intercalate ps ++ spread [' '] qs := by
  obtain ⟨p, ps, rfl⟩ := List.exists_cons_of_ne_nil h
  rw [List.cons_append, intercalate_cons, intercalate_cons, spread_append, List.append_assoc]

section

variable {α : Type} [ToNode α] [Spelled α]

/-- Groups are written, and the values of the last one perhaps without their type. -/
theorem exists_groupTexts (closing : TypeSpec) {groups : List (List α × TypeSpec)}
    (h : ∀ g ∈ groups, g.1 ≠ [] ∧ g.2.IsWritable) :
    ∃ (texts : List (GroupText α)) (tail : List α),
      spread [' '] (groupParts closing groups) =
        spread [' '] (texts.map (GroupText.chars spelling) ++ tail.map spelling) ∧
      groupItems groups =
        texts.flatMap (GroupText.typed id) ++ tail.map fun a => ⟨a, closing⟩ := by
  induction groups with
  | nil => exact ⟨[], [], rfl, rfl⟩
  | cons g groups ih =>
    obtain ⟨vs, t⟩ := g
    obtain ⟨hvs, ht⟩ := h (vs, t) (List.mem_cons_self ..)
    obtain ⟨texts, tail, hparts, hitems⟩ := ih fun g hg => h g (List.mem_cons_of_mem _ hg)
    by_cases hlast : groups = [] ∧ t = closing
    · obtain ⟨rfl, rfl⟩ := hlast
      exact ⟨[], vs, by simp [groupParts], by simp [groupItems]⟩
    · obtain ⟨v, vs, rfl⟩ := List.exists_cons_of_ne_nil hvs
      obtain ⟨T, hT, hchars⟩ := exists_typeText ht
      refine ⟨⟨.ofList v vs, .one, .one, T⟩ :: texts, tail, ?_, ?_⟩
      · rw [groupParts, if_neg hlast, spread_append, spread_cons, spread_cons, hparts]
        simp [GroupText.chars, Row.chars_ofList, intercalate_cons, hchars, spread_append]
      · rw [groupItems, List.flatMap_cons, ← groupItems, hitems, List.flatMap_cons]
        simp [GroupText.typed, Row.toList_ofList, hT]

/-- **A typed list is written with single blanks between its words.** -/
theorem exists_typedText {l : TypedList α} (hl : l.IsWritable) (closing : TypeSpec) :
    ∃ T : TypedText α, T.chars spelling = [' '].intercalate (itemParts closing l) ∧
      T.typed id closing = l.items := by
  obtain ⟨texts, tail, hparts, hitems⟩ := exists_groupTexts closing fun g hg =>
    ⟨ne_nil_of_mem_groupsOf hg, isWritable_of_mem_groupsOf hl hg⟩
  rw [groupItems_groupsOf] at hitems
  have hwords := intercalate_eq_of_spread_eq hparts (by simp)
  rw [itemParts, hwords]
  rcases texts with _ | ⟨group, texts⟩
  · rcases tail with _ | ⟨a, as⟩
    · exact ⟨.empty, rfl, hitems.symm⟩
    · refine ⟨.untyped (.ofList a as), Row.chars_ofList a as, ?_⟩
      rw [hitems, TypedText.typed, Row.toList_ofList]
      rfl
  · refine ⟨.grouped (.ofList group texts) (tail.map fun a => (.one, a)), ?_, ?_⟩
    · rw [TypedText.chars, Row.chars_ofList, behindGaps_one, intercalate_append (by simp)]
    · rw [hitems, TypedText.typed, Row.toList_ofList]
      simp

end

namespace Rule

open Grammar

variable {α : Type} [ToNode α] [Spelled α] {g : Rule α} {d : TypeSpec} {l : TypedList α}
  {r : List Char}

/-- **Every writable typed list is read back from its words**, wherever a list can end. -/
theorem reads_itemParts (hg : ∀ a ∈ l.items, g.Takes (spelling a.value) a.value)
    (hl : l.IsWritable) (hmiss : ∀ {s}, s.head?.any beginsItem = false → g.Misses s)
    (hr : ListEnd r) : Reads (itemsOf d g) ([' '].intercalate (itemParts d l)) r (· = l) := by
  obtain ⟨T, hchars, hitems⟩ := exists_typedText hl d
  have htakes : ∀ x ∈ T.items, g.Takes (spelling x) (id x) := by
    intro x hx
    have hvalues := T.map_value_typed id d
    rw [hitems, List.map_id] at hvalues
    obtain ⟨a, ha, rfl⟩ := List.mem_map.1 (hvalues ▸ hx)
    exact hg a ha
  have hread := reads_typedText hmiss hr d htakes
  rwa [hchars, hitems] at hread

/-- Up to a closing parenthesis, a writable typed list is read back from its words. -/
theorem readsParts_itemsOf (hg : ∀ a ∈ l.items, g.Takes (spelling a.value) a.value)
    (hl : l.IsWritable) (hmiss : ∀ {s}, s.head?.any beginsItem = false → g.Misses s) :
    ReadsParts (itemsOf d g) [' '] (itemParts d l) (· = l) where
  isGap := isGap_blank
  solid p hp := by
    obtain ⟨a, ha, rfl⟩ := exists_of_mem_head?_itemParts hp
    exact (hg a ha).solid
  reads r := reads_itemParts hg hl hmiss (.close .none r)

/-- Parameters are read back from their text in parentheses. -/
theorem recovers_parameters {l : TypedList Variable} (hl : l.IsWritable) :
    Recovers parameters (enclosedItems l) (· = l) where
  solid := ⟨_, _, rfl, by decide, by decide, by decide⟩
  reads {r} _ := by
    have h := readsParts_itemsOf (d := .object) (g := symbol .var) (l := l)
      (fun a _ => takes_symbol a.value) hl misses_var_of_not_begins
    refine Reads.parens ?_ (h.reads r)
    rcases hp : itemParts .object l with _ | ⟨p, ps⟩
    · exact blankLength_close r
    · rw [intercalate_cons]
      exact blankLength_of_isSolid (((h.solid p (by simp [hp])).append _).append _)

end Rule

end Pddl
