import Pddl.Proofs.AcceptedTrees

/-!
# Rules that take written sections

A block is written line by line, and a line that shows nothing is left out.  The sections that are
written are taken one after the other by the rule of the block, because a section that is left out is
told apart from the next one by its head word or its label.

* `Line.GivesAt` : what a line contributes at some indentation.
* `Rule.TakesLines` : a rule takes what the lines of a block contribute.
* `Line.Offers`, `Line.offers_members`, `Line.offers_items`, … : lines that are written as one form of a
  rule, or left out.
* `Rule.TakesLines.optional`, `Rule.TakesLines.labelled`, … : **one line after the other is taken**.
-/

namespace Pddl

variable {parts : List Rendering} {line : Line} {lines : List Line} {f : List Node} {i : Nat}

/-- At some indentation, the line contributes these sections to a block. -/
def Line.GivesAt (parts : List Rendering) (level : Nat) (l : Line) (sections : List (List Char)) :
    Prop :=
  l.texts parts level = .ok (sections.map fun s => indentation (level + 1) ++ String.ofList s)

/-- What stands behind a label. -/
def labelText (label : String) (s : List Char) : List Char := label.toList ++ ' ' :: s

theorem not_mem_spread {gap : List Char} {ps : List (List Char)} (hgap : '\r' ∉ gap)
    (hps : ∀ p ∈ ps, '\r' ∉ p) : '\r' ∉ spread gap ps := by
  simpa [spread, hgap] using hps

theorem not_mem_enclose {gap : List Char} {head : String} {ps : List (List Char)}
    (hgap : '\r' ∉ gap) (hh : '\r' ∉ head.toList) (hps : ∀ p ∈ ps, '\r' ∉ p) :
    '\r' ∉ enclose gap head ps := by
  simpa [enclose, hh] using not_mem_spread hgap hps

theorem not_mem_oneLine {head : String} {ps : List (List Char)} (hh : '\r' ∉ head.toList)
    (hps : ∀ p ∈ ps, '\r' ∉ p) : '\r' ∉ oneLine head ps :=
  not_mem_enclose (by decide) hh hps

/-- A label and at most one word. -/
theorem Line.givesAt_labelled {piece : Piece} {p? : Option (List Char)} (label : String)
    (level : Nat) (h : piece.words parts = .ok (p?.toList.map String.ofList)) :
    (Line.labelled label piece).GivesAt parts level (p?.map (labelText label)).toList := by
  rw [Line.GivesAt, Line.texts, h]
  cases p? with
  | none => rfl
  | some p =>
    show Except.ok [indentation (level + 1) ++ spaced [label, String.ofList p]] = .ok _
    have hspaced : spaced [label, String.ofList p] = String.ofList (labelText label p) := by
      rw [← String.toList_inj, toList_spaced, String.toList_ofList]
      simp [labelText]
    rw [hspaced]
    rfl

namespace Rule

open Grammar

variable {α β γ : Type} {g : Rule α} {h : Rule β} {gap p s : List Char} {ps : List (List Char)}
  {P : α → Prop} {Q : β → Prop} {level : Nat} {label head : String}

/-! ### Labels -/

theorem look_labelled (levels : Nat) (v : View) :
    look levels (Grammar.labelled label g) v =
      (look levels (word label) v).andThen fun w _ => look levels (Grammar.separated g) w := by
  rw [Grammar.labelled, look_seqRight, look_seqRight]
  rcases look levels (word label) v with ⟨w, a⟩ | _ | _ | _ | _
  · exact (look_seqRight levels w).symm
  all_goals rfl

theorem Recovers.labelled (hl : IsHead label) (hg : g.Recovers s P) :
    Recovers (Grammar.labelled label g) (labelText label s) P where
  solid := hl.solid.append _
  reads {r} hr levels b := by
    have hs : Delimited (' ' :: (s ++ r)) := .blank (by decide) _
    obtain ⟨b', hword⟩ := look_word hl hs levels b
    obtain ⟨b'', hsep⟩ := look_separated_gap (h := g) isGap_blank (hg.solid.append r) levels b'
    rw [look_labelled, labelText, List.append_assoc, List.cons_append, hword]
    show (look levels (Grammar.separated g) ⟨b', [' '] ++ (s ++ r)⟩).Leaves r P
    rw [hsep]
    exact hg.reads hr levels b''

/-- The next section, if there is one, stands behind one of some labels. -/
def BeginsLabelled (labels : List String) (ps : List (List Char)) : Prop :=
  ∀ p ∈ ps.head?, ∃ label ∈ labels, ∃ s, p = labelText label s

/-- A label is missing where another one comes next. -/
theorem misses_labelled {labels : List String} (hl : IsPlainWord label)
    (hlabels : Apart label [] = true ∧ ∀ l ∈ labels, Apart label l.toList = true)
    (hp : BeginsLabelled labels ps) (r : List Char) :
    Misses (Grammar.labelled label g) (gap.intercalate ps ++ ')' :: r) := by
  -- it is the label that is missing, whatever the rule behind it would take
  have hword : Misses (word label) (gap.intercalate ps ++ ')' :: r) := by
    rcases ps with _ | ⟨p, ps⟩
    · exact misses_word hl hlabels.1 (.close r)
    · obtain ⟨l, hmem, s, rfl⟩ := hp p rfl
      rw [intercalate_cons, labelText, List.append_assoc, List.append_assoc]
      exact misses_word hl (hlabels.2 l hmem) (.blank (by decide) _)
  intro levels b
  rw [look_labelled]
  exact (hword levels b).andThen

/-! ### Parts of forms -/

/-- What stands behind gaps of its own is one part of a form. -/
theorem ReadsParts.packed (hg : g.ReadsParts gap (p :: ps) P) :
    g.ReadsParts [' '] [gap.intercalate (p :: ps)] P where
  isGap := isGap_blank
  solid := by
    rintro _ ⟨⟩
    rw [intercalate_cons]
    exact (hg.solid p rfl).append _
  reads r := by
    rw [show [' '].intercalate [gap.intercalate (p :: ps)] = gap.intercalate (p :: ps) by simp]
    exact hg.reads r

theorem ReadsSections.map {f : α → γ} {P : γ → Prop} (hg : g.ReadsSections gap ps fun a => P (f a)) :
    ReadsSections (f <$> g) gap ps P where
  isGap := hg.isGap
  solid := hg.solid
  reads r levels v hv := by
    rw [look_map]
    exact (hg.reads r levels v hv).andThen fun _ _ ha => Finding.leaves_found ha

/-- What is made of the first section changes nothing for those behind it. -/
theorem ReadsSections.map_first {f : α → γ} {P : γ × β → Prop}
    (hg : ReadsSections (.seq g h) gap ps fun ab => P (f ab.1, ab.2)) :
    ReadsSections (.seq (f <$> g) h) gap ps P where
  isGap := hg.isGap
  solid := hg.solid
  reads r levels v hv := by
    -- the function can as well be applied behind both rules
    have hlook : look levels (.seq (f <$> g) h) v =
        (look levels (.seq g h) v).andThen fun w ab => .found w (f ab.1, ab.2) := by
      rw [look_seq, look_seq, look_map]
      rcases g.look levels v with ⟨w, a⟩ | _ | _ | _ | _
      · show (h.look levels w).andThen _ = ((h.look levels w).andThen _).andThen _
        rcases h.look levels w <;> rfl
      all_goals rfl
    rw [hlook]
    exact (hg.reads r levels v hv).andThen fun _ _ ha => Finding.leaves_found ha

/-! ### Lines -/

/-- The lines contribute sections that the rule takes one after the other; the sections begin as it is
said. -/
def TakesLines (g : Rule α) (parts : List Rendering) (level : Nat) (gap : List Char)
    (lines : List Line) (front : List (List Char) → Prop) : Prop :=
  ∃ sections : List (List (List Char)), List.Forall₂ (Line.GivesAt parts level) lines sections ∧
    (∀ s ∈ sections.flatten, '\r' ∉ s) ∧ front sections.flatten ∧
      g.ReadsSections gap sections.flatten fun _ => True

namespace TakesLines

variable {front front' : List (List Char) → Prop}

theorem map_first {f : α → γ} :
    TakesLines (.seq g h) parts level gap lines front →
      TakesLines (.seq (f <$> g) h) parts level gap lines front :=
  fun ⟨sections, hlines, hends, hfront, hg⟩ => ⟨sections, hlines, hends, hfront, hg.map_first⟩

/-- A line that is taken if it is written. -/
theorem optional {p? : Option (List Char)} (hline : line.GivesAt parts level p?.toList)
    (hp : ∀ p ∈ p?, '\r' ∉ p ∧ g.Recovers p fun _ => True)
    (hfront : ∀ ps, front ps → front' (p?.toList ++ ps))
    (hmiss : ∀ ps, front ps → ∀ r, g.Misses (gap.intercalate ps ++ ')' :: r))
    (hh : h.TakesLines parts level gap lines front) :
    TakesLines (.seq (Grammar.optional g) h) parts level gap (line :: lines) front' := by
  obtain ⟨sections, hlines, hends, hbegins, hh⟩ := hh
  refine ⟨p?.toList :: sections, .cons hline hlines, ?_, hfront _ hbegins, ?_⟩
  · rw [List.flatten_cons, List.forall_mem_append]
    exact ⟨fun s hs => (hp s (Option.mem_toList.1 hs)).1, hends⟩
  · exact (ReadsSections.given (O := fun _ => True) (fun p hmem => (hp p hmem).2)
      (fun _ => ⟨trivial, hmiss _ hbegins⟩) hh).mono fun _ _ => trivial

/-- A line that must be written and taken. -/
theorem required (hline : line.GivesAt parts level [p]) (hp : '\r' ∉ p)
    (hg : g.Recovers p fun _ => True) (hfront : ∀ ps, front ps → front' (p :: ps))
    (hh : h.TakesLines parts level gap lines front) :
    TakesLines (.seq (Grammar.separated g) h) parts level gap (line :: lines) front' := by
  obtain ⟨sections, hlines, hends, hbegins, hh⟩ := hh
  refine ⟨[p] :: sections, .cons hline hlines, ?_, hfront _ hbegins, ?_⟩
  · rw [List.flatten_cons, List.forall_mem_append]
    exact ⟨List.forall_mem_singleton.2 hp, hends⟩
  · exact (ReadsSections.required hg hh).mono fun _ _ => trivial

/-- A last line that is taken if it is written. -/
theorem optional_last {p? : Option (List Char)} (hgap : IsGap gap)
    (hline : line.GivesAt parts level p?.toList)
    (hp : ∀ p ∈ p?, '\r' ∉ p ∧ g.Recovers p fun _ => True)
    (hfront : front p?.toList) (hmiss : ∀ r, g.Misses (')' :: r)) :
    TakesLines (Grammar.optional g) parts level gap [line] front := by
  refine ⟨[p?.toList], .cons hline .nil, ?_, ?_, ?_⟩ <;> rw [List.flatten_singleton]
  · exact fun s hs => (hp s (Option.mem_toList.1 hs)).1
  · exact hfront
  · exact .given_last hgap (fun p hmem => (hp p hmem).2) fun _ => ⟨trivial, hmiss⟩

end TakesLines

end Rule

/-! ### Lines of forms -/

/-- A line is written as a form of the rule, or left out. -/
def Line.Offers {α : Type} (line : Line) (parts : List Rendering) (head : String) (g : Rule α) :
    Prop :=
  ∃ p? : Option (List Char), line.Gives parts p?.toList ∧
    ∀ p ∈ p?, (∃ ps, p = oneLine head ps) ∧ '\r' ∉ p ∧ g.Recovers p fun _ => True

namespace Line

open Rule Grammar

variable {α β γ : Type} {g : Rule α} {head : String}

theorem offers_none (h : line.Gives parts []) : line.Offers parts head g :=
  ⟨none, h, nofun⟩

/-- What is written as one form is offered. -/
theorem offers_form {ps : List (List Char)} (h : line.Gives parts [oneLine head ps])
    (hh : IsTitle head) (hps : ∀ p ∈ ps, '\r' ∉ p) (hg : g.ReadsParts [' '] ps fun _ => True) :
    line.Offers parts head (Grammar.form head g) := by
  refine ⟨some (oneLine head ps), h, ?_⟩
  rintro _ ⟨⟩
  exact ⟨⟨ps, rfl⟩, not_mem_oneLine hh.clean.lineEnds hps, recovers_form hh.head hg⟩

/-- The members of a field, if it has any. -/
theorem offers_members {ns : List Node} (hi : f[i]? = some (.tuple ns)) (hh : IsTitle head)
    (hg : ∀ n ∈ ns, g.Rereads n) (hclose : ∀ r, g.Misses (')' :: r)) :
    (Line.form head (.members i)).Offers (f.map Node.rendering) head (Grammar.form head (many1 g)) := by
  by_cases hne : ns = []
  · subst hne
    exact offers_none (gives_form head (words_members hi .nil))
  · obtain ⟨ws, hns, hws, hread⟩ := rereadsParts_many1 hg hne hclose
    have hline := gives_form head (words_members hi hns)
    rw [if_neg fun h => by subst h; cases hns; exact hne rfl] at hline
    exact offers_form hline hh (fun w hw => (hws w hw).lineEnds) hread

/-- A typed list, if it has any items. -/
theorem offers_items [ToNode α] [Spelled α] {W : α → Prop} {l : TypedList α} (closing : TypeSpec)
    (hi : f[i]? = some (toNode l)) (hh : IsTitle head) (hg : g.Lists W) (hl : l.IsWritable)
    (hW : ∀ a ∈ l.items, W a.value) (hclean : ∀ a : α, IsClean (spelling a)) :
    (Line.form head (.items i (toNode closing))).Offers (f.map Node.rendering) head
      (Grammar.form head (itemsOf closing g)) := by
  have hline := gives_form head (words_items closing hi)
  by_cases hne : l.items = []
  · rw [if_pos hne, if_pos rfl] at hline
    exact offers_none hline
  · have htext := oneLine_items head closing l
    rw [if_neg hne] at htext
    rw [if_neg hne, if_neg (by simp), htext] at hline
    refine offers_form hline hh (fun p hp => (isClean_itemParts hclean closing l p hp).lineEnds) ?_
    exact (readsParts_itemsOf (fun a ha => hg.takes_spelling (hW a ha)) hl hg.misses).mono
      fun _ _ => trivial

/-- A field, unless it is a given node. -/
theorem offers_unlessSame {n m : Node} (hi : f[i]? = some n) (hh : IsTitle head)
    (hg : g.Rereads n) :
    (Line.form head (.unlessSame i m)).Offers (f.map Node.rendering) head (Grammar.form head g) := by
  obtain ⟨s, hn, hs, hg⟩ := hg
  have hline := gives_form head (words_unlessSame (m := m) hi hn)
  by_cases hsame : n.same m = true
  · rw [if_pos hsame, if_pos rfl] at hline
    exact offers_none hline
  · rw [if_neg hsame, if_neg (by simp)] at hline
    exact offers_form hline hh (by simpa using hs.lineEnds) (.one isGap_blank hg)

/-- The declared requirement flags, if there are any. -/
theorem offers_requirements {rs : Requirements} (hi : f[i]? = some (toNode rs)) :
    (Line.bare (.unlessSame i (.form .requirements [.nothing]))).Offers (f.map Node.rendering)
      ":requirements" requirements := by
  have hrender : (toNode rs).render =
      .ok (String.ofList (oneLine ":requirements" (rs.declared.map spelling))) :=
    Node.render_members (k := .requirements) rfl (forall₂_render rs.declared)
  have hline := gives_bare (words_unlessSame (m := .form .requirements [.nothing]) hi hrender)
  simp only [Requirements.same_nothing] at hline
  by_cases hrs : rs.declared = []
  · rw [if_pos hrs] at hline
    exact offers_none hline
  · rw [if_neg hrs] at hline
    refine ⟨some _, hline, ?_⟩
    rintro _ ⟨⟩
    refine ⟨⟨_, rfl⟩, not_mem_oneLine (by decide) ?_, (recovers_requirements rs hrs).mono
      fun _ _ => trivial⟩
    exact List.forall_mem_map.2 fun r _ => (isClean_keyword (by decide) r).lineEnds

/-- A field that is written as it is, unless it is absent. -/
theorem offers_given [ToNode α] [Spelled α] {a? : Option α} (hi : f[i]? = some (toNode a?))
    (hne : ∀ a : α, toNode a ≠ .absent) (hform : ∀ a : α, ∃ ps, spelling a = oneLine head ps)
    (hg : ∀ a ∈ a?, '\r' ∉ spelling a ∧ g.Recovers (spelling a) fun _ => True) :
    (Line.bare (.given i)).Offers (f.map Node.rendering) head g := by
  have hline := gives_bare (words_given hi hne)
  rw [← Option.toList_map] at hline
  refine ⟨_, hline, ?_⟩
  rintro _ hmem
  obtain ⟨a, rfl, rfl⟩ := Option.map_eq_some_iff.1 hmem
  exact ⟨hform a, hg a rfl⟩

end Line

namespace Rule.TakesLines

open Grammar

variable {α β : Type} {g : Rule α} {h : Rule β} {head : String} {heads : List String}

/-- **A form that may be left out**, in front of forms with other heads. -/
theorem offered (hline : line.Offers parts head g)
    (hmiss : ∀ ps, Begins heads ps → ∀ r, g.Misses (lineGap.intercalate ps ++ ')' :: r))
    (hh : h.TakesLines parts 0 lineGap lines (Begins heads)) :
    TakesLines (.seq (Grammar.optional g) h) parts 0 lineGap (line :: lines)
      (Begins (head :: heads)) := by
  obtain ⟨p?, hline, hp⟩ := hline
  refine .optional hline (fun p hmem => (hp p hmem).2) (fun ps hps => ?_) hmiss hh
  refine Begins.append (fun p hmem => ?_) (hps.mono (by simp))
  obtain rfl : p? = some p := by simpa using hmem
  obtain ⟨ps, rfl⟩ := (hp p rfl).1
  exact ⟨_, head, ps, isGap_blank, by simp, rfl⟩

/-- A last form that may be left out. -/
theorem offered_last (hline : line.Offers parts head g) (hmiss : ∀ r, g.Misses (')' :: r)) :
    TakesLines (Grammar.optional g) parts 0 lineGap [line] (Begins [head]) := by
  obtain ⟨p?, hline, hp⟩ := hline
  refine .optional_last isGap_lineGap hline (fun p hmem => (hp p hmem).2) (fun p hmem => ?_) hmiss
  obtain rfl : p? = some p := by simpa using hmem
  obtain ⟨ps, rfl⟩ := (hp p rfl).1
  exact ⟨_, head, ps, isGap_blank, by simp, rfl⟩

/-- A form that must be there. -/
theorem form {ps : List (List Char)} (hh : h.TakesLines parts 0 lineGap lines (Begins heads))
    (hline : line.Gives parts [oneLine head ps]) (hhead : IsTitle head)
    (hps : ∀ p ∈ ps, '\r' ∉ p) (hg : g.ReadsParts [' '] ps fun _ => True) :
    TakesLines (.seq (Grammar.separated (Grammar.form head g)) h) parts 0 lineGap (line :: lines)
      (Begins [head]) :=
  .required hline (not_mem_oneLine hhead.clean.lineEnds hps) (recovers_form hhead.head hg)
    (fun qs _ => begins_cons isGap_blank (by simp) _ qs) hh

end Rule.TakesLines

/-! ### Lines with labels -/

namespace Rule

open Grammar

variable {α β : Type} {h : Rule β} {gap : List Char} {level : Nat} {label : String}
  {labels : List String} {piece : Piece} {p? : Option (List Char)}

/-- A field that is taken unless it is absent. -/
theorem exists_words_given [ToNode α] {g : Rule β} {a? : Option α} (hi : f[i]? = some (toNode a?))
    (hg : ∀ a ∈ a?, g.Rereads (toNode a)) :
    ∃ p? : Option (List Char),
      Piece.words (f.map Node.rendering) (.given i) = .ok (p?.toList.map String.ofList) ∧
        ∀ p ∈ p?, '\r' ∉ p ∧ g.Recovers p fun _ => True := by
  rw [Piece.words, get_of_getElem? hi]
  cases a? with
  | none => exact ⟨none, rfl, by simp⟩
  | some a =>
    obtain ⟨s, hs, hwhole, hread⟩ := hg a rfl
    -- what has a text is not absent
    have habsent : (toNode (some a)).rendering.isAbsent = false := by
      rw [Bool.eq_false_iff, Ne, isAbsent_rendering]
      intro ha
      have hs : (toNode (some a)).render = .ok (String.ofList s) := hs
      rw [ha] at hs
      cases hs
    refine ⟨some s, ?_, ?_⟩
    · rw [habsent, show (toNode (some a)).rendering.text = .ok (String.ofList s) from hs]
      rfl
    · rintro _ ⟨⟩
      exact ⟨hwhole.lineEnds, hread⟩

theorem IsTitle.not_mem_labelText (hl : IsTitle label) {p : List Char} (hp : '\r' ∉ p) :
    '\r' ∉ labelText label p := by
  simpa [labelText, hp] using hl.clean.lineEnds

theorem beginsLabelled_map (label : String) (p? : Option (List Char)) (ps : List (List Char))
    (hps : BeginsLabelled labels ps) :
    BeginsLabelled (label :: labels) ((p?.map (labelText label)).toList ++ ps) := by
  cases p? with
  | none =>
    intro p hp
    obtain ⟨l, hl, s, rfl⟩ := hps p hp
    exact ⟨l, List.mem_cons_of_mem _ hl, s, rfl⟩
  | some q =>
    rintro _ ⟨⟩
    exact ⟨label, by simp, q, rfl⟩

namespace TakesLines

variable {g : Rule (Option α)}

theorem labelled_text (hl : IsTitle label) (hp : ∀ p ∈ p?, '\r' ∉ p ∧ g.Recovers p fun _ => True) :
    ∀ p ∈ p?.map (labelText label),
      '\r' ∉ p ∧ Recovers (Grammar.labelled label g) p fun _ => True := by
  rintro _ hmem
  obtain ⟨p, rfl, rfl⟩ := Option.map_eq_some_iff.1 hmem
  exact ⟨hl.not_mem_labelText (hp p rfl).1, (hp p rfl).2.labelled hl.head⟩

/-- **A label that may be left out**, in front of other labels. -/
theorem labelledOrEmpty (hl : IsTitle label)
    (hapart : Apart label [] = true ∧ ∀ l ∈ labels, Apart label l.toList = true)
    (hwords : piece.words parts = .ok (p?.toList.map String.ofList))
    (hp : ∀ p ∈ p?, '\r' ∉ p ∧ g.Recovers p fun _ => True)
    (hh : h.TakesLines parts level gap lines (BeginsLabelled labels)) :
    TakesLines (.seq (Rule.labelledOrEmpty label g) h) parts level gap
      (.labelled label piece :: lines) (BeginsLabelled (label :: labels)) :=
  .map_first (.optional (Line.givesAt_labelled label level hwords) (labelled_text hl hp)
    (beginsLabelled_map label p?) (fun _ hps => misses_labelled hl.head.plain hapart hps) hh)

/-- A last label that may be left out. -/
theorem labelledOrEmpty_last (hgap : IsGap gap) (hl : IsTitle label)
    (hapart : Apart label [] = true) (hwords : piece.words parts = .ok (p?.toList.map String.ofList))
    (hp : ∀ p ∈ p?, '\r' ∉ p ∧ g.Recovers p fun _ => True) :
    TakesLines (Rule.labelledOrEmpty label g) parts level gap [.labelled label piece]
      (BeginsLabelled [label]) := by
  have hnone : BeginsLabelled [] [] := nofun
  have hbegins : BeginsLabelled [label] (p?.map (labelText label)).toList := by
    simpa using beginsLabelled_map label p? [] hnone
  have hmiss : ∀ r, Misses (Grammar.labelled label g) (([] : List Char).intercalate [] ++ ')' :: r) :=
    misses_labelled hl.head.plain ⟨hapart, by simp⟩ hnone
  have hline := Line.givesAt_labelled label level hwords
  obtain ⟨sections, hlines, hends, hfront, hread⟩ :=
    TakesLines.optional_last hgap hline (labelled_text hl hp) hbegins hmiss
  exact ⟨sections, hlines, hends, hfront, (hread.mono fun _ _ => trivial).map⟩

end TakesLines

end Rule

end Pddl
