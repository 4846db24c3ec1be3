import Pddl.Proofs.Rereading

/-!
# Sections are read back

Domains, problems and definitions are written as a title and then their sections in a fixed order,
each behind the same gap.  A section that is left out is passed over, because the text goes on with
another head word.

* `View.InFront` : the next of some sections, or the closing parenthesis, may be read here.
* `Rule.ReadsSections` : a rule reads some sections up to the closing parenthesis.
* `Rule.ReadsSections.present`, `Rule.ReadsSections.absent`, `Rule.ReadsSections.given`, … : how
  sections that are there and that are not there are read.
* `Begins` : the next section begins with one of some head words.
-/

namespace Pddl

variable {gap s p r : List Char} {parts ps : List (List Char)}

/-- Behind a gap stands one of its blanks. -/
theorem View.exists_blank_skipBlanks_gap (hg : IsGap gap) (hs : IsSolid s) (b : Option Char) :
    ∃ c, isBlank c = true ∧ View.skipBlanks ⟨b, gap ++ s⟩ = ⟨some c, s⟩ := by
  have hl := blankLength_gap hg.2 (blankLength_of_isSolid hs)
  rcases hn : gap.length with _ | n
  · exact absurd (List.length_eq_zero_iff.1 hn) hg.1
  · have hlt : n < gap.length := by omega
    refine ⟨gap[n], hg.2 _ (List.getElem_mem hlt), ?_⟩
    rw [skipBlanks, hl, hn, advance]
    have hdrop : (gap ++ s).drop (n + 1) = s := by rw [← hn, List.drop_left]
    rw [hdrop, List.getElem?_append_left hlt, List.getElem?_eq_getElem hlt]

/-- The sections come next: behind the gap in front of the first of them or in front of that gap;
behind the last of them comes the closing parenthesis. -/
def View.InFront (v : View) (gap : List Char) (parts : List (List Char)) (r : List Char) : Prop :=
  v.rest = spread gap parts ++ ')' :: r ∨
    v.rest = gap.intercalate parts ++ ')' :: r ∧ (parts ≠ [] → v.before.any isBlank = true)

/-- Behind the gap in front of the first section, the sections come next. -/
theorem View.inFront_skipBlanks (hgap : IsGap gap) (hsolid : ∀ p ∈ parts.head?, IsSolid p)
    (b : Option Char) (r : List Char) :
    (View.skipBlanks ⟨b, spread gap parts ++ ')' :: r⟩).InFront gap parts r := by
  rcases parts with _ | ⟨p, ps⟩
  · rw [spread_nil, List.nil_append, skipBlanks_close]
    exact .inl rfl
  · have hs := (hsolid p rfl).append (spread gap ps ++ ')' :: r)
    obtain ⟨c, hc, hskip⟩ := exists_blank_skipBlanks_gap hgap hs b
    rw [spread_cons, List.append_assoc, List.append_assoc, hskip]
    exact .inr ⟨by rw [intercalate_cons, List.append_assoc], fun _ => by simpa using hc⟩

namespace Rule

variable {α β : Type} {g : Rule α} {h : Rule β} {P : α → Prop} {Q : β → Prop} {a : α} {b : β}

/-- Where sections come next, a rule behind a separation begins at the first of them. -/
theorem look_separated_of_inFront (parts : List (List Char)) (hgap : IsGap gap)
    (hsolid : ∀ p ∈ parts.head?, IsSolid p)
    {v : View} (hv : v.InFront gap parts r) (levels : Nat) :
    ∃ w : View, look levels (Grammar.separated g) v = g.look levels w ∧
      w.rest = gap.intercalate parts ++ ')' :: r ∧ (parts ≠ [] → w.before.any isBlank = true) := by
  obtain ⟨before, rest⟩ := v
  rcases parts with _ | ⟨p, ps⟩
  · have hrest : rest = ')' :: r := by simpa [View.InFront] using hv
    subst hrest
    exact ⟨_, look_separated_close levels before r, rfl, by simp⟩
  have hs : IsSolid ((p ++ spread gap ps) ++ ')' :: r) := ((hsolid p rfl).append _).append _
  -- in either case the separation is there, and behind it the first section begins
  have hsep : ∃ w : View, View.separates ⟨before, rest⟩ = true ∧ View.skipBlanks ⟨before, rest⟩ = w ∧
      w.rest = (p ++ spread gap ps) ++ ')' :: r ∧ w.before.any isBlank = true := by
    rcases hv with hv | ⟨hv, hb⟩
    · have hrest : rest = gap ++ ((p ++ spread gap ps) ++ ')' :: r) := by simpa using hv
      subst hrest
      obtain ⟨c, hc, hskip⟩ := View.exists_blank_skipBlanks_gap hgap hs before
      exact ⟨_, View.separates_gap hgap hs before, hskip, rfl, by simpa using hc⟩
    · have hrest : rest = (p ++ spread gap ps) ++ ')' :: r := by
        simpa [intercalate_cons] using hv
      subst hrest
      have hb := hb (by simp)
      have hwide : before.any (fun x => x == ')' || isWideBlank x) = true := by
        rcases before with _ | c
        · simp at hb
        · simp [isWideBlank_of_isBlank (c := c) (by simpa using hb)]
      exact ⟨_, by simp [View.separates, hwide], View.skipBlanks_of_isSolid hs, rfl, hb⟩
  obtain ⟨w, hsep, hskip, hrest, hb⟩ := hsep
  refine ⟨w, ?_, by rw [intercalate_cons, hrest], fun _ => hb⟩
  rw [Grammar.separated, look_seqRight, ← hskip]
  simp only [look, Grammar.separator, Grammar.denote, Terminal.lexeme?, hsep, ↓reduceIte,
    Finding.lexeme, Finding.andThen]
  rfl

/-- Where the sections come next, the rule reads them up to the closing parenthesis, and what it
finds has the property. -/
structure ReadsSections (g : Rule α) (gap : List Char) (parts : List (List Char)) (P : α → Prop) :
    Prop where
  isGap : IsGap gap
  solid : ∀ p ∈ parts.head?, IsSolid p
  reads : ∀ r levels v, v.InFront gap parts r → (g.look levels v).Leaves (')' :: r) P

namespace ReadsSections

theorem mono {P' : α → Prop} (hg : g.ReadsSections gap parts P) (hP : ∀ a, P a → P' a) :
    g.ReadsSections gap parts P' :=
  ⟨hg.isGap, hg.solid, fun r levels v hv => (hg.reads r levels v hv).mono hP⟩

/-- A section that must be there. -/
theorem required (hg : g.Recovers p P) (hh : h.ReadsSections gap ps Q) :
    ReadsSections (.seq (Grammar.separated g) h) gap (p :: ps) fun ab => P ab.1 ∧ Q ab.2 where
  isGap := hh.isGap
  solid := by simpa using hg.solid
  reads r levels v hv := by
    obtain ⟨⟨b, rest⟩, hw, hrest, -⟩ := look_separated_of_inFront (g := g) (p :: ps)
      hh.isGap (by simpa using hg.solid) hv levels
    have hrest : rest = p ++ (spread gap ps ++ ')' :: r) := by
      simpa [intercalate_cons] using hrest
    subst hrest
    rw [look_seq, hw]
    refine (hg.reads (hh.isGap.delimited_spread ps (.close r)) levels b).andThen fun b' a ha => ?_
    exact (hh.reads r levels _ (.inl rfl)).andThen fun _ _ hb => Finding.leaves_found ⟨ha, hb⟩

/-- A section that may be missing and is there. -/
theorem present (hg : g.Recovers p P) (hh : h.ReadsSections gap ps Q) :
    ReadsSections (.seq (Grammar.optional g) h) gap (p :: ps)
      fun ab => (∃ a, ab.1 = some a ∧ P a) ∧ Q ab.2 where
  isGap := hh.isGap
  solid := by simpa using hg.solid
  reads r levels v hv := by
    obtain ⟨⟨b, rest⟩, hw, hrest, -⟩ := look_separated_of_inFront (g := g) (p :: ps)
      hh.isGap (by simpa using hg.solid) hv levels
    have hrest : rest = p ++ (spread gap ps ++ ')' :: r) := by
      simpa [intercalate_cons] using hrest
    subst hrest
    have hopt : (look levels (Grammar.optional g) v).Leaves (spread gap ps ++ ')' :: r)
        fun o => ∃ a, o = some a ∧ P a := by
      show (Reader.opt (look levels (Grammar.separated g)) v).Leaves _ _
      rw [Reader.opt, hw]
      refine Finding.Leaves.orElse
        ((hg.reads (hh.isGap.delimited_spread ps (.close r)) levels b).andThen fun _ a ha => ?_)
      exact Finding.leaves_found ⟨a, rfl, ha⟩
    rw [look_seq]
    refine hopt.andThen fun b' o ho => ?_
    exact (hh.reads r levels _ (.inl rfl)).andThen fun _ _ hb => Finding.leaves_found ⟨ho, hb⟩

/-- A section that is missing. -/
theorem absent (hg : ∀ r, g.Misses (gap.intercalate parts ++ ')' :: r))
    (hh : h.ReadsSections gap parts Q) :
    ReadsSections (.seq (Grammar.optional g) h) gap parts fun ab => ab.1 = none ∧ Q ab.2 where
  isGap := hh.isGap
  solid := hh.solid
  reads r levels v hv := by
    obtain ⟨⟨b, rest⟩, hw, hrest, -⟩ :=
      look_separated_of_inFront (g := g) parts hh.isGap hh.solid hv levels
    have hrest : rest = gap.intercalate parts ++ ')' :: r := hrest
    subst hrest
    have hopt : look levels (Grammar.optional g) v = .tooDeep ∨
        look levels (Grammar.optional g) v = .found v none := by
      show Reader.opt (look levels (Grammar.separated g)) v = .tooDeep ∨
        Reader.opt (look levels (Grammar.separated g)) v = .found v .none
      rw [Reader.opt, hw]
      exact (hg r levels b).imp (fun h => by rw [h]; rfl) fun h => by rw [h]; rfl
    rw [look_seq]
    obtain ho | ho := hopt
    · exact .inl (by rw [ho]; rfl)
    · rw [ho]
      exact (hh.reads r levels v hv).andThen fun _ _ hb => Finding.leaves_found ⟨rfl, hb⟩

/-- The last sections, read as one part of the construct. -/
theorem last (hg : g.ReadsParts gap parts P) :
    ReadsSections (Grammar.optional g) gap parts fun o => ∃ a, o = some a ∧ P a where
  isGap := hg.isGap
  solid := hg.solid
  reads r levels v hv := by
    obtain ⟨⟨b, rest⟩, hw, hrest, -⟩ :=
      look_separated_of_inFront (g := g) parts hg.isGap hg.solid hv levels
    have hrest : rest = gap.intercalate parts ++ ')' :: r := hrest
    subst hrest
    show (Reader.opt (look levels (Grammar.separated g)) v).Leaves _ _
    rw [Reader.opt, hw]
    refine Finding.Leaves.orElse ((hg.reads r levels b).andThen fun _ a ha => ?_)
    exact Finding.leaves_found ⟨a, rfl, ha⟩

/-- No section is left. -/
theorem none (hgap : IsGap gap) (hg : ∀ r, g.Misses (')' :: r)) :
    ReadsSections (Grammar.optional g) gap [] (· = Option.none) where
  isGap := hgap
  solid := by simp
  reads r levels v hv := by
    obtain ⟨⟨b, rest⟩, hw, hrest, -⟩ :=
      look_separated_of_inFront (g := g) [] hgap (by simp) hv levels
    have hrest : rest = ')' :: r := by simpa using hrest
    subst hrest
    obtain ⟨before, rest⟩ := v
    have hv : rest = ')' :: r := by simpa [View.InFront] using hv
    subst hv
    show (Reader.opt (look levels (Grammar.separated g)) _).Leaves _ _
    rw [Reader.opt, hw]
    obtain h | h := hg r levels b
    · exact .inl (by rw [h]; rfl)
    · exact .inr ⟨before, Option.none, by rw [h]; rfl, rfl⟩

/-- A section that may be missing and is there or not. -/
theorem given {p? : Option (List Char)} {O : Option α → Prop}
    (hg : ∀ p ∈ p?, g.Recovers p fun a => O (some a))
    (hnone : p? = Option.none →
      O Option.none ∧ ∀ r, g.Misses (gap.intercalate parts ++ ')' :: r))
    (hh : h.ReadsSections gap parts Q) :
    ReadsSections (.seq (Grammar.optional g) h) gap (p?.toList ++ parts)
      fun ab => O ab.1 ∧ Q ab.2 := by
  cases p? with
  | none =>
    obtain ⟨ho, hmiss⟩ := hnone rfl
    exact (absent hmiss hh).mono fun ab hab => ⟨hab.1 ▸ ho, hab.2⟩
  | some p =>
    refine (present (hg p rfl) hh).mono ?_
    rintro ⟨o, b⟩ ⟨⟨a, rfl, ha⟩, hb⟩
    exact ⟨ha, hb⟩

/-- A last section that may be missing and is there or not. -/
theorem given_last {p? : Option (List Char)} {O : Option α → Prop} (hgap : IsGap gap)
    (hg : ∀ p ∈ p?, g.Recovers p fun a => O (some a))
    (hnone : p? = Option.none → O Option.none ∧ ∀ r, g.Misses (')' :: r)) :
    ReadsSections (Grammar.optional g) gap p?.toList O := by
  cases p? with
  | none =>
    obtain ⟨ho, hmiss⟩ := hnone rfl
    exact (ReadsSections.none hgap hmiss).mono fun o h => h ▸ ho
  | some p =>
    refine (last (.one hgap (hg p rfl))).mono ?_
    rintro o ⟨a, rfl, ha⟩
    exact ha

end ReadsSections

/-- A form of nothing but sections. -/
theorem recovers_form_sections {w : String} (hw : IsHead w) (hg : g.ReadsSections gap parts P) :
    Recovers (Grammar.form w g) (enclose gap w parts) P where
  solid := isSolid_enclose _ _ _
  reads {r} _ := by
    have h : Reads (Grammar.word w *> Grammar.blanks *> g) (w.toList ++ spread gap parts)
        (')' :: r) P := by
      intro levels b
      obtain ⟨b', hb'⟩ := look_word hw (hg.isGap.delimited_spread parts (.close r)) levels b
      rw [look_seqRight, look_seqRight, List.append_assoc, hb']
      exact hg.reads r levels _ (View.inFront_skipBlanks hg.isGap hg.solid b' r)
    have h := h.parens (blankLength_of_isSolid ((hw.solid.append _).append _))
    simpa [enclose, Grammar.form] using h

/-- A part and the sections behind it. -/
theorem ReadsParts.sections (hg : g.Recovers p P) (hh : h.ReadsSections gap parts Q) :
    ReadsParts (Grammar.pair g h) gap (p :: parts) fun ab => P ab.1 ∧ Q ab.2 where
  isGap := hh.isGap
  solid := by simpa using hg.solid
  reads r := by
    rw [intercalate_cons]
    refine .seq (hg.reads (hh.isGap.delimited_spread _ (.close r))) fun levels b => ?_
    -- the separation leaves the sections in front
    obtain ⟨w, hw, hrest, hb⟩ :=
      look_separated_of_inFront (g := h) (v := ⟨b, _⟩) parts hh.isGap hh.solid (.inl rfl) levels
    rw [hw]
    exact hh.reads r levels w (.inr ⟨hrest, hb⟩)

/-! ### Head words of sections -/

/-- The next section, if there is one, is a form that begins with one of the head words. -/
def Begins (heads : List String) (parts : List (List Char)) : Prop :=
  ∀ p ∈ parts.head?, ∃ gap head ps, IsGap gap ∧ head ∈ heads ∧ p = enclose gap head ps

theorem begins_nil (heads : List String) : Begins heads [] := by simp [Begins]

theorem begins_cons {heads : List String} {head : String} (hgap : IsGap gap) (hh : head ∈ heads)
    (ps parts : List (List Char)) : Begins heads (enclose gap head ps :: parts) := by
  rintro p hp
  obtain rfl : enclose gap head ps = p := by simpa using hp
  exact ⟨gap, head, ps, hgap, hh, rfl⟩

/-- A section that may be left out, if it is there. -/
theorem begins_map {α : Type} {head : String} {f : α → List Char} {words : α → List (List Char)}
    (hgap : IsGap gap) (hf : ∀ a, f a = enclose gap head (words a)) (a? : Option α) :
    Begins [head] (a?.map f).toList := by
  cases a? with
  | none => exact begins_nil _
  | some a =>
    rw [Option.map_some, Option.toList_some, hf]
    exact begins_cons hgap (by simp) _ _

theorem Begins.mono {heads heads' : List String} (h : Begins heads parts) (hs : heads ⊆ heads') :
    Begins heads' parts := fun p hp =>
  let ⟨gap, head, ps, hgap, hh, he⟩ := h p hp
  ⟨gap, head, ps, hgap, hs hh, he⟩

theorem Begins.append {heads : List String} {front : List (List Char)} (hfront : Begins heads front)
    (h : Begins heads parts) : Begins heads (front ++ parts) := by
  cases front with
  | nil => exact h
  | cons p ps => exact hfront

/-- A section is missing where another one comes next. -/
theorem misses_form_of_begins {w : String} {heads : List String} (hw : IsPlainWord w)
    (hheads : ∀ head ∈ heads, IsWord head ∧ Apart w head.toList = true) (hp : Begins heads parts)
    (r : List Char) : Misses (Grammar.form w g) (gap.intercalate parts ++ ')' :: r) := by
  rcases parts with _ | ⟨p, ps⟩
  · exact misses_parens (by simp)
  · obtain ⟨gap', head, qs, hgap', hh, rfl⟩ := hp p rfl
    obtain ⟨hword, hapart⟩ := hheads head hh
    rw [intercalate_cons, List.append_assoc]
    exact misses_form hapart hw (isHead_of_isWord hword).solid hgap' qs

end Rule

end Pddl
