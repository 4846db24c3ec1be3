import Pddl.Proofs.Finality
import Pddl.Proofs.Parts

/-!
# Unknown requirement flags

An unknown requirement flag ends the reading of a whole text where it stands, whatever follows it.

* `Rule.Reaches` : from a view, the run of a rule tries a part at another view.
* `Rule.Reaches.aborts` : where the part is a requirement flag that is unknown, the run ends there.
* `DeclaredFlags`, `UnknownFlag` : the beginning of a section of requirement flags, and a keyword
  that is none of them.
* `DomainOpening`, `ProblemOpening` : what stands in front of the section.
* `Rule.parse_unknown_flag` : **the unknown flag is reported at its first character.**
-/

namespace Pddl

namespace Rule

variable {α β γ : Type} {levels : Nat} {k : Rule γ} {g : Rule α} {h : Rule β} {u v w : View} {a : α}

/-! ### Runs from view to view -/

/-- From the view, the run of the rule tries the part at another view. -/
def Reaches (levels : Nat) (k : Rule γ) (w : View) (g : Rule α) (v : View) : Prop :=
  ∀ c : Cursor, c.Calm → c.view = v → c.ceiling - c.depth = levels →
    ∃ d, c.Follows d ∧ d.view = w ∧ Grammar.Tries (Nonterminal.parse levels) k d g c

theorem reaches_here : Reaches levels k w k w := fun _ hc hv _ => ⟨_, .refl hc, hv, .here⟩

/-- What is found at the view is parsed on the way. -/
theorem Reaches.behind (hg : g.Settled) (hlook : g.look levels v = .found u a)
    (hh : Reaches levels k w h u) {c : Cursor} (hc : c.Calm) (hv : c.view = v)
    (hl : c.ceiling - c.depth = levels) :
    ∃ e d, g.run (Nonterminal.parse levels) c = .ok (e, a) ∧ c.Follows e ∧ e.view = u ∧
      c.Follows d ∧ d.view = w ∧ Grammar.Tries (Nonterminal.parse levels) k d h e := by
  subst hl hv
  obtain ⟨e, he, hfollows, hview⟩ := parse_of_look hg hc hlook
  obtain ⟨d, hd, hw, htries⟩ := hh e hfollows.calm hview hfollows.levels
  exact ⟨e, d, he, hfollows, hview, hfollows.trans hd, hw, htries⟩

namespace Reaches

theorem refine {f : α → Except Complaint β} (hg : Reaches levels k w g v) :
    Reaches levels k w (.refine f g) v := fun c hc hv hl =>
  let ⟨d, hd, hw, htries⟩ := hg c hc hv hl
  ⟨d, hd, hw, htries.refine⟩

theorem map {f : α → β} (hg : Reaches levels k w g v) : Reaches levels k w (f <$> g) v := hg.refine

theorem seq (hg : Reaches levels k w g v) : Reaches levels k w (.seq g h) v := fun c hc hv hl =>
  let ⟨d, hd, hw, htries⟩ := hg c hc hv hl
  ⟨d, hd, hw, htries.seq⟩

theorem seq_behind (hg : g.Settled) (hlook : g.look levels v = .found u a)
    (hh : Reaches levels k w h u) : Reaches levels k w (.seq g h) v := fun _ hc hv hl =>
  let ⟨_, d, he, _, _, hd, hw, htries⟩ := hh.behind hg hlook hc hv hl
  ⟨d, hd, hw, .seqBehind he htries⟩

theorem opt (hg : Reaches levels k w g v) : Reaches levels k w (.opt g) v := fun c hc hv hl =>
  let ⟨d, hd, hw, htries⟩ := hg c hc hv hl
  ⟨d, hd, hw, htries.opt⟩

theorem seqLeft (hg : Reaches levels k w g v) : Reaches levels k w (g <* h) v := hg.seq.map

theorem seqRight_behind (hg : g.Settled) (hlook : g.look levels v = .found u a)
    (hh : Reaches levels k w h u) : Reaches levels k w (g *> h) v := (hh.seq_behind hg hlook).map

/-! #### Forms -/

theorem blanks (hh : Reaches levels k w h v.skipBlanks) :
    Reaches levels k w (Grammar.blanks *> h) v := hh.seqRight_behind trivial (look_blanks _ _)

theorem padded (hg : Reaches levels k w g v.skipBlanks) : Reaches levels k w (Grammar.padded g) v :=
  (blanks hg).seqLeft

theorem parens (hv : v.rest.head? = some '(') (hg : Reaches levels k w g v.inside) :
    Reaches levels k w (Grammar.parens g) v := by
  obtain ⟨b, rest⟩ := v
  obtain ⟨s, rfl⟩ := List.head?_eq_some_iff.1 hv
  exact (hg.padded.seqRight_behind (g := .terminal (.char '(')) trivial (look_open _ _ _)).seqLeft

theorem form {x : String} {n : Nat} (hv : v.rest.head? = some '(')
    (hx : keywordLength? x v.inside.rest = some n)
    (hg : Reaches levels k w g (v.inside.advance n).skipBlanks) :
    Reaches levels k w (Grammar.form x g) v := by
  refine parens hv (hg.seqRight_behind (a := ()) (by simp [Grammar.word, Grammar.blanks]) ?_)
  rw [look_seqRight, look_word_eq, hx]
  exact look_blanks _ _

theorem separated (hv : v.separates = true) (hg : Reaches levels k w g v.skipBlanks) :
    Reaches levels k w (Grammar.separated g) v := by
  refine hg.seqRight_behind trivial (a := ()) ?_
  simp [look, Grammar.separator, Grammar.denote, Terminal.lexeme?, hv, Finding.lexeme,
    View.skipBlanks]

theorem optional (hv : v.separates = true) (hg : Reaches levels k w g v.skipBlanks) :
    Reaches levels k w (Grammar.optional g) v := (hg.separated hv).opt

theorem pair_behind (hg : g.Settled) (hlook : g.look levels v = .found u a)
    (hu : u.separates = true) (hh : Reaches levels k w h u.skipBlanks) :
    Reaches levels k w (Grammar.pair g h) v := (hh.separated hu).seq_behind hg hlook

/-! #### Lists -/

theorem more (hv : v.separates = true) (hg : Reaches levels k w g v.skipBlanks) :
    Reaches levels k w (.more g) v := by
  intro c hc hview hl
  have hskip := Cursor.follows_skipBlanks hc
  obtain ⟨d, hd, hw, htries⟩ :=
    hg c.skipBlanks hskip.calm (by rw [Cursor.view_skipBlanks, hview]) (hskip.levels.trans hl)
  refine ⟨d, hskip.trans hd, hw, .more ?_ htries⟩
  rw [Cursor.separated?_eq, hview, if_pos hv]

theorem more_behind (hg : g.Settled) (hv : v.separates = true)
    (hlook : g.look levels v.skipBlanks = .found u a) (hlen : u.rest.length < v.rest.length)
    (hmore : Reaches levels k w (.more g) u) : Reaches levels k w (.more g) v := by
  intro c hc hview hl
  have hskip := Cursor.follows_skipBlanks hc
  obtain ⟨e, d, he, hce, heu, hd, hw, htries⟩ :=
    hmore.behind hg hlook (c := c.skipBlanks) hskip.calm
      (by rw [Cursor.view_skipBlanks, hview]) (hskip.levels.trans hl)
  have hsep : Parser.separated (g.run (Nonterminal.parse levels)) c = .ok (e, a) :=
    Parser.separated_eq_ok.2 ⟨by rw [hview]; exact hv, he⟩
  -- the element takes characters, so the list goes on behind it
  have hlt : e.rest.length < c.rest.length := by
    have hrest : c.rest = v.rest := congrArg View.rest hview
    rw [show e.rest = u.rest from congrArg View.rest heu, hrest]
    exact hlen
  have hoff := (hskip.trans hce).offset
  exact ⟨d, hskip.trans hd, hw, .moreBehind hsep (by omega) hlt htries⟩

theorem many1 (hg : Reaches levels k w g v) : Reaches levels k w (Grammar.many1 g) v := hg.seq.map

theorem many1_behind (hg : g.Settled) (hlook : g.look levels v = .found u a)
    (hmore : Reaches levels k w (.more g) u) : Reaches levels k w (Grammar.many1 g) v :=
  (hmore.seq_behind hg hlook).map

end Reaches

/-- Where the run comes to an unknown requirement flag, it ends there. -/
theorem Reaches.aborts {c : Cursor} (hc : c.Calm)
    (hg : Reaches (c.ceiling - c.depth) requirement w g c.view) {flag : List Char}
    (hf : Token.keyword.lexeme? w.rest = some flag)
    (hu : (Vocabulary.ofKeyword? (String.ofList flag) : Option Requirement) = none) :
    ∃ k, k + w.rest.length = c.offset + c.rest.length ∧
      g.parse c = .error (.mismatch ⟨.unknownRequirement, .requirementFlag, k⟩) := by
  obtain ⟨d, hd, hw, htries⟩ := hg c hc rfl rfl
  have hrest : d.rest = w.rest := congrArg View.rest hw
  refine ⟨d.offset, by rw [← hrest, hd.offset], ?_⟩
  exact (htries.aborts (aborts_requirement flag (hrest ▸ hf) hu)).1

end Rule

/-! ### Requirement flags in a text -/

theorem Requirement.isFlag_keyword (r : Requirement) : IsFlag (Vocabulary.keyword r) := by
  cases r <;> decide +kernel

/-- A requirement flag and what separates it from the next one. -/
structure DeclaredFlag where
  /-- The flag. -/
  flag : Requirement
  /-- What follows it. -/
  spacing : Spacing
  separates : spacing.chars ≠ []

/-- The characters. -/
def DeclaredFlag.chars (f : DeclaredFlag) : List Char :=
  (Vocabulary.keyword f.flag).toList ++ f.spacing.chars

/-- The beginning of a section of requirement flags: its parenthesis, its head word and some
flags. -/
structure DeclaredFlags where
  /-- The spacing in front of the section. -/
  gap : Spacing
  /-- The spacing behind its parenthesis. -/
  inner : Spacing
  /-- The spacing behind its head word. -/
  first : Spacing
  /-- The flags. -/
  flags : List DeclaredFlag

namespace DeclaredFlags

variable (fs : DeclaredFlags)

/-- The characters from the parenthesis on. -/
def form : List Char :=
  '(' :: (fs.inner.chars ++
    (":requirements".toList ++ (fs.first.chars ++ fs.flags.flatMap DeclaredFlag.chars)))

/-- The characters. -/
def chars : List Char := fs.gap.chars ++ fs.form

end DeclaredFlags

/-- A keyword that is no requirement flag. -/
structure UnknownFlag where
  /-- What follows the colon. -/
  name : List Char
  valid : isName name = true
  unknown : (Vocabulary.ofKeyword? (String.ofList (':' :: name)) : Option Requirement) = none

/-- The characters. -/
def UnknownFlag.chars (u : UnknownFlag) : List Char := ':' :: u.name

theorem UnknownFlag.lexeme? (u : UnknownFlag) {y : List Char}
    (hy : y.head?.any isNameChar = false) :
    Token.keyword.lexeme? (u.chars ++ y) = some u.chars := by
  simp [chars, Token.lexeme?, markedLexeme?, nameLexeme?_written u.valid hy]

namespace Rule

variable {levels : Nat} {v : View} {y : List Char}

theorem look_requirement {r : Requirement} (hv : v.rest = (Vocabulary.keyword r).toList ++ y)
    (hy : y.head?.any isNameChar = false) :
    requirement.look levels v = .found (v.advance (Vocabulary.keyword r).toList.length) r := by
  have hlex := r.isFlag_keyword.lexeme?_append hy
  have hmember : Vocabulary.ofKeyword? (Vocabulary.keyword r) = some r := by cases r <;> decide
  simp [look, requirement, Grammar.denote, Reader.refine, Terminal.lexeme?, Terminal.flagLexeme?,
    hv, hlex, Finding.lexeme, Finding.andThen, hmember]

/-- A flag is found, and what separates it from what follows. -/
theorem exists_look_flag (levels : Nat) (f : DeclaredFlag) (hv : v.rest = f.chars ++ y)
    (hy : y.head? = some ':') :
    ∃ u, requirement.look levels v = .found u f.flag ∧ u.separates = true ∧
      u.skipBlanks.rest = y ∧ u.rest.length < v.rest.length := by
  obtain ⟨t, rfl⟩ := List.head?_eq_some_iff.1 hy
  have hrest : v.rest = (Vocabulary.keyword f.flag).toList ++ (f.spacing.chars ++ ':' :: t) := by
    rw [hv, DeclaredFlag.chars, List.append_assoc]
  have hbehind : (v.advance (Vocabulary.keyword f.flag).toList.length).rest =
      f.spacing.chars ++ ':' :: t := by
    rw [View.rest_advance, hrest, List.drop_left]
  refine ⟨_, look_requirement hrest (f.spacing.any_isNameChar (by rfl)),
    f.spacing.separates f.separates hbehind,
    f.spacing.rest_skipBlanks hbehind (by simp [blankLength, isBlank]), ?_⟩
  obtain ⟨name, hname, -⟩ := f.flag.isFlag_keyword.exists_name
  rw [hbehind, hrest, hname]
  simp only [List.length_append, List.length_cons]
  omega

theorem head?_flags (fs : List DeclaredFlag) (u : UnknownFlag) (y : List Char) :
    (fs.flatMap DeclaredFlag.chars ++ (u.chars ++ y)).head? = some ':' := by
  rcases fs with _ | ⟨f, fs⟩
  · rfl
  · obtain ⟨name, hname, -⟩ := f.flag.isFlag_keyword.exists_name
    simp [DeclaredFlag.chars, hname]

/-- Behind some flags and a separation, the next one is tried. -/
theorem reaches_more_flags (fs : List DeclaredFlag) (u : UnknownFlag)
    (hv : v.skipBlanks.rest = fs.flatMap DeclaredFlag.chars ++ (u.chars ++ y))
    (hsep : v.separates = true) :
    ∃ w, w.rest = u.chars ++ y ∧ Reaches levels requirement w (.more requirement) v := by
  induction fs generalizing v with
  | nil => exact ⟨_, hv, reaches_here.more hsep⟩
  | cons f fs ih =>
    rw [List.flatMap_cons, List.append_assoc] at hv
    obtain ⟨v', hlook, hsep', hv', hlen⟩ := exists_look_flag levels f hv (head?_flags fs u y)
    obtain ⟨w, hw, hmore⟩ := ih hv' hsep'
    have hle := v.rest_skipBlanks_suffix.length_le
    exact ⟨w, hw, hmore.more_behind (by simp [requirement]) hsep hlook (by omega)⟩

/-- Behind some flags, the next one is tried. -/
theorem reaches_flags (fs : List DeclaredFlag) (u : UnknownFlag)
    (hv : v.rest = fs.flatMap DeclaredFlag.chars ++ (u.chars ++ y)) :
    ∃ w, w.rest = u.chars ++ y ∧ Reaches levels requirement w (Grammar.many1 requirement) v := by
  rcases fs with _ | ⟨f, fs⟩
  · exact ⟨v, hv, reaches_here.many1⟩
  · rw [List.flatMap_cons, List.append_assoc] at hv
    obtain ⟨v', hlook, hsep, hv', -⟩ := exists_look_flag levels f hv (head?_flags fs u y)
    obtain ⟨w, hw, hmore⟩ := reaches_more_flags fs u hv' hsep
    exact ⟨w, hw, hmore.many1_behind (by simp [requirement]) hlook⟩

/-- A section of flags is a form with a head word of its own. -/
theorem views_requirements (fs : DeclaredFlags) (u : UnknownFlag)
    (hv : v.rest = fs.form ++ (u.chars ++ y)) :
    v.rest.head? = some '(' ∧ keywordLength? ":requirements" v.inside.rest = some 13 ∧
      (v.inside.advance 13).skipBlanks.rest =
        fs.flags.flatMap DeclaredFlag.chars ++ (u.chars ++ y) := by
  let flags := fs.flags.flatMap DeclaredFlag.chars ++ (u.chars ++ y)
  obtain ⟨t, ht⟩ : ∃ t, flags = ':' :: t := List.head?_eq_some_iff.1 (head?_flags fs.flags u y)
  have hinside : v.inside.rest = ":requirements".toList ++ (fs.first.chars ++ flags) := by
    refine fs.inner.rest_skipBlanks ?_ (by simp [blankLength, isBlank])
    simp [hv, DeclaredFlags.form, flags]
  refine ⟨by rw [hv]; rfl, ?_, fs.first.rest_skipBlanks ?_ ?_⟩
  · rw [hinside]
    refine keywordLength?_append_self (w := ":requirements") (by decide)
      (fs.first.any_isNameChar ?_)
    rw [ht]
    rfl
  · rw [View.rest_advance, hinside]
    rfl
  · rw [show fs.flags.flatMap DeclaredFlag.chars ++ (u.chars ++ y) = ':' :: t from ht]
    simp [blankLength, isBlank]

/-- In an optional section of flags, the one behind those that are known is tried. -/
theorem reaches_requirements (levels : Nat) (fs : DeclaredFlags) (u : UnknownFlag)
    (hv : v.Faces (fs.form ++ (u.chars ++ y))) :
    ∃ w, w.rest = u.chars ++ y ∧
      Reaches levels requirement w (Grammar.optional requirements) v := by
  obtain ⟨hopen, hword, hflags⟩ := views_requirements fs u hv.rest
  obtain ⟨w, hw, hreaches⟩ := reaches_flags fs.flags u hflags
  exact ⟨w, hw, .optional hv.separates (.map (.form hopen hword hreaches))⟩

end Rule

/-! ### What stands in front of the flags -/

/-- How a domain begins: its name, and the domains that it extends. -/
structure DomainOpening (ceiling : Nat) where
  /-- The beginning with the name. -/
  opening : Opening (Grammar.form "domain" (Grammar.symbol .name)) ceiling
  /-- The section of the extended domains, if there is one. -/
  parents? : Option (Spacing × Part Rule.parents ceiling)

/-- How a problem begins: its name and that of its domain. -/
structure ProblemOpening (ceiling : Nat) where
  /-- The beginning with the name. -/
  opening : Opening (Grammar.form "problem" (Grammar.symbol .name)) ceiling
  /-- The spacing in front of the name of the domain. -/
  gap : Spacing
  /-- The section with the name of the domain. -/
  domain : Part (Grammar.form ":domain" (Grammar.symbol .name)) ceiling

/-- The characters. -/
def DomainOpening.chars {ceiling : Nat} (o : DomainOpening ceiling) : List Char :=
  o.opening.chars ++ o.parents?.elim [] fun (gap, p) => gap.chars ++ p.text

/-- The characters. -/
def ProblemOpening.chars {ceiling : Nat} (o : ProblemOpening ceiling) : List Char :=
  o.opening.chars ++ (o.gap.chars ++ o.domain.text)

namespace Rule

theorem isEnclosed_domainTitle :
    IsEnclosed (Grammar.form "domain" (Grammar.symbol .name)) := ⟨by simp, by decide, rfl⟩

theorem isEnclosed_problemTitle :
    IsEnclosed (Grammar.form "problem" (Grammar.symbol .name)) := ⟨by simp, by decide, rfl⟩

theorem isEnclosed_problemDomain :
    IsEnclosed (Grammar.form ":domain" (Grammar.symbol .name)) := ⟨by simp, by decide, rfl⟩

theorem isEnclosed_parents : IsEnclosed parents := ⟨by simp [parents], by decide, rfl⟩

variable {α β γ : Type} {ceiling : Nat} {k : Rule γ} {v w : View} {y : List Char}

/-- Behind its title, a whole text goes on with its sections. -/
theorem reaches_opening {title : Rule α} {sections : Rule β} (hg : title.IsEnclosed)
    (o : Opening title ceiling) (hv : v.rest = o.chars ++ y)
    (h : Reaches ceiling k w sections (View.skipBlanks ⟨some ')', y⟩)) :
    Reaches ceiling k w
      (Grammar.padded (Grammar.form "define" (Grammar.pair title sections))) v := by
  obtain ⟨hopen, hword, htitle⟩ := o.views hg hv
  exact .padded (.form hopen hword (.pair_behind hg.settled (o.title.look hg htitle)
    (by simp [View.separates]) h))

/-- The flags stand ahead. -/
theorem faces_flags (fs : DeclaredFlags) (y : List Char) :
    View.Faces ⟨some ')', fs.chars ++ y⟩ (fs.form ++ y) := by
  rw [DeclaredFlags.chars, List.append_assoc]
  exact View.faces_close _ (.inl rfl)

/-- In front of requirement flags, no domain is extended. -/
theorem look_parents_flags (fs : DeclaredFlags) (u : UnknownFlag)
    (hv : v.Faces (fs.form ++ (u.chars ++ y))) :
    look ceiling (Grammar.optional parents) v = .found v none := by
  obtain ⟨hopen, hword, -⟩ := views_requirements fs u hv.rest
  have hopens : v.skipBlanks.OpensWith ":requirements" := ⟨hopen, by rw [hword]; rfl⟩
  exact look_optional_missing hv
    ((headedBy_form ":extends" _).missing (by decide) hopens (by decide) (by decide) ceiling)

/-- In a domain, the first flag that is unknown is tried. -/
theorem reaches_domain (o : DomainOpening ceiling) (fs : DeclaredFlags) (u : UnknownFlag)
    (hv : v.rest = o.chars ++ (fs.chars ++ (u.chars ++ y))) :
    ∃ w, w.rest = u.chars ++ y ∧ Reaches ceiling requirement w domain v := by
  have hflags := faces_flags fs (u.chars ++ y)
  rcases hp : o.parents? with _ | ⟨gap, p⟩
  · obtain ⟨w, hw, hreaches⟩ := reaches_requirements ceiling fs u hflags.skipBlanks
    refine ⟨w, hw, .map (reaches_opening isEnclosed_domainTitle o.opening ?_
      (.seq_behind (by simp [parents]) (look_parents_flags fs u hflags.skipBlanks) hreaches.seq))⟩
    simpa [DomainOpening.chars, hp] using hv
  · obtain ⟨w, hw, hreaches⟩ := reaches_requirements ceiling fs u hflags
    have hparents := View.faces_close gap
      (p.atParenthesis isEnclosed_parents (fs.chars ++ (u.chars ++ y)))
    refine ⟨w, hw, .map (reaches_opening isEnclosed_domainTitle o.opening ?_
      (.seq_behind (by simp [parents]) (look_optional_part isEnclosed_parents p hparents.skipBlanks)
        hreaches.seq))⟩
    simpa [DomainOpening.chars, hp] using hv

/-- In a problem, the first flag that is unknown is tried. -/
theorem reaches_problem (o : ProblemOpening ceiling) (fs : DeclaredFlags) (u : UnknownFlag)
    (hv : v.rest = o.chars ++ (fs.chars ++ (u.chars ++ y))) :
    ∃ w, w.rest = u.chars ++ y ∧ Reaches ceiling requirement w problem v := by
  have hflags := faces_flags fs (u.chars ++ y)
  obtain ⟨w, hw, hreaches⟩ := reaches_requirements ceiling fs u hflags.skipBlanks
  have hdomain := View.faces_close o.gap
    (o.domain.atParenthesis isEnclosed_problemDomain (fs.chars ++ (u.chars ++ y)))
  refine ⟨w, hw, .map (reaches_opening isEnclosed_problemTitle o.opening ?_
    (.pair_behind isEnclosed_problemDomain.settled
      (o.domain.look isEnclosed_problemDomain hdomain.rest) hflags.separates hreaches.seq))⟩
  simpa [ProblemOpening.chars] using hv

theorem parse_of_reaches_flag {α : Type} {g : Rule α} {front : List Char} {u : UnknownFlag}
    (hy : y.head?.any isNameChar = false) {v : View} (hv : v = ⟨none, front ++ (u.chars ++ y)⟩)
    (h : ∃ w, w.rest = u.chars ++ y ∧ Reaches ceiling requirement w g v) :
    g.parse (Cursor.ofText (front ++ (u.chars ++ y)) ceiling) =
      .error (.mismatch ⟨.unknownRequirement, .requirementFlag, front.length⟩) := by
  obtain ⟨w, hw, hreaches⟩ := h
  subst hv
  obtain ⟨k, hk, hparse⟩ := hreaches.aborts (c := Cursor.ofText (front ++ (u.chars ++ y)) ceiling)
    (calm_ofText _ _) (hw ▸ u.lexeme? hy) u.unknown
  obtain rfl : k = front.length := by
    simp only [hw, Cursor.ofText, Cursor.ofOffset, List.drop_zero, List.length_append] at hk
    omega
  exact hparse

/-- **An unknown requirement flag ends the reading where it stands**: behind the beginning of a
domain or of a problem and any known flags, it is reported at its first character, whatever
follows it. -/
theorem parse_unknown_flag {ceiling : Nat} (fs : DeclaredFlags) (u : UnknownFlag) {y : List Char}
    (hy : y.head?.any isNameChar = false) :
    (∀ o : DomainOpening ceiling,
      domain.parse (Cursor.ofText (o.chars ++ fs.chars ++ (u.chars ++ y)) ceiling) =
        .error (.mismatch ⟨.unknownRequirement, .requirementFlag, (o.chars ++ fs.chars).length⟩)) ∧
    ∀ o : ProblemOpening ceiling,
      problem.parse (Cursor.ofText (o.chars ++ fs.chars ++ (u.chars ++ y)) ceiling) =
        .error (.mismatch ⟨.unknownRequirement, .requirementFlag, (o.chars ++ fs.chars).length⟩) :=
  ⟨fun o => parse_of_reaches_flag hy rfl (reaches_domain o fs u (List.append_assoc ..)),
    fun o => parse_of_reaches_flag hy rfl (reaches_problem o fs u (List.append_assoc ..))⟩

/-- The flag `:nope` behind `:strips`, in a domain that extends none and in a problem. -/
theorem parse_unknown_flag_behind_strips :
    domain.parse (Cursor.ofText "(define (domain d) (:requirements :strips :nope)".toList 40) =
        .error (.mismatch ⟨.unknownRequirement, .requirementFlag, 42⟩) ∧
      problem.parse (Cursor.ofText
          "(define (problem p) (:domain d) (:requirements :strips :nope)".toList 40) =
        .error (.mismatch ⟨.unknownRequirement, .requirementFlag, 55⟩) := by
  let flags : DeclaredFlags := ⟨.one, .none, .one, [⟨.strips, .one, by decide⟩]⟩
  let nope : UnknownFlag := ⟨"nope".toList, by decide, by decide⟩
  let ofDomain : DomainOpening 40 :=
    ⟨⟨.none, .none, .one, .named "domain" (by decide) ⟨"d", by decide⟩ 40⟩, none⟩
  let ofProblem : ProblemOpening 40 :=
    ⟨⟨.none, .none, .one, .named "problem" (by decide) ⟨"p", by decide⟩ 40⟩, .one,
      .named ":domain" (by decide) ⟨"d", by decide⟩ 40⟩
  have hdomain : "(define (domain d) (:requirements :strips :nope)".toList =
      ofDomain.chars ++ flags.chars ++ (nope.chars ++ [')']) := by decide +kernel
  have hproblem : "(define (problem p) (:domain d) (:requirements :strips :nope)".toList =
      ofProblem.chars ++ flags.chars ++ (nope.chars ++ [')']) := by decide +kernel
  obtain ⟨hd, hp⟩ := @parse_unknown_flag 40 flags nope [')'] (by decide)
  rw [hdomain, hproblem, hd ofDomain, hp ofProblem]
  exact ⟨rfl, rfl⟩

end Rule

end Pddl
