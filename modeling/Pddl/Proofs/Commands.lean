import Pddl.Command
import Pddl.Proofs.CanonicalFiles

/-!
# Ends of commands

Arguments that make a command name files that are there.  The command ends with a report, or with a
message about what a file holds, unless a file that it reads holds no text: that error, and no other
one, escapes.  A report holds all that was asked for, the canonical form included, because what was
loaded can be written.

* `Store.Holds`, `Store.HoldsNoText` : what file a path leads to.
* `Command.LacksText` : a file that the command reads holds no text.
* `Command.run_ends` : how a command ends whose files are there.
* `Store.execute_ends` : **arguments that make a command end in a report or a message where the command
  lacks no text, and let an error escape where it does.**
* `Store.execute_escapes_iff` : from no other arguments does an error escape.
-/

namespace Pddl

/-! ### Files -/

theorem textOf?_eq_none_iff {bytes : ByteArray} : textOf? bytes = none ↔ ¬bytes.IsValidUTF8 := by
  simp [textOf?, String.fromUTF8?]

namespace Store

variable {s : Store} {path parameter : String} {bytes : ByteArray}

/-- The path leads to a file of these bytes. -/
def Holds (s : Store) (path : String) (bytes : ByteArray) : Prop :=
  ∃ location, s.lookUp (normalPath path) = .file location bytes

/-- The path leads to a file whose bytes are no text. -/
def HoldsNoText (s : Store) (path : String) : Prop :=
  ∃ bytes, s.Holds path bytes ∧ ¬bytes.IsValidUTF8

theorem Holds.open? (h : s.Holds path bytes) : s.open? (normalPath path) = .ok bytes := by
  obtain ⟨location, h⟩ := h
  rw [Store.open?, h]

theorem Holds.isThere (h : s.Holds path bytes) : (s.lookUp (normalPath path)).isThere = true := by
  obtain ⟨location, h⟩ := h
  rw [h]
  rfl

/-- A path leads to one file at most. -/
theorem Holds.unique {other : ByteArray} (h : s.Holds path bytes) (h' : s.Holds path other) :
    bytes = other := Except.ok.inj (h.open?.symm.trans h'.open?)

theorem Holds.isValidUTF8_iff (h : s.Holds path bytes) :
    bytes.IsValidUTF8 ↔ ¬s.HoldsNoText path :=
  ⟨fun hb ⟨_, h', hb'⟩ => hb' (h.unique h' ▸ hb), fun hno => by_contra fun hb => hno ⟨_, h, hb⟩⟩

theorem text_of_holdsNoText (h : s.HoldsNoText path) : s.text path = .error .undecodable := by
  obtain ⟨bytes, hbytes, hno⟩ := h
  simp only [Store.text, hbytes.isThere, hbytes.open?, Except.mapError, Except.bind, bind,
    textOf?_eq_none_iff.2 hno]
  rfl

theorem load_of_holdsNoText (kind : Description.Kind) (settings : Settings)
    (h : s.HoldsNoText path) : s.load kind path settings = .error .undecodable := by
  cases kind with
  | domain => rw [load, loadDomain, text_of_holdsNoText h]; rfl
  | problem => rw [load, loadProblem, text_of_holdsNoText h]; rfl

theorem loadSettings_of_holdsNoText (h : s.HoldsNoText path) :
    s.loadSettings path = .error .undecodable := by
  obtain ⟨bytes, hbytes, hno⟩ := h
  simp only [loadSettings, hbytes.isThere, hbytes.open?, Except.mapError, Except.bind, bind,
    textOf?_eq_none_iff.2 hno]
  rfl

/-- A file that holds a text is loaded, or its text is the reason why not. -/
theorem load_cases (kind : Description.Kind) (settings : Settings) (h : s.Holds path bytes)
    (hb : bytes.IsValidUTF8) :
    (∃ d, s.load kind path settings = .ok d) ∨
      ∃ text failure, s.load kind path settings = .error (.unreadable text failure) := by
  obtain ⟨location, hlocation⟩ := h
  obtain ⟨text, htext⟩ := Option.ne_none_iff_exists'.1 fun hno => textOf?_eq_none_iff.1 hno hb
  have htext := text_of_lookUp hlocation htext
  have hrule : ∀ {α : Type} (g : Rule α), (do g.load settings (← s.text path)) =
      (g.read settings text).mapError (LoadError.unreadable text) := fun g => by
    rw [htext]
    rfl
  cases kind with
  | domain =>
    rw [load, loadDomain, hrule]
    rcases Rule.domain.read settings text with e | d
    · exact .inr ⟨text, e, rfl⟩
    · exact .inl ⟨.domain d, rfl⟩
  | problem =>
    rw [load, loadProblem, hrule]
    rcases Rule.problem.read settings text with e | p
    · exact .inr ⟨text, e, rfl⟩
    · exact .inl ⟨.problem p, rfl⟩

/-- What is wrong with a settings file that holds a text is expected. -/
theorem isExpected_of_loadSettings (h : s.Holds path bytes) (hb : bytes.IsValidUTF8)
    {e : SettingsError} (he : s.loadSettings path = .error e) :
    (CommandError.settings path e).isExpected = true := by
  obtain ⟨text, htext⟩ := Option.ne_none_iff_exists'.1 fun hno => textOf?_eq_none_iff.1 hno hb
  simp only [loadSettings, h.isThere, h.open?, Except.mapError, Except.bind, bind, htext] at he
  have he : Settings.ofDocument (.ofText text) = .error e := he
  cases hdocument : Settings.Document.ofText text with
  | fields fields =>
    rw [hdocument, Settings.ofDocument] at he
    rcases hfields : Settings.ofFields fields with complaints | settings
    · rw [hfields] at he
      obtain rfl := Except.error.inj he
      rfl
    · rw [hfields] at he
      cases he
  | other =>
    rw [hdocument] at he
    obtain rfl := Except.error.inj he
    rfl
  | malformed =>
    rw [hdocument] at he
    obtain rfl := Except.error.inj he
    rfl

/-- A parameter that is accepted names a file. -/
theorem holds_of_checkFile (h : s.checkFile parameter path = .ok ()) : ∃ bytes, s.Holds path bytes := by
  rw [checkFile] at h
  rcases hplace : s.lookUp path with ⟨location, bytes⟩ | _ | _ | _ | _ <;> rw [hplace] at h
  · exact ⟨bytes, location, lookUp_normalPath hplace⟩
  all_goals cases h

end Store

/-! ### Commands -/

/-- The error is that a file holds no text. -/
def CommandError.IsLackOfText : CommandError → Prop
  | settings _ .undecodable | load .undecodable => True
  | _ => False

namespace Command

variable {c : Command} {s : Store} {d : Description} {e : CommandError}

/-- The files that the command names are there. -/
structure HasFiles (c : Command) (s : Store) : Prop where
  /-- The description file is there. -/
  description : ∃ bytes, s.Holds c.path bytes
  /-- The settings file is there, if there is to be one. -/
  settings : ∀ path, c.settingsPath = some path → ∃ bytes, s.Holds path bytes

/-- A file that the command reads holds no text.  The description file is read when there are
settings. -/
def LacksText (c : Command) (s : Store) : Prop :=
  (∃ path, c.settingsPath = some path ∧ s.HoldsNoText path) ∨
    (∃ settings, c.settings s = .ok settings) ∧ s.HoldsNoText c.path

theorem settings_of_some {path : String} (h : c.settingsPath = some path) :
    c.settings s = (s.loadSettings path).mapError (.settings path) := by
  rw [settings, h]

theorem description_of_error (h : c.settings s = .error e) : c.description s = .error e := by
  rw [description, h]
  rfl

theorem description_of_ok {settings : Settings} (h : c.settings s = .ok settings) :
    c.description s = (s.load c.kind c.path settings).mapError .load := by
  rw [description, h]
  rfl

/-- Without a text there is no description, and the error is not expected. -/
theorem description_of_lacksText (h : c.LacksText s) :
    ∃ e : CommandError, e.IsLackOfText ∧ e.isExpected = false ∧ c.description s = .error e := by
  obtain ⟨path, hpath, hno⟩ | ⟨⟨settings, hsettings⟩, hno⟩ := h
  · refine ⟨.settings path .undecodable, trivial, rfl, description_of_error ?_⟩
    rw [settings_of_some hpath, Store.loadSettings_of_holdsNoText hno]
    rfl
  · refine ⟨.load .undecodable, trivial, rfl, ?_⟩
    rw [description_of_ok hsettings, Store.load_of_holdsNoText _ _ hno]
    rfl

/-- Where no text is lacking, settings are found or the error is expected. -/
theorem isExpected_of_settings (hfiles : c.HasFiles s) (h : ¬c.LacksText s)
    (he : c.settings s = .error e) : e.isExpected = true := by
  rcases hpath : c.settingsPath with _ | path
  · rw [settings, hpath] at he
    cases he
  obtain ⟨bytes, hbytes⟩ := hfiles.settings path hpath
  have hb := hbytes.isValidUTF8_iff.2 fun hno => h (.inl ⟨path, hpath, hno⟩)
  rw [settings_of_some hpath] at he
  obtain ⟨e', hload, rfl⟩ := exists_of_mapError_eq_error he
  exact s.isExpected_of_loadSettings hbytes hb hload

/-- Where no text is lacking, a description is found or the error is expected. -/
theorem isExpected_of_description (hfiles : c.HasFiles s) (h : ¬c.LacksText s)
    (he : c.description s = .error e) : e.isExpected = true := by
  -- the settings file is read first: without settings, the description file may hold anything
  rcases hsettings : c.settings s with e' | settings
  · obtain rfl := Except.error.inj ((description_of_error hsettings).symm.trans he)
    exact isExpected_of_settings hfiles h hsettings
  obtain ⟨bytes, hbytes⟩ := hfiles.description
  have hb := hbytes.isValidUTF8_iff.2 fun hno => h (.inr ⟨⟨settings, hsettings⟩, hno⟩)
  rw [description_of_ok hsettings] at he
  obtain ⟨e', he', rfl⟩ := exists_of_mapError_eq_error he
  obtain ⟨d, hd⟩ | ⟨text, failure, hload⟩ := Store.load_cases c.kind settings hbytes hb
  · cases hd.symm.trans he'
  · obtain rfl := Except.error.inj (hload.symm.trans he')
    rfl

/-- A description was loaded. -/
theorem load_of_description (h : c.description s = .ok d) :
    ∃ settings, s.load c.kind c.path settings = .ok d := by
  obtain ⟨settings, -, h⟩ := exists_of_bind_eq_ok h
  exact ⟨settings, eq_ok_of_mapError h⟩

/-- **A report holds all that was asked for**: it begins with the summary, the outline follows
somewhere, and the canonical form, which what was loaded always has, ends it. -/
theorem report_of_load {kind : Description.Kind} {path : String} {settings : Settings}
    (h : s.load kind path settings = .ok d) (c : Command) :
    ∃ lines text, c.report d = .ended 0 lines ∧ (toNode d).render = .ok text ∧
      d.summary.lines <+: lines ∧
      (c.showsOutline = true → ((toNode d).outline none).lines <:+: lines) ∧
      (c.showsRendering = true → text.splitOn "\n" <:+ lines) := by
  obtain ⟨text, htext, -⟩ := Store.loads_of_load h
  have hsummary : d.summary.lines <+: c.overview d :=
    (List.prefix_append _ _).trans (List.prefix_append _ _)
  have houtline : c.showsOutline = true → ((toNode d).outline none).lines <:+ c.overview d := by
    intro ho
    simp only [overview, ho, if_true]
    exact List.suffix_append _ _
  cases hr : c.showsRendering with
  | true =>
    refine ⟨c.overview d ++ text.splitOn "\n", text, ?_, htext, hsummary.trans
      (List.prefix_append _ _), fun ho => ?_, fun _ => List.suffix_append _ _⟩
    · simp only [report, hr, if_true, htext]
    · exact (houtline ho).isInfix.trans (List.prefix_append _ _).isInfix
  | false =>
    refine ⟨c.overview d, text, ?_, htext, hsummary, fun ho => (houtline ho).isInfix, nofun⟩
    rw [report, hr]
    rfl

/-- **How a command ends whose files are there**: where it lacks a text, that error escapes, and nothing
is printed; otherwise it says why there is no description and fails, or it begins with the summary of
the description and succeeds. -/
theorem run_ends (hfiles : c.HasFiles s) :
    (c.LacksText s → ∃ e : CommandError, e.IsLackOfText ∧ c.run s = .escaped [] e) ∧
      (¬c.LacksText s →
        (∃ e, c.description s = .error e ∧ c.run s = c.failed e.message) ∨
          ∃ d lines, c.description s = .ok d ∧ c.run s = .ended 0 lines ∧
            d.summary.lines <+: lines) := by
  refine ⟨fun h => ?_, fun h => ?_⟩
  · obtain ⟨e, hlack, hexpected, he⟩ := description_of_lacksText h
    refine ⟨e, hlack, ?_⟩
    rw [run, he]
    exact if_neg (by simp [hexpected])
  · rcases hdescription : c.description s with e | d
    · refine .inl ⟨e, rfl, ?_⟩
      rw [run, hdescription]
      exact if_pos (isExpected_of_description hfiles h hdescription)
    · obtain ⟨settings, hload⟩ := load_of_description hdescription
      obtain ⟨lines, _, hlines, -, hsummary, -⟩ := report_of_load hload c
      exact .inr ⟨d, lines, rfl, by rw [run, hdescription]; exact hlines, hsummary⟩

/-- What is to be shown changes nothing about success. -/
theorem status_run_with (c : Command) (s : Store) (outline rendering : Bool) :
    ({ c with showsOutline := outline, showsRendering := rendering }.run s).status =
      (c.run s).status := by
  have hsame : { c with showsOutline := outline, showsRendering := rendering }.description s =
      c.description s := rfl
  rw [run, run, hsame]
  rcases hdescription : c.description s with e | d
  · cases e.isExpected <;> rfl
  · obtain ⟨settings, hload⟩ := load_of_description hdescription
    obtain ⟨lines, _, hlines, -⟩ := report_of_load hload c
    obtain ⟨lines', _, hlines', -⟩ :=
      report_of_load hload { c with showsOutline := outline, showsRendering := rendering }
    simp only [hlines, hlines', Outcome.status]

end Command

/-! ### Arguments -/

variable {s : Store} {c : Command} {arguments : List String}

theorem Store.holds_of_checkSettings {settingsPath : Option String}
    (h : s.checkSettings settingsPath = .ok ()) {path : String} (hpath : settingsPath = some path) :
    ∃ bytes, s.Holds path bytes := by
  subst hpath
  exact Store.holds_of_checkFile h

theorem Store.holds_of_checkWords {words : List String} {path : String}
    (h : s.checkWords words = .ok path) : ∃ bytes, s.Holds path bytes := by
  rcases words with _ | ⟨first, further⟩
  · cases h
  obtain ⟨_, hfirst, h⟩ := exists_of_bind_eq_ok h
  split at h
  · obtain rfl := Except.ok.inj h
    exact Store.holds_of_checkFile hfirst
  · cases h

/-- The files that an accepted command names are there. -/
theorem Command.hasFiles_of_ofArguments {kind : Description.Kind} {given : Arguments}
    (h : Command.ofArguments s kind given = .ok c) : c.HasFiles s := by
  obtain ⟨_, hsettings, h⟩ := exists_of_bind_eq_ok h
  obtain ⟨path, hwords, h⟩ := exists_of_bind_eq_ok h
  obtain rfl := Except.ok.inj h
  exact ⟨Store.holds_of_checkWords hwords, fun _ => Store.holds_of_checkSettings hsettings⟩

theorem Request.ofUnknown_ne_command {word : String} {rest : List String} :
    Request.ofUnknown word rest ≠ .ok (.command c) := by
  intro h
  obtain ⟨given, -, h⟩ := exists_of_bind_eq_ok h
  split at h <;> cases h

theorem Request.hasFiles_of_ofArguments (h : Request.ofArguments s arguments = .ok (.command c)) :
    c.HasFiles s := by
  unfold Request.ofArguments at h
  split at h
  · cases h
  obtain ⟨outer, -, h⟩ := exists_of_bind_eq_ok h
  split at h
  · cases h
  split at h
  · cases h
  split at h
  · exact absurd h Request.ofUnknown_ne_command
  obtain ⟨given, -, h⟩ := exists_of_bind_eq_ok h
  split at h
  · cases h
  obtain ⟨command, hcommand, h⟩ := exists_of_bind_eq_ok h
  obtain rfl := Request.command.inj (Except.ok.inj h)
  exact Command.hasFiles_of_ofArguments hcommand

namespace Store

theorem execute_of_command (h : Request.ofArguments s arguments = .ok (.command c)) :
    s.execute arguments = c.run s := by
  rw [execute, h]

/-- Nothing else than lack of a text makes an error escape. -/
theorem execute_escapes_iff :
    (∃ lines e, s.execute arguments = .escaped lines e) ↔
      ∃ c, Request.ofArguments s arguments = .ok (.command c) ∧ c.LacksText s := by
  constructor
  · rintro ⟨lines, e, h⟩
    rcases hrequest : Request.ofArguments s arguments with _ | _ | _ | c
    · rw [execute, hrequest] at h
      cases h
    · rw [execute, hrequest] at h
      cases h
    · rw [execute, hrequest] at h
      cases h
    · refine ⟨c, rfl, by_contra fun hno => ?_⟩
      rw [execute_of_command hrequest] at h
      obtain ⟨_, -, hend⟩ | ⟨_, _, -, hend, -⟩ :=
        (Command.run_ends (Request.hasFiles_of_ofArguments hrequest)).2 hno
      · cases hend.symm.trans h
      · cases hend.symm.trans h
  · rintro ⟨c, hrequest, hlack⟩
    obtain ⟨e, -, he⟩ := (Command.run_ends (Request.hasFiles_of_ofArguments hrequest)).1 hlack
    exact ⟨[], e, (execute_of_command hrequest).trans he⟩

end Store

end Pddl
