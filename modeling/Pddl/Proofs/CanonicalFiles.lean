import Pddl.Loading
import Pddl.Proofs.CanonicalTexts
import Pddl.Proofs.CompleteInput
import Pddl.Proofs.Paths

/-!
# Canonical files

The canonical form of a description is written to a file all or nothing.

* `Rule.Accepts`, `Store.Loads` : a text is read to its end and a file is loaded, unless it is too deep.
* `Store.normalize_allOrNothing` : **a failure leaves the store as it was; otherwise the output file,
  and no other one, is the canonical form of the input, which is loaded again** under any settings
  whose ceiling is not too low.
-/

namespace Pddl

/-! ### Results -/

section Results

variable {ε ε' α β : Type} {x : Except ε α}

/-- What follows on something that went well. -/
theorem exists_of_bind_eq_ok {f : α → Except ε β} {b : β} (h : x >>= f = .ok b) :
    ∃ a, x = .ok a ∧ f a = .ok b := by
  cases x with
  | error e => cases h
  | ok a => exact ⟨a, rfl, h⟩

theorem exists_of_map_eq_ok {f : α → β} {b : β} (h : x.map f = .ok b) : ∃ a, x = .ok a ∧ f a = b := by
  cases x with
  | error e => cases h
  | ok a => exact ⟨a, rfl, Except.ok.inj h⟩

/-- Other errors make no difference to what went well. -/
theorem eq_ok_of_mapError {f : ε → ε'} {a : α} (h : x.mapError f = .ok a) : x = .ok a := by
  cases x with
  | error e => cases h
  | ok b => exact congrArg _ (Except.ok.inj h)

theorem exists_of_mapError_eq_error {f : ε → ε'} {e' : ε'} (h : x.mapError f = .error e') :
    ∃ e, x = .error e ∧ f e = e' := by
  cases x with
  | error e => exact ⟨e, rfl, Except.error.inj h⟩
  | ok b => cases h

end Results

/-! ### Texts of files -/

/-- Without carriage returns, lines end as they do. -/
theorem unifyLineEnds_of_not_mem {cs : List Char} (h : '\r' ∉ cs) : unifyLineEnds cs = cs := by
  induction cs with
  | nil => rfl
  | cons c cs ih =>
    obtain ⟨hc, hcs⟩ := not_or.1 (fun hmem => h (List.mem_cons.2 hmem))
    have hstep : unifyLineEnds (c :: cs) = c :: unifyLineEnds cs := by
      rw [unifyLineEnds]
      · rintro _ rfl -
        exact hc rfl
      · rintro rfl
        exact hc rfl
    rw [hstep, ih hcs]

theorem textOf?_toUTF8 {s : String} (h : '\r' ∉ s.toList) : textOf? s.toUTF8 = some s.toList := by
  have hbytes : String.fromUTF8? s.toUTF8 = some s := by
    have hvalid : s.toUTF8.IsValidUTF8 := s.isValidUTF8
    rw [String.fromUTF8?, dif_pos hvalid]
    rfl
  rw [textOf?, hbytes, Option.map_some, unifyLineEnds_of_not_mem h]

/-! ### Reading canonical texts -/

/-- The text is accepted: it is read to its end under all settings, unless it is too deep for their
ceiling, which is then at most twice the number of forms that are open at once, and one. -/
def Rule.Accepts {α : Type} (g : Rule α) (text : List Char) : Prop :=
  ∀ settings : Settings,
    (∃ c a, g.parse (Cursor.ofText text settings.ceiling) = .ok (c, a) ∧ c.rest = []) ∨
      settings.ceiling ≤ 2 * nesting false text + 1 ∧
        ∃ limit offset, g.read settings text = .error (.tooDeep limit offset)

/-- What is taken as a whole is accepted with a line feed behind it. -/
theorem Rule.RereadsWhole.accepts {α : Type} {g : Rule α} (hg : Named true g) {n : Node}
    (h : g.RereadsWhole n) :
    ∃ text : String, n.render = .ok text ∧ '\r' ∉ (text ++ "\n").toList ∧
      g.Accepts (text ++ "\n").toList := by
  obtain ⟨s, hs, hends, hlook⟩ := h
  have htext : (String.ofList s ++ "\n").toList = s ++ ['\n'] := by
    rw [String.toList_append, String.toList_ofList]
    rfl
  refine ⟨_, hs, by simp [htext, hends], fun settings => ?_⟩
  rw [htext]
  have hleaves := hlook (r := ['\n']) (.blank (by decide) []) settings.ceiling none
  -- only the ceiling can be in the way: all else was decided when the construct was found
  by_cases hdeep : ∃ limit offset,
      g.parse (Cursor.ofText (s ++ ['\n']) settings.ceiling) = .error (.tooDeep limit offset)
  · obtain ⟨limit, offset, hdeep⟩ := hdeep
    refine .inr ⟨?_, limit, offset, by rw [read, hdeep]⟩
    by_contra hceiling
    exact parse_ne_tooDeep hg (by omega) limit offset hdeep
  · obtain ⟨c, a, hc, -, hrest⟩ := parse_of_leaves (settled_of_named hg) hleaves
      fun limit offset h => hdeep ⟨limit, offset, h⟩
    exact .inl ⟨c, a, hc, hrest⟩

theorem Rule.Accepts.read {α : Type} {g : Rule α} {text : List Char} (h : g.Accepts text)
    (settings : Settings) : (∃ a, g.read settings text = .ok a) ∨
      settings.ceiling ≤ 2 * nesting false text + 1 ∧
        ∃ limit offset, g.read settings text = .error (.tooDeep limit offset) := by
  refine (h settings).imp_left ?_
  rintro ⟨c, a, hc, hrest⟩
  refine ⟨a, read_eq_ok_iff.2 ⟨c, hc, fun _ => ?_⟩⟩
  rw [Cursor.rest_skipBlanks, hrest]
  rfl

/-! ### Writing canonical files -/

namespace Store

variable {s s' : Store} {kind : Description.Kind} {location : Location} {path input : String}
  {d : Description}

/-- The text of the file that a path leads to. -/
theorem text_of_lookUp {bytes : ByteArray} {text : List Char}
    (h : s.lookUp (normalPath path) = .file location bytes) (ht : textOf? bytes = some text) :
    s.text path = .ok text := by
  have hopen : s.open? (normalPath path) = .ok bytes := by rw [open?, h]
  simp only [Store.text, h, hopen, Except.mapError, Except.bind, bind, ht]
  rfl

/-- What a rule loads was found in the text of a file. -/
theorem finds_of_load {α : Type} {g : Rule α} (hg : g.Settled) {settings : Settings} {a : α}
    (h : (do g.load settings (← s.text path)) = .ok a) :
    ∃ text levels, g.Finds text levels a := by
  obtain ⟨text, -, h⟩ := exists_of_bind_eq_ok h
  have hread : g.read settings text = .ok a := eq_ok_of_mapError h
  obtain ⟨c, hc, -⟩ := Rule.read_eq_ok_iff.1 hread
  exact ⟨_, _, Rule.finds_of_parse hg (Rule.calm_ofText _ _) hc⟩

/-- A file with a text that a rule accepts is loaded by the rule, unless the text is too deep. -/
theorem load_of_accepts {α : Type} {g : Rule α} {text : String} (hg : g.Accepts text.toList)
    (hends : '\r' ∉ text.toList) (h : s.lookUp (normalPath path) = .file location text.toUTF8)
    (settings : Settings) :
    (∃ a, (do g.load settings (← s.text path)) = .ok a) ∨
      settings.ceiling ≤ 2 * nesting false text.toList + 1 ∧ ∃ limit offset,
        (do g.load settings (← s.text path)) =
          .error (.unreadable text.toList (.tooDeep limit offset)) := by
  have hload : (do g.load settings (← s.text path)) =
      (g.read settings text.toList).mapError (LoadError.unreadable text.toList) := by
    rw [text_of_lookUp h (textOf?_toUTF8 hends)]
    rfl
  rw [hload]
  refine (hg.read settings).imp ?_ (And.imp_right ?_)
  · rintro ⟨a, ha⟩
    exact ⟨a, by rw [ha]; rfl⟩
  · rintro ⟨limit, offset, hdeep⟩
    exact ⟨limit, offset, by rw [hdeep]; rfl⟩

/-- The description in the file at a path, which holds the text, is loaded under all settings, unless
the text is too deep for their ceiling. -/
def Loads (s : Store) (kind : Description.Kind) (path text : String) : Prop :=
  ∀ settings : Settings,
    (∃ d, s.load kind path settings = .ok d) ∨
      settings.ceiling ≤ 2 * nesting false text.toList + 1 ∧ ∃ limit offset,
        s.load kind path settings = .error (.unreadable text.toList (.tooDeep limit offset))

/-- What is loaded by a rule that takes all it finds can be written, and is loaded from where it is
written. -/
theorem loads_of_rule {α : Type} [ToNode α] {g : Rule α} {describe : α → Description}
    (hload : ∀ (s : Store) path settings,
      s.load kind path settings = (do g.load settings (← s.text path)).map describe)
    (hnode : ∀ a, toNode (describe a) = toNode a) (hg : Rule.Named true g)
    (hrereads : ∀ {text levels a}, g.Finds text levels a → g.RereadsWhole (toNode a))
    {settings : Settings} (h : s.load kind input settings = .ok d) :
    ∃ text : String, (toNode d).render = .ok text ∧ ∀ {s' : Store} {location : Location} {path : String},
      s'.lookUp (normalPath path) = .file location (text ++ "\n").toUTF8 →
        s'.Loads kind path (text ++ "\n") := by
  rw [hload] at h
  obtain ⟨a, ha, rfl⟩ := exists_of_map_eq_ok h
  obtain ⟨_, _, hfinds⟩ := finds_of_load (Rule.settled_of_named hg) ha
  obtain ⟨text, hrender, hends, haccepts⟩ := (hrereads hfinds).accepts hg
  refine ⟨text, by rw [hnode, hrender], fun {s'} {location} {path} hfile settings' => ?_⟩
  rw [hload]
  refine (load_of_accepts haccepts hends hfile settings').imp ?_ (And.imp_right ?_)
  · rintro ⟨a, ha⟩
    exact ⟨describe a, by rw [ha]; rfl⟩
  · rintro ⟨limit, offset, hdeep⟩
    exact ⟨limit, offset, by rw [hdeep]; rfl⟩

/-- A description that was loaded can be written, and is loaded from where it is written. -/
theorem loads_of_load {settings : Settings} (h : s.load kind input settings = .ok d) :
    ∃ text : String, (toNode d).render = .ok text ∧ ∀ {s' : Store} {location : Location} {path : String},
      s'.lookUp (normalPath path) = .file location (text ++ "\n").toUTF8 →
        s'.Loads kind path (text ++ "\n") := by
  cases kind with
  | domain =>
    exact loads_of_rule (fun _ _ _ => rfl) (fun _ => rfl) .domain Rule.Finds.rereads_domain h
  | problem =>
    exact loads_of_rule (fun _ _ _ => rfl) (fun _ => rfl) .problem Rule.Finds.rereads_problem h

/-- Something is saved where there is a file or can be one, and nowhere else. -/
theorem save_cases (s : Store) (path : String) (bytes : ByteArray) :
    (∃ e, s.save path bytes = .error e) ∨
      ∃ location, (s.lookUp path).Takes location ∧ s.save path bytes = .ok (s.write location bytes) := by
  rw [save]
  cases s.lookUp path with
  | file location b => exact .inr ⟨location, .inl ⟨b, rfl⟩, rfl⟩
  | free location => exact .inr ⟨location, .inr rfl, rfl⟩
  | directory => exact .inl ⟨_, rfl⟩
  | blocked => exact .inl ⟨_, rfl⟩
  | nowhere => exact .inl ⟨_, rfl⟩

theorem Program.get_bind {ε α : Type} (k : Store → Program ε α) (s : Store) :
    (get >>= k) s = k s s := rfl

theorem Program.reads_bind {ε α β : Type} (f : Store → Except ε α) (k : α → Program ε β)
    (s : Store) :
    (Program.reads f >>= k) s =
      match f s with
      | .ok a => k a s
      | .error e => .error e s := by
  show EStateM.bind (Program.reads f) k s = _
  rw [EStateM.bind, Program.reads]
  rcases f s <;> rfl

theorem Program.saves_adapt {ε : Type} (f : AccessError → ε) (path : String) (bytes : ByteArray)
    (s : Store) :
    (EStateM.adaptExcept f (Program.saves path bytes) : Program ε Unit) s =
      match s.save path bytes with
      | .ok s' => .ok () s'
      | .error e => .error (f e) s := by
  rw [EStateM.adaptExcept, Program.saves]
  rcases s.save path bytes <;> rfl

/-- Before anything is saved, nothing changes; and nothing fails behind it. -/
theorem normalize_cases (kind : Description.Kind) (input output : String) (overwrite : Bool)
    (s : Store) :
    (∃ e, normalize kind input output overwrite s = .error e s) ∨
      ∃ d text s', s.load kind input .standard = .ok d ∧ (toNode d).render = .ok text ∧
        s.save (normalPath output) (text ++ "\n").toUTF8 = .ok s' ∧
          normalize kind input output overwrite s = .ok () s' := by
  simp only [normalize, Program.get_bind]
  split
  · exact .inl ⟨_, rfl⟩
  simp only [Program.reads_bind, Program.saves_adapt]
  rcases s.load kind input .standard with e | d
  · exact .inl ⟨_, rfl⟩
  simp only [Except.mapError]
  rcases hrender : (toNode d).render with e | text
  · exact .inl ⟨_, rfl⟩
  rcases hsave : s.save (normalPath output) (text ++ "\n").toUTF8 with e | s'
  · exact .inl ⟨.inaccessible e, by simp only [hsave]⟩
  · exact .inr ⟨d, text, s', rfl, hrender, hsave, by simp only [hsave]⟩

/-- **A description is written in its canonical form, or nothing is.**  Where it fails, for whatever
reason, the store is as it was.  Otherwise one file changes, the one that the output path leads to: it
holds the written form of the description in the input file and a line feed, and it is loaded under all
settings whose ceiling its nesting does not exceed.  At all other locations is what was there. -/
theorem normalize_allOrNothing (kind : Description.Kind) (input output : String) (overwrite : Bool)
    (s : Store) :
    (∃ e, normalize kind input output overwrite s = .error e s) ∨
      ∃ s' d text location,
        normalize kind input output overwrite s = .ok () s' ∧
          s.load kind input .standard = .ok d ∧ (toNode d).render = .ok text ∧
          (s.lookUp (normalPath output)).Takes location ∧
          s'.lookUp (normalPath output) = .file location (text ++ "\n").toUTF8 ∧
          s'.get? location = some (.file (text ++ "\n").toUTF8) ∧
          (∀ other, other ≠ location → s'.get? other = s.get? other) ∧
          s'.Loads kind output (text ++ "\n") := by
  obtain hfailed | ⟨d, text, s', hload, hrender, hsave, hdone⟩ :=
    normalize_cases kind input output overwrite s
  · exact .inl hfailed
  obtain ⟨e, he⟩ | ⟨location, hlocation, hwrite⟩ :=
    save_cases s (normalPath output) (text ++ "\n").toUTF8
  · cases hsave.symm.trans he
  obtain rfl := Except.ok.inj (hsave.symm.trans hwrite)
  -- that the file is loaded again is known of its text alone, whatever store holds it
  obtain ⟨text', hrender', hloads⟩ := loads_of_load hload
  obtain rfl := Except.ok.inj (hrender.symm.trans hrender')
  have hfile := lookUp_write (text ++ "\n").toUTF8 hlocation
  exact .inr ⟨_, d, text, location, hdone, hload, hrender, hlocation, hfile, get?_write_self _ _ _,
    fun other hne => get?_write_of_ne _ _ hne, hloads hfile⟩

end Store

end Pddl
