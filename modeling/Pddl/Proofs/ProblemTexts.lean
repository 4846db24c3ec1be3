import Pddl.Proofs.Nesting
import Pddl.Proofs.TrajectoryTexts

/-!
# Problems are read back

A problem is written with a line for every section, and sections that hold nothing are left out.
What a text can hold comes back from there.

* `Problem.sections`, `Problem.IsRegular` : the written sections; a problem as a text can hold it.
* `Rule.Finds.problem` : every problem that is found is regular.
* `Rule.look_problem` : every regular problem is read back from its text.
* `Rule.parse_printed_problem` : **a problem that is parsed is parsed again from what is printed.**
-/

namespace Pddl

/-! ### Texts of sections -/

instance : Spelled InitialFact where
  spelling
    | .literal l => spelling l
    | .timed x l => oneLine "at" [spelling x, spelling l]
    | .numeric t x => oneLine "=" [spelling t, spelling x]
    | .object t n => oneLine "=" [spelling t, spelling n]
  render_toNode f := by
    cases f with
    | literal l => exact Spelled.render_toNode l
    | timed x l =>
      exact Node.render_plain (k := .timedLiteral) rfl
        (.cons (Spelled.render_toNode x) (.cons (Spelled.render_toNode l) .nil))
    | numeric t x =>
      exact Node.render_plain (k := .numericValue) rfl
        (.cons (Spelled.render_toNode t) (.cons (Spelled.render_toNode x) .nil))
    | object t n =>
      exact Node.render_plain (k := .objectValue) rfl
        (.cons (Spelled.render_toNode t) (.cons (Spelled.render_toNode n) .nil))

instance : Spelled Metric where
  spelling m := oneLine ":metric" [spelling m.optimization, spelling m.expression]
  render_toNode m :=
    Node.render_plain (k := .metric) rfl
      (.cons (Spelled.render_toNode m.optimization)
        (.cons (Spelled.render_toNode m.expression) .nil))

/-- A bound on the number of steps, if there is one. -/
def boundText (keyword : String) (n? : Option Nat) : Option (List Char) :=
  n?.map fun n => oneLine keyword [Nat.toDigits 10 n]

instance : Spelled LengthBounds where
  spelling l :=
    oneLine ":length" ((boundText ":serial" l.serial).toList ++
      (boundText ":parallel" l.parallel).toList)
  render_toNode l := by
    have h := Node.render_form (k := .length) (f := [toNode l.serial, toNode l.parallel]) rfl
      (.cons (words_option rfl) (.cons (words_option rfl) .nil))
    rw [List.flatten_cons, List.flatten_singleton] at h
    exact h

namespace Problem

/-- The declared requirement flags, if there are any. -/
def requirementsText (p : Problem) : Option (List Char) :=
  if p.requirements.declared = [] then none
  else some (oneLine ":requirements" (p.requirements.declared.map spelling))

/-- The objects, if there are any. -/
def objectsText (p : Problem) : Option (List Char) :=
  if p.objects.items = [] then none
  else some (oneLine ":objects" (itemParts .object p.objects))

/-- The constraints, unless they are an empty conjunction. -/
def constraintsText (p : Problem) : Option (List Char) :=
  match p.constraints with
  | .conj [] => none
  | c => some (oneLine ":constraints" [spelling c])

/-- The sections that are written. -/
def sections (p : Problem) : List (List Char) :=
  oneLine "problem" [spelling p.name] :: oneLine ":domain" [spelling p.domain] ::
    (p.requirementsText.toList ++ (p.objectsText.toList ++
      (oneLine ":init" (p.init.map spelling) :: oneLine ":goal" [spelling p.goal] ::
        (p.constraintsText.toList ++
          ((p.metric.map spelling).toList ++ (p.length.map spelling).toList)))))

end Problem

/-- Only an empty conjunction of constraints has its node. -/
theorem PreferredConstraint.same_nothing (c : PreferredConstraint) :
    (toNode c).same (.form .preferenceAnd [.nothing]) = true ↔ c = .conj [] := by
  cases c with
  | required c =>
    cases c <;> simp [toNode, ToNode.toNode, PreferredConstraint.toNode, Constraint.toNode,
      Node.same]
  | conj cs =>
    cases cs <;> simp [toNode, ToNode.toNode, PreferredConstraint.toNode,
      PreferredConstraint.toNodes, Node.same, Node.allSame, Node.nothing]
  | universal vs c => simp [toNode, ToNode.toNode, PreferredConstraint.toNode, Node.same]
  | preferred n c => simp [toNode, ToNode.toNode, PreferredConstraint.toNode, Node.same]

/-- Only requirements without flags have their node. -/
theorem Requirements.same_nothing (rs : Requirements) :
    (toNode rs).same (.form .requirements [.nothing]) = true ↔ rs.declared = [] := by
  obtain ⟨declared, h⟩ := rs
  cases declared <;> simp [toNode, ToNode.toNode, Node.same, Node.allSame, Node.nothing]

namespace Problem

variable (p : Problem)

/-- The fields of a problem as nodes. -/
def fields : List Node :=
  [toNode p.name, toNode p.domain, toNode p.requirements, toNode p.objects, toNode p.init,
    toNode p.goal, toNode p.constraints, toNode p.metric, toNode p.length]

theorem gives_requirements :
    (Line.bare (.unlessSame 2 (.form .requirements [.nothing]))).Gives
      (p.fields.map Node.rendering) p.requirementsText.toList := by
  have hrender : (toNode p.requirements).render =
      .ok (String.ofList (oneLine ":requirements" (p.requirements.declared.map spelling))) :=
    Node.render_members (k := .requirements) rfl (forall₂_render p.requirements.declared)
  have h := Line.gives_bare (words_unlessSame (f := p.fields) (i := 2)
    (m := .form .requirements [.nothing]) rfl hrender)
  simp only [Requirements.same_nothing] at h
  rw [requirementsText]
  split at h <;> rename_i hd
  · rwa [if_pos hd]
  · rwa [if_neg hd]

theorem gives_objects :
    (Line.form ":objects" (.items 3 .rootType)).Gives
      (p.fields.map Node.rendering) p.objectsText.toList := by
  have h := Line.gives_form ":objects"
    (words_items .object (f := p.fields) (i := 3) (l := p.objects) rfl)
  rw [objectsText]
  by_cases hd : p.objects.items = []
  · rw [if_pos hd, if_pos rfl] at h
    rwa [if_pos hd]
  · rw [if_neg hd, if_neg (by simp)] at h
    rw [if_neg hd, Option.toList_some, oneLine, enclose, ← spread_intercalate (itemParts_ne_nil hd)]
    exact h

theorem gives_constraints :
    (Line.form ":constraints" (.unlessSame 6 (.form .preferenceAnd [.nothing]))).Gives
      (p.fields.map Node.rendering) p.constraintsText.toList := by
  have h := Line.gives_form ":constraints" (words_unlessSame (f := p.fields) (i := 6)
    (m := .form .preferenceAnd [.nothing]) rfl (Spelled.render_toNode p.constraints))
  by_cases hd : p.constraints = .conj []
  · rw [if_pos ((PreferredConstraint.same_nothing _).2 hd), if_pos rfl] at h
    rwa [constraintsText, hd]
  · rw [if_neg fun hs => hd ((PreferredConstraint.same_nothing _).1 hs), if_neg (by simp)] at h
    have htext : p.constraintsText = some (oneLine ":constraints" [spelling p.constraints]) := by
      rw [constraintsText]
      split
      · exact absurd ‹_› hd
      · rfl
    rwa [htext]

/-- A part of a problem that is written as it is, if it is there. -/
theorem gives_given {α : Type} [ToNode α] [Spelled α] {i : Nat} (a? : Option α)
    (hi : p.fields[i]? = some (toNode a?)) (hne : ∀ a : α, toNode a ≠ .absent) :
    (Line.bare (.given i)).Gives (p.fields.map Node.rendering) (a?.map spelling).toList := by
  have h := Line.gives_bare (words_given hi hne)
  rwa [← Option.toList_map] at h

theorem render_toNode :
    (toNode p).render = .ok (String.ofList (enclose lineGap "define" p.sections)) := by
  have hname : (Line.form "problem" (.leaf 0)).Gives (p.fields.map Node.rendering)
      [oneLine "problem" [spelling p.name]] := Line.gives_form _ (words_leaf rfl)
  have hdomain : (Line.form ":domain" (.leaf 1)).Gives (p.fields.map Node.rendering)
      [oneLine ":domain" [spelling p.domain]] := Line.gives_form _ (words_leaf rfl)
  have hinit : (Line.always ":init" (.members 4)).Gives (p.fields.map Node.rendering)
      [oneLine ":init" (p.init.map spelling)] := Line.gives_always (words_members_toNode rfl)
  have hgoal : (Line.always ":goal" (.field 5)).Gives (p.fields.map Node.rendering)
      [oneLine ":goal" [spelling p.goal]] := Line.gives_always (words_field_toNode rfl)
  have h := Node.render_block (k := .problem) (f := p.fields) rfl
    (.cons hname (.cons hdomain (.cons p.gives_requirements (.cons p.gives_objects
      (.cons hinit (.cons hgoal (.cons p.gives_constraints
        (.cons (p.gives_given p.metric rfl nofun)
          (.cons (p.gives_given p.length rfl nofun) .nil))))))))) (by simp)
  rw [List.flatten_cons, List.flatten_cons, List.flatten_cons, List.flatten_cons, List.flatten_cons,
    List.flatten_cons, List.flatten_cons, List.flatten_cons, List.flatten_singleton] at h
  exact h

instance : Spelled Problem := ⟨fun p => enclose lineGap "define" p.sections, render_toNode⟩

end Problem

/-! ### Problems that are found -/

/-- An element of the initial state as a text can hold it: numbers have no sign. -/
def InitialFact.IsRegular : InitialFact → Prop
  | timed x _ => x.negative = false
  | numeric _ x => x.negative = false
  | _ => True

/-- A problem as a text can hold it. -/
structure Problem.IsRegular (p : Problem) : Prop where
  objects : p.objects.IsWritable
  init : ∀ f ∈ p.init, f.IsRegular
  goal : p.goal.IsRegular
  constraints : p.constraints.IsRegular
  metric : ∀ m ∈ p.metric, m.expression.IsRegular

namespace Rule

open Grammar

theorem Finds.initialFact {text : List Char} {levels : Nat} {f : InitialFact}
    (h : Finds Rule.initialFact text levels f) : f.IsRegular := by
  rcases h.orElse with h | h
  · obtain ⟨l, -, rfl⟩ := h.map
    exact trivial
  rcases h.orElse with h | h
  · obtain ⟨⟨x, l⟩, hxl, rfl⟩ := h.map
    exact hxl.form.pair.1.number
  rcases h.orElse with h | h
  · obtain ⟨⟨t, x⟩, htx, rfl⟩ := h.map
    exact htx.form.pair.2.number
  · obtain ⟨⟨t, n⟩, -, rfl⟩ := h.map
    exact trivial

/-- **Every problem that is found is regular.** -/
theorem Finds.problem {text : List Char} (htext : IsPlainlySpaced text) {levels : Nat} {p : Problem}
    (h : Finds Rule.problem text levels p) : p.IsRegular := by
  obtain ⟨⟨name, domain, requirements, objects, init, goal, constraints, metric, length⟩,
    hsections, rfl⟩ := h.map
  obtain ⟨-, h⟩ := hsections.padded.form.pair
  obtain ⟨-, h⟩ := h.pair
  obtain ⟨-, h⟩ := h.seq
  obtain ⟨hobjects, h⟩ := h.seq
  obtain ⟨hinit, h⟩ := h.seq
  obtain ⟨hgoal, h⟩ := h.seq
  obtain ⟨hconstraints, h⟩ := h.seq
  obtain ⟨hmetric, -⟩ := h.seq
  refine ⟨?_, fun f hf => (hinit.separated.form.many f hf).initialFact,
    hgoal.separated.form.preconditions, ?_, ?_⟩
  · cases objects with
    | none => simp [TypedList.IsWritable]
    | some l => exact (Finds.itemsOf (d := .object) trivial (hobjects.optional l rfl).form).1
  · cases constraints with
    | none => exact .conj (by simp)
    | some c => exact (hconstraints.optional c rfl).form.preferredConstraint htext
  · rintro m rfl
    obtain ⟨⟨o, e⟩, hm, rfl⟩ := (hmetric.optional m rfl).map
    exact hm.form.pair.2.metricExpression

/-! ### Reading facts -/

theorem recovers_requirement (r : Requirement) : Recovers requirement (spelling r) (· = r) := by
  have hflag : ∃ name, (Vocabulary.keyword r).toList = ':' :: name ∧ isName name = true := by
    cases r <;> exact ⟨_, rfl, by decide⟩
  obtain ⟨name, hname, hvalid⟩ := hflag
  have hspelling : spelling r = ':' :: name := hname
  rw [hspelling]
  refine Recovers.refine (P := (· = Vocabulary.keyword r))
    ⟨⟨_, _, rfl, by decide, by decide, by decide⟩, fun {s} hs => ?_⟩ ?_
  · have hlexeme : Terminal.flagLexeme? (':' :: (name ++ s)) =
        some ((':' :: name).length, Vocabulary.keyword r) := by
      have h := nameLexeme?_written hvalid hs.any_isNameChar
      have hk : String.ofList (':' :: name) = Vocabulary.keyword r := by
        rw [← hname, String.ofList_toList]
      simp [Terminal.flagLexeme?, Token.lexeme?, markedLexeme?, h, hk]
    exact reads_terminal fun _ => hlexeme
  · rintro _ rfl
    exact ⟨r, by cases r <;> rfl, rfl⟩

theorem misses_close_name (r : List Char) : Misses (symbol .name) (')' :: r) :=
  misses_close_symbol rfl

/-- Behind a name, names are no negated formula. -/
theorem missesText_not_names {p : Predicate} {ns : List Name} :
    MissesText (form "not" (atomicFormulaOf (symbol .name)))
      (oneLine p.text (ns.map spelling)) := by
  have hfits : Fits (atomicFormulaOf (symbol .name)) [' '] (ns.map spelling) False := by
    rcases ns with _ | ⟨n, ns⟩
    · exact .inr (stallsAt_nil isGap_blank fun _ => misses_close rfl)
    · exact .inr (stallsAt_of_missesText isGap_blank (recovers_symbol n).solid
        (missesText_of_not_isApplied (t := .name n) rfl id) _)
  exact (decides_form_of_isName (by decide) p.valid fun _ => hfits).missesText id

/-- Every literal over names is read back. -/
theorem recovers_groundLiteral (l : Literal Name) :
    Recovers groundLiteral (spelling l) (· = l) := by
  obtain ⟨f, negated⟩ := l
  have hf := recovers_atomicFormulaOf recovers_symbol misses_close_name f
  cases negated with
  | true => exact .left ((recovers_form isHead_not (.one isGap_blank hf)).congr _)
  | false =>
    cases f with
    | equality l r => exact .behindForm isHead_equality (by decide) (hf.congr _)
    | predicate p ns =>
      have htext : spelling (⟨.predicate p ns, false⟩ : Literal Name) =
          oneLine p.text (ns.map spelling) := AtomicFormula.spelling_predicate p ns
      rw [htext]
      exact .behind missesText_not_names.map (htext ▸ hf.congr _)

/-- The value of a fluent is no literal, because the fluent is written in parentheses. -/
theorem missesText_groundLiteral_value (t : GroundTerm) (s : List Char) :
    MissesText groundLiteral (oneLine "=" [spelling t, s]) := by
  have hname : MissesText (symbol .name) (spelling t) := misses_symbol_oneLine rfl _
  have hpair : StallsAt (pair (symbol .name) (symbol .name)) [' '] [spelling t, s] :=
    stallsAt_of_missesText isGap_blank (recovers_groundTerm t).solid
      (fun r hr => (hname r hr).pair) [s]
  exact .orElse (missesText_form (by decide) isHead_equality.solid (by decide) _).map
    (.map (.orElse (missesText_form_of_stallsAt isHead_equality hpair).map
      (missesText_headed_of_operator rfl isHead_equality.solid (by decide) _).map))

/-- A literal with its time is no literal, because the time is no name. -/
theorem missesText_groundLiteral_timed {x : Number} (hx : x.negative = false) (s : List Char) :
    MissesText groundLiteral (oneLine "at" [spelling x, s]) := by
  have hname : MissesText (symbol .name) (spelling x) := by
    intro r _
    obtain ⟨c, hc, hdigit⟩ := head?_number hx r
    exact misses_symbol rfl (by rw [hc]; exact isNameStart_of_isDigit hdigit)
  have hmany : StallsAt (many (symbol .name)) [' '] [spelling x, s] :=
    stallsAt_many_of_missesText isGap_blank (recovers_number hx).solid hname [s]
  exact .orElse (missesText_form_of_isName (by decide) (by decide) (by decide) _).map
    (.map (.orElse (missesText_equality (by decide)).map
      (missesText_headed_of_stallsAt (recovers_symbol_of_isName .predicate rfl (by decide)) hmany).map))

/-- Names are no numbers. -/
theorem missesText_number_name (n : Name) : MissesText number (spelling n) := by
  intro r _
  obtain ⟨c, hc, hs⟩ := head?_written rfl n r
  refine misses_number ?_
  rw [show spelling n ++ r = n.written.toList ++ r from rfl, hc]
  exact isDigit_eq_false_of_isNameStart hs

/-- **Every regular element of the initial state is read back.** -/
theorem recovers_initialFact {f : InitialFact} (hf : f.IsRegular) :
    Recovers initialFact (spelling f) (· = f) := by
  have hat : IsHead "at" := isHead_of_isWord (by decide)
  cases f with
  | literal l => exact .left ((recovers_groundLiteral l).congr _)
  | timed x l =>
    exact .behind (missesText_groundLiteral_timed hf _).map
      (.left ((recovers_form hat
        (.pair_eq (recovers_number hf) (.one isGap_blank (recovers_groundLiteral l)))).congr _))
  | numeric t x =>
    exact .behind (missesText_groundLiteral_value t _).map
      (.behindForm isHead_equality (by decide) (.left ((recovers_form isHead_equality
        (.pair_eq (recovers_groundTerm t) (.one isGap_blank (recovers_number hf)))).congr _)))
  | object t n =>
    have hnumber : StallsAt (pair groundTerm number) [' '] [spelling t, spelling n] :=
      stallsAt_pair ((recovers_groundTerm t).decides trivial)
        (stallsAt_of_missesText isGap_blank (recovers_symbol n).solid (missesText_number_name n) [])
    exact .behind (missesText_groundLiteral_value t _).map
      (.behindForm isHead_equality (by decide)
        (.behind (missesText_form_of_stallsAt isHead_equality hnumber).map
          ((recovers_form isHead_equality
            (.pair_eq (recovers_groundTerm t) (.one isGap_blank (recovers_symbol n)))).congr _)))

/-! ### Reading sections -/

section

variable {p : Problem}

/-- What is written where it is there is read back where it is there. -/
theorem recovers_of_mem_map {α : Type} [ToNode α] [Spelled α] {g : Rule α} {a? : Option α}
    (hg : ∀ a ∈ a?, g.Recovers (spelling a) (· = a)) :
    ∀ s ∈ a?.map spelling, g.Recovers s fun a => some a = a? := by
  rintro s hs
  obtain ⟨a, rfl, rfl⟩ := Option.map_eq_some_iff.1 hs
  exact (hg a rfl).mono fun _ h => congrArg some h

theorem recovers_requirements (rs : Requirements) (h : rs.declared ≠ []) :
    Recovers requirements (oneLine ":requirements" (rs.declared.map spelling)) (· = rs) := by
  have hclose : ∀ s, Misses requirement (')' :: s) := fun _ =>
    .refine (misses_terminal fun _ => by
      simp [Terminal.lexeme?, Terminal.flagLexeme?, Token.lexeme?, markedLexeme?])
  have hflags := readsParts_many1_eq (g := requirement) isGap_blank (l := rs.declared)
    (fun r _ => recovers_requirement r) h hclose
  exact (recovers_form (isHead_of_isWord (by decide)) hflags).map fun a h => by
    rw [h, Requirements.ofList_declared]

theorem recovers_objects {l : TypedList Name} (hl : l.IsWritable) :
    Recovers objects (oneLine ":objects" (itemParts .object l)) (· = l) :=
  recovers_form (isHead_of_isWord (by decide)) (readsParts_itemsOf
    (fun a _ => takes_symbol a.value) hl (misses_symbol_of_not_begins rfl))

theorem recovers_init {fs : List InitialFact} (h : ∀ f ∈ fs, f.IsRegular) :
    Recovers init (oneLine ":init" (fs.map spelling)) (· = fs) :=
  recovers_form (isHead_of_isWord (by decide))
    (readsParts_many_eq isGap_blank (fun f hf => recovers_initialFact (h f hf)) fun _ =>
      misses_close rfl)

theorem recovers_goalSection {g : Preconditions} (h : g.IsRegular) :
    Recovers goalSection (oneLine ":goal" [spelling g]) (· = g) :=
  recovers_form (isHead_of_isWord (by decide)) (.one isGap_blank (recovers_preconditions h))

theorem recovers_problemConstraints {c : PreferredConstraint} (h : c.IsRegular) :
    Recovers problemConstraints (oneLine ":constraints" [spelling c]) (· = c) :=
  recovers_form (isHead_of_isWord (by decide)) (.one isGap_blank (recovers_preferredConstraint h))

theorem recovers_metric {m : Metric} (h : m.expression.IsRegular) :
    Recovers metric (spelling m) (· = m) :=
  (recovers_form (isHead_of_isWord (by decide)) (.pair_eq (recovers_keyword m.optimization)
    (.one isGap_blank (recovers_metricExpression h)))).congr _

/-- A bound on the number of steps is read back where it is there. -/
theorem recovers_bound {keyword : String} (hk : IsWord keyword) {n? : Option Nat} :
    ∀ s ∈ boundText keyword n?,
      Recovers (form keyword (terminal .integer)) s fun n => some n = n? := by
  rintro s hs
  obtain ⟨n, rfl, rfl⟩ := Option.map_eq_some_iff.1 hs
  exact (recovers_form (isHead_of_isWord hk) (.one isGap_blank (recovers_integer n))).mono
    fun _ h => congrArg some h

theorem recovers_length (l : LengthBounds) : Recovers length (spelling l) (· = l) := by
  have hparallel : ReadsSections (optional (form ":parallel" (terminal .integer))) [' ']
      (boundText ":parallel" l.parallel).toList (· = l.parallel) :=
    .given_last isGap_blank (recovers_bound (by decide)) fun h =>
      ⟨(Option.map_eq_none_iff.1 h).symm, fun _ => misses_close rfl⟩
  have hbegins : Begins [":parallel"] (boundText ":parallel" l.parallel).toList :=
    begins_map isGap_blank (fun _ => rfl) _
  have hserial : ReadsSections (seq (optional (form ":serial" (terminal .integer))) _) [' '] _ _ :=
    .given (O := (· = l.serial)) (recovers_bound (by decide)) (fun h =>
      ⟨(Option.map_eq_none_iff.1 h).symm,
        misses_form_of_begins (by decide) (by decide) hbegins⟩) hparallel
  refine (recovers_form_sections (isHead_of_isWord (by decide)) hserial).map ?_
  rintro ⟨s, q⟩ ⟨rfl, rfl⟩
  rfl

/-! ### Sections that are left out -/

theorem recovers_requirementsText :
    ∀ s ∈ p.requirementsText, Recovers requirements s (· = p.requirements) := by
  intro s hs
  rw [Problem.requirementsText] at hs
  split at hs
  · cases hs
  · obtain rfl := Option.some.inj hs
    exact recovers_requirements _ ‹_›

theorem requirements_of_text_eq_none (h : p.requirementsText = none) : .none = p.requirements := by
  rw [Problem.requirementsText] at h
  split at h
  · rename_i hd
    rw [← Requirements.ofList_declared p.requirements, hd]
    rfl
  · cases h

theorem recovers_objectsText (hp : p.IsRegular) :
    ∀ s ∈ p.objectsText, Recovers objects s (· = p.objects) := by
  intro s hs
  rw [Problem.objectsText] at hs
  split at hs
  · cases hs
  · obtain rfl := Option.some.inj hs
    exact recovers_objects hp.objects

theorem objects_of_text_eq_none (h : p.objectsText = none) : {} = p.objects := by
  rw [Problem.objectsText] at h
  split at h
  · rename_i hd
    rcases hl : p.objects with ⟨items⟩
    rw [hl] at hd
    rw [show items = [] from hd]
  · cases h

theorem recovers_constraintsText (hp : p.IsRegular) :
    ∀ s ∈ p.constraintsText, Recovers problemConstraints s (· = p.constraints) := by
  intro s hs
  rw [Problem.constraintsText] at hs
  split at hs
  · cases hs
  · obtain rfl := Option.some.inj hs
    exact recovers_problemConstraints hp.constraints

theorem constraints_of_text_eq_none (h : p.constraintsText = none) : .conj [] = p.constraints := by
  rw [Problem.constraintsText] at h
  split at h
  · exact Eq.symm ‹_›
  · cases h

/-- The sections behind the goal. -/
theorem begins_measures :
    Begins [":metric", ":length"]
        ((p.metric.map spelling).toList ++ (p.length.map spelling).toList) ∧
      Begins [":length"] (p.length.map spelling).toList := by
  have hmetric : Begins [":metric"] (p.metric.map spelling).toList :=
    begins_map isGap_blank (fun _ => rfl) _
  have hlength : Begins [":length"] (p.length.map spelling).toList :=
    begins_map isGap_blank (fun _ => rfl) _
  exact ⟨(hmetric.mono (by simp)).append (hlength.mono (by simp)), hlength⟩

/-- The sections behind the objects. -/
theorem begins_init (parts : List (List Char)) :
    Begins [":init"] (oneLine ":init" (p.init.map spelling) :: parts) :=
  begins_cons isGap_blank (by simp) _ _

/-- The sections behind the requirement flags. -/
theorem begins_facts (parts : List (List Char)) :
    Begins [":objects", ":init"]
      (p.objectsText.toList ++ oneLine ":init" (p.init.map spelling) :: parts) := by
  have hobjects : Begins [":objects"] p.objectsText.toList := by
    rw [Problem.objectsText]
    split
    · exact begins_nil _
    · exact begins_cons isGap_blank (by simp) _ _
  exact (hobjects.mono (by simp)).append ((begins_init parts).mono (by simp))

/-! ### Reading problems -/

/-- **Every regular problem is read back from its text**, with the blanks and comments behind it. -/
theorem look_problem (hp : p.IsRegular) {r : List Char} (hr : Delimited r) (levels : Nat)
    (b : Option Char) :
    (look levels problem ⟨b, spelling p ++ r⟩).Leaves (r.drop (blankLength false r)) (· = p) := by
  have hlength : ReadsSections (optional length) lineGap (p.length.map spelling).toList
      (· = p.length) :=
    .given_last isGap_lineGap (recovers_of_mem_map fun l _ => recovers_length l) fun h =>
      ⟨(Option.map_eq_none_iff.1 h).symm, fun _ => .map misses_close_parens⟩
  have hmetric : ReadsSections (seq (optional metric) _) lineGap _ _ :=
    .given (O := (· = p.metric)) (recovers_of_mem_map fun m hm => recovers_metric (hp.metric m hm))
      (fun h => ⟨(Option.map_eq_none_iff.1 h).symm,
        fun r => .map (misses_form_of_begins (by decide) (by decide) begins_measures.2 r)⟩) hlength
  have hconstraints : ReadsSections (seq (optional problemConstraints) _) lineGap _ _ :=
    .given (O := fun c? => c?.getD (.conj []) = p.constraints) (recovers_constraintsText hp)
      (fun h => ⟨constraints_of_text_eq_none h,
        misses_form_of_begins (by decide) (by decide) begins_measures.1⟩) hmetric
  have hfacts := ReadsSections.required (recovers_init hp.init)
    (.required (recovers_goalSection hp.goal) hconstraints)
  have hobjects : ReadsSections (seq (optional objects) _) lineGap _ _ :=
    .given (O := fun l? => l?.getD {} = p.objects) (recovers_objectsText hp)
      (fun h => ⟨objects_of_text_eq_none h,
        misses_form_of_begins (by decide) (by decide) (begins_init _)⟩) hfacts
  have hrequirements : ReadsSections (seq (optional requirements) _) lineGap _ _ :=
    .given (O := fun rs? => rs?.getD .none = p.requirements) recovers_requirementsText
      (fun h => ⟨requirements_of_text_eq_none h,
        fun r => .map (misses_form_of_begins (by decide) (by decide) (begins_facts _) r)⟩) hobjects
  have hname : Recovers (form "problem" (symbol .name)) (oneLine "problem" [spelling p.name])
      (· = p.name) :=
    recovers_form (isHead_of_isWord (by decide)) (.one isGap_blank (recovers_symbol p.name))
  have hdomain : Recovers (form ":domain" (symbol .name)) (oneLine ":domain" [spelling p.domain])
      (· = p.domain) :=
    recovers_form (isHead_of_isWord (by decide)) (.one isGap_blank (recovers_symbol p.domain))
  have hhead : IsHead "define" := isHead_of_isWord (by decide)
  have h := (recovers_form hhead (.pair hname (.sections hdomain hrequirements))).look_padded hr
    levels b
  rw [problem, look_map]
  refine Finding.Leaves.andThen h ?_
  rintro b' ⟨name, domain, rs, os, fs, g, c, m, l⟩ ⟨rfl, rfl, hrs, hos, rfl, rfl, hc, rfl, rfl⟩
  exact Finding.leaves_found (by simp only [hrs, hos, hc])

end

/-! ### Problems that are parsed -/

/-- What is read at the beginning of a text, unless it is too deep, is parsed there. -/
theorem parse_of_leaves {α : Type} {g : Rule α} (hg : g.Settled) {text : List Char} {ceiling : Nat}
    {r : List Char} {P : α → Prop} (h : (g.look ceiling ⟨none, text⟩).Leaves r P)
    (hdeep : ∀ limit offset,
      g.parse (Cursor.ofText text ceiling) ≠ .error (.tooDeep limit offset)) :
    ∃ d a, g.parse (Cursor.ofText text ceiling) = .ok (d, a) ∧ P a ∧ d.rest = r := by
  rcases (parse_agrees hg (calm_ofText text ceiling)).cases with ⟨e, he, ho⟩ | ⟨d, a, hd, -, ho⟩
  · obtain h | ⟨b, a, h, -⟩ := h
    · obtain ⟨limit, offset, rfl⟩ := Failure.exists_eq_tooDeep_of_finding (ho.symm.trans h)
      exact absurd he (hdeep limit offset)
    · exact absurd (ho.symm.trans h) (Failure.finding_ne_found e)
  · obtain h | ⟨b, a', h, ha⟩ := h
    · cases ho.symm.trans h
    · obtain ⟨hv, rfl⟩ := Finding.found.inj (ho.symm.trans h)
      exact ⟨d, a, hd, ha, congrArg View.rest hv⟩

/-- **A problem is read back from its printed text.**  Where a text is parsed as a problem, the
problem can be printed, and under every ceiling that is not too low what is printed is parsed to its
end as the same problem. -/
theorem parse_printed_problem {text : List Char} (htext : IsPlainlySpaced text) {ceiling : Nat}
    {c : Cursor} {p : Problem} (h : problem.parse (Cursor.ofText text ceiling) = .ok (c, p)) :
    ∃ printed : String, (toNode p).render = .ok printed ∧
      ∀ ceiling', (∀ limit offset, problem.parse (Cursor.ofText printed.toList ceiling') ≠
          .error (.tooDeep limit offset)) →
        ∃ d, problem.parse (Cursor.ofText printed.toList ceiling') = .ok (d, p) ∧ d.rest = [] := by
  have hfinds := finds_of_parse settled_problem (calm_ofText text ceiling) h
  have hp := hfinds.problem htext
  refine ⟨String.ofList (spelling p), Spelled.render_toNode p, fun ceiling' hdeep => ?_⟩
  rw [String.toList_ofList] at hdeep ⊢
  have hlook := look_problem hp .nil ceiling' none
  rw [List.append_nil] at hlook
  obtain ⟨d, q, hd, rfl, hrest⟩ := parse_of_leaves settled_problem hlook hdeep
  exact ⟨d, hd, hrest⟩

set_option maxRecDepth 20000 in
/-- With two levels for every character and two more, nothing is too deep. -/
theorem parse_printed_problem_conjunction :
    ∃ c p printed ceiling' d,
      problem.parse (Cursor.ofText
        "(define(problem p)(:domain d)(:init(= f b)(p))(:goal(and(p)(q)))(:constraints(and)))".toList
        40) = .ok (c, p) ∧ (toNode p).render = .ok printed ∧
      problem.parse (Cursor.ofText printed.toList ceiling') = .ok (d, p) ∧ d.rest = [] := by
  obtain ⟨c, p, hp, -⟩ := exists_of_parse_any (g := problem) (p := fun _ => true)
    (c := .ofText
      "(define(problem p)(:domain d)(:init(= f b)(p))(:goal(and(p)(q)))(:constraints(and)))".toList
      40) (by decide +kernel)
  obtain ⟨printed, hprinted, h⟩ := parse_printed_problem (by decide +kernel) hp
  have hceiling : 2 * nesting false printed.toList + 1 < 2 * printed.toList.length + 2 := by
    have := nesting_le_length false printed.toList
    omega
  obtain ⟨d, hd, hrest⟩ := h _ (parse_ne_tooDeep .problem hceiling)
  exact ⟨c, p, printed, _, d, hp, hprinted, hd, hrest⟩

end Rule

end Pddl
