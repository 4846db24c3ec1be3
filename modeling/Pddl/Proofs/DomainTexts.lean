import Pddl.Proofs.CanonicalTexts
import Pddl.Proofs.DurativeTexts

/-!
# Domains are read back

A domain is written with a line for every section and a block for every definition, and what holds
nothing is left out.  Its definitions come back from there if the effects in them are distinct, and
everything else comes back anyhow.

* `Definition.IsDistinct` : the effects in the definition are written like no other effects.
* `Rule.ReadsLines` : a rule reads what the lines of a block contribute.
* `Line.Shows` : a line is written as one form of a rule, or left out, and read back either way.
* `Rule.Finds.recovers_definition` : definitions that are found and distinct are read back.
* `Rule.parse_printed_domain` : **a domain that is parsed is parsed again from what is printed**, if
  its effects are distinct.
-/

namespace Pddl

/-! ### Distinct definitions -/

/-- The effects in the definition are distinct. -/
def Definition.IsDistinct : Definition → Prop
  | action a => ∀ e ∈ a.effect, e.IsDistinct
  | durativeAction a => ∀ e ∈ a.effect, e.IsDistinct
  | derivedPredicate _ => True

/-- The effect changes nothing, on everything or under a condition. -/
def Effect.isIdle : Effect → Bool
  | primitive _ => false
  | universal _ es => es.isEmpty
  | conditional _ c => c.effects.isEmpty

theorem Effect.isDistinct_of_isIdle {e : Effect} (h : e.isIdle = true) : e.IsDistinct := by
  cases e with
  | primitive e => cases h
  | universal vs es =>
    obtain rfl := List.isEmpty_iff.1 h
    exact .universal nofun nofun
  | conditional g c =>
    have hc : c.effects = [] := List.isEmpty_iff.1 h
    exact .conditional ⟨by simp [hc], by simp [hc]⟩

/-- No action of the domain changes anything. -/
def Domain.isIdle (d : Domain) : Bool :=
  d.durativeActions.isEmpty &&
    d.actions.all fun a => a.effect.all fun es => es.effects.all Effect.isIdle

theorem Domain.isDistinct_of_isIdle {d : Domain} (h : d.isIdle = true) :
    ∀ e ∈ d.definitions, e.IsDistinct := by
  obtain ⟨hdurative, hactions⟩ := Bool.and_eq_true_iff.1 h
  intro e he
  cases e with
  | action a =>
    intro es hes
    have ha : a ∈ d.actions := List.mem_filterMap.2 ⟨_, he, rfl⟩
    have hidle := List.all_eq_true.1 hactions a ha
    rw [Option.mem_def.1 hes, Option.all_some, List.all_eq_true] at hidle
    refine ⟨fun e he => Effect.isDistinct_of_isIdle (hidle e he), fun e he => ?_⟩
    cases hidle (.primitive e) (he ▸ List.mem_singleton_self _)
  | durativeAction a =>
    have ha : a ∈ d.durativeActions := List.mem_filterMap.2 ⟨_, he, rfl⟩
    rw [List.isEmpty_iff.1 hdurative] at ha
    cases ha
  | derivedPredicate p => trivial

/-- The fields of a domain as nodes. -/
def Domain.fields (d : Domain) : List Node :=
  [toNode d.name, toNode d.parents, toNode d.requirements, toNode d.types, toNode d.constants,
    toNode d.predicates, toNode d.timeless, toNode d.functions, toNode d.constraints,
    toNode d.definitions]

variable {parts : List Rendering} {line : Line} {lines : List Line} {f : List Node} {i : Nat}

/-! ### Lines that are read -/

namespace Rule

open Grammar

variable {α β : Type} {g : Rule α} {h : Rule β} {gap : List Char} {level : Nat} {P : α → Prop}
  {Q : β → Prop}

/-- The lines contribute sections that the rule reads one after the other; the sections begin as it
is said, and what is read has the property. -/
def ReadsLines (g : Rule α) (parts : List Rendering) (level : Nat) (gap : List Char)
    (lines : List Line) (front : List (List Char) → Prop) (P : α → Prop) : Prop :=
  ∃ sections : List (List (List Char)), List.Forall₂ (Line.GivesAt parts level) lines sections ∧
    front sections.flatten ∧ g.ReadsSections gap sections.flatten P

namespace ReadsLines

variable {front front' : List (List Char) → Prop} {p? : Option (List Char)} {O : Option α → Prop}

/-- A line that may be left out, in front of others. -/
theorem optional (hline : line.GivesAt parts level p?.toList)
    (hp : ∀ p ∈ p?, g.Recovers p fun a => O (some a)) (hnone : p? = none → O none)
    (hfront : ∀ ps, front ps → front' (p?.toList ++ ps))
    (hmiss : ∀ ps, front ps → ∀ r, g.Misses (gap.intercalate ps ++ ')' :: r))
    (hh : h.ReadsLines parts level gap lines front Q) :
    ReadsLines (.seq (Grammar.optional g) h) parts level gap (line :: lines) front'
      fun ab => O ab.1 ∧ Q ab.2 := by
  obtain ⟨sections, hlines, hbegins, hh⟩ := hh
  exact ⟨p?.toList :: sections, .cons hline hlines, hfront _ hbegins,
    .given hp (fun hp => ⟨hnone hp, hmiss _ hbegins⟩) hh⟩

/-- A last line that may be left out. -/
theorem optional_last (hgap : IsGap gap) (hline : line.GivesAt parts level p?.toList)
    (hp : ∀ p ∈ p?, g.Recovers p fun a => O (some a)) (hnone : p? = none → O none)
    (hfront : front p?.toList) (hmiss : ∀ r, g.Misses (')' :: r)) :
    ReadsLines (Grammar.optional g) parts level gap [line] front O := by
  refine ⟨[p?.toList], .cons hline .nil, ?_, ?_⟩ <;> rw [List.flatten_singleton]
  · exact hfront
  · exact .given_last hgap hp fun hp => ⟨hnone hp, hmiss⟩

end ReadsLines

end Rule

/-! ### Lines of forms -/

/-- A line is written as one form of the rule, or left out; what is read from the form, or that it is
left out, has the property. -/
def Line.Shows {α : Type} (line : Line) (parts : List Rendering) (head : String) (g : Rule α)
    (O : Option α → Prop) : Prop :=
  ∃ p? : Option (List Char), line.Gives parts p?.toList ∧
    (∀ p ∈ p?, (∃ ps, p = oneLine head ps) ∧ g.Recovers p fun a => O (some a)) ∧
      (p? = none → O none)

namespace Line

open Rule Grammar

variable {α : Type} {g : Rule α} {head : String} {O : Option α → Prop}

theorem shows_none (h : line.Gives parts []) (ho : O none) : line.Shows parts head g O :=
  ⟨none, h, nofun, fun _ => ho⟩

theorem shows_form {ps : List (List Char)} (h : line.Gives parts [oneLine head ps])
    (hg : g.Recovers (oneLine head ps) fun a => O (some a)) : line.Shows parts head g O :=
  ⟨some (oneLine head ps), h, by rintro _ ⟨⟩; exact ⟨⟨ps, rfl⟩, hg⟩, nofun⟩

/-- The members of a field, if it has any. -/
theorem shows_members [ToNode α] [Spelled α] {as : List α} (hi : f[i]? = some (toNode as))
    (hh : IsHead head) (hg : ∀ a ∈ as, g.Recovers (spelling a) (· = a))
    (hclose : ∀ r, g.Misses (')' :: r)) :
    (Line.form head (.members i)).Shows (f.map Node.rendering) head (Grammar.form head (many1 g))
      fun as? => as?.getD [] = as := by
  have hline := gives_form head (words_members_toNode (f := f) hi)
  by_cases hne : as = []
  · subst hne
    exact shows_none hline rfl
  · rw [if_neg (by simpa using hne)] at hline
    exact shows_form hline (recovers_form hh (readsParts_many1_eq isGap_blank hg hne hclose))

/-- A typed list, if it has any items. -/
theorem shows_items [ToNode α] [Spelled α] {W : α → Prop} {l : TypedList α} (closing : TypeSpec)
    (hi : f[i]? = some (toNode l)) (hh : IsHead head) (hg : g.Lists W) (hl : l.IsWritable)
    (hW : ∀ a ∈ l.items, W a.value) :
    (Line.form head (.items i (toNode closing))).Shows (f.map Node.rendering) head
      (Grammar.form head (itemsOf closing g)) fun l? => l?.getD {} = l := by
  have hline := gives_form head (words_items closing hi)
  by_cases hne : l.items = []
  · rw [if_pos hne, if_pos rfl] at hline
    obtain ⟨items⟩ := l
    obtain rfl : items = [] := hne
    exact shows_none hline rfl
  · have htext := oneLine_items head closing l
    rw [if_neg hne] at htext
    rw [if_neg hne, if_neg (by simp), htext] at hline
    exact shows_form hline (recovers_form hh
      (readsParts_itemsOf (fun a ha => hg.takes_spelling (hW a ha)) hl hg.misses))

/-- The declared requirement flags, if there are any. -/
theorem shows_requirements {rs : Requirements} (hi : f[i]? = some (toNode rs)) :
    (Line.bare (.unlessSame i (.form .requirements [.nothing]))).Shows (f.map Node.rendering)
      ":requirements" requirements fun rs? => rs?.getD .none = rs := by
  have hrender : (toNode rs).render =
      .ok (String.ofList (oneLine ":requirements" (rs.declared.map spelling))) :=
    Node.render_members (k := .requirements) rfl (forall₂_render rs.declared)
  have hline := gives_bare (words_unlessSame (m := .form .requirements [.nothing]) hi hrender)
  simp only [Requirements.same_nothing] at hline
  by_cases hrs : rs.declared = []
  · rw [if_pos hrs] at hline
    exact shows_none hline (by rw [← Requirements.ofList_declared rs, hrs]; rfl)
  · rw [if_neg hrs] at hline
    exact shows_form hline (recovers_requirements rs hrs)

end Line

/-- Only an empty conjunction of constraints has its node. -/
theorem Constraint.same_nothing (c : Constraint) :
    (toNode c).same (.form .constraintAnd [.nothing]) = true ↔ c = .conj [] := by
  cases c with
  | conj cs =>
    cases cs <;> simp [toNode, ToNode.toNode, Constraint.toNode, Constraint.toNodes, Node.same,
      Node.allSame, Node.nothing]
  | _ => simp [toNode, ToNode.toNode, Constraint.toNode, Node.same]

/-- The constraints of a domain, unless they are an empty conjunction. -/
theorem Line.shows_constraints {c : Constraint} (hi : f[i]? = some (toNode c)) (hc : c.IsRegular) :
    (Line.form ":constraints" (.unlessSame i (.form .constraintAnd [.nothing]))).Shows
      (f.map Node.rendering) ":constraints" Rule.domainConstraints
        fun c? => c?.getD (.conj []) = c := by
  have hline := gives_form ":constraints" (words_unlessSame (f := f) (i := i)
    (m := .form .constraintAnd [.nothing]) hi (Spelled.render_toNode c))
  by_cases hnone : c = .conj []
  · rw [if_pos ((Constraint.same_nothing c).2 hnone), if_pos rfl] at hline
    exact shows_none hline hnone.symm
  · rw [if_neg fun hs => hnone ((Constraint.same_nothing c).1 hs), if_neg (by simp)] at hline
    exact shows_form hline (Rule.recovers_form (Rule.isHead_of_isWord (by decide))
      (.one isGap_blank (Rule.recovers_constraint hc)))

namespace Rule

open Grammar

variable {α β : Type} {g : Rule α} {h : Rule β} {gap : List Char} {level : Nat} {P : α → Prop}
  {Q : β → Prop} {text : List Char} {levels : Nat}

/-- **A form that may be left out**, in front of forms with other heads. -/
theorem ReadsLines.shown {head : String} {heads : List String} {O : Option α → Prop}
    (hline : line.Shows parts head g O)
    (hmiss : ∀ ps, Begins heads ps → ∀ r, g.Misses (lineGap.intercalate ps ++ ')' :: r))
    (hh : h.ReadsLines parts 0 lineGap lines (Begins heads) Q) :
    ReadsLines (.seq (Grammar.optional g) h) parts 0 lineGap (line :: lines) (Begins (head :: heads))
      fun ab => O ab.1 ∧ Q ab.2 := by
  obtain ⟨p?, hline, hp, hnone⟩ := hline
  refine .optional hline (fun p hmem => (hp p hmem).2) hnone (fun ps hps => ?_) hmiss hh
  refine Begins.append (fun p hmem => ?_) (hps.mono (by simp))
  obtain rfl : p? = some p := by simpa using hmem
  obtain ⟨ps, rfl⟩ := (hp p rfl).1
  exact ⟨_, head, ps, isGap_blank, by simp, rfl⟩

/-! ### Labels -/

section

variable [ToNode α] [Spelled α] {label : String} {labels : List String} {k : Rule (Option α)}
  {a? : Option α}

/-- What has a text is not absent. -/
theorem toNode_ne_absent (a : α) : toNode a ≠ .absent := fun ha => by
  have hrender := Spelled.render_toNode a
  rw [ha] at hrender
  cases hrender

/-- What stands behind a label is read back, if it is there. -/
theorem recovers_labelled_given (hl : IsHead label)
    (hg : ∀ a ∈ a?, k.Recovers (spelling a) (· = some a)) :
    ∀ p ∈ (a?.map spelling).map (labelText label),
      Recovers (Grammar.labelled label k) p fun o => (some o).join = a? := by
  rintro _ hmem
  obtain ⟨_, hs, rfl⟩ := Option.map_eq_some_iff.1 hmem
  obtain ⟨a, rfl, rfl⟩ := Option.map_eq_some_iff.1 hs
  exact (hg a rfl).labelled hl

theorem givesAt_labelled_given (label : String) (level : Nat) (hi : f[i]? = some (toNode a?)) :
    (Line.labelled label (.given i)).GivesAt (f.map Node.rendering) level
      ((a?.map spelling).map (labelText label)).toList := by
  refine Line.givesAt_labelled label level ?_
  rw [words_given hi toNode_ne_absent, Option.toList_map]

/-- **A field behind a label that may be left out**, in front of other labels. -/
theorem ReadsLines.labelled (hl : IsHead label)
    (hapart : Apart label [] = true ∧ ∀ l ∈ labels, Apart label l.toList = true)
    (hi : f[i]? = some (toNode a?)) (hg : ∀ a ∈ a?, k.Recovers (spelling a) (· = some a))
    (hh : h.ReadsLines (f.map Node.rendering) level gap lines (BeginsLabelled labels) Q) :
    ReadsLines (.seq (labelledOrEmpty label k) h) (f.map Node.rendering) level gap
      (.labelled label (.given i) :: lines) (BeginsLabelled (label :: labels))
      fun ab => ab.1 = a? ∧ Q ab.2 := by
  obtain ⟨sections, hlines, hfront, hread⟩ := ReadsLines.optional (O := fun o => o.join = a?)
    (givesAt_labelled_given label level hi) (recovers_labelled_given hl hg)
    (fun hnone => by cases a? <;> simp_all) (beginsLabelled_map label _)
    (fun _ hps => misses_labelled hl.plain hapart hps) hh
  exact ⟨sections, hlines, hfront, hread.map_first⟩

/-- A last field behind a label that may be left out. -/
theorem ReadsLines.labelled_last (hgap : IsGap gap) (hl : IsHead label)
    (hapart : Apart label [] = true) (hi : f[i]? = some (toNode a?))
    (hg : ∀ a ∈ a?, k.Recovers (spelling a) (· = some a)) :
    ReadsLines (labelledOrEmpty label k) (f.map Node.rendering) level gap
      [.labelled label (.given i)] (BeginsLabelled [label]) (· = a?) := by
  have hnil : BeginsLabelled [] [] := nofun
  have hbegins : BeginsLabelled [label] ((a?.map spelling).map (labelText label)).toList := by
    simpa using beginsLabelled_map label (a?.map spelling) [] hnil
  have hmiss : ∀ r, Misses (Grammar.labelled label k) (gap.intercalate [] ++ ')' :: r) :=
    misses_labelled hl.plain ⟨hapart, by simp⟩ hnil
  obtain ⟨sections, hlines, hfront, hread⟩ := ReadsLines.optional_last (O := fun o => o.join = a?)
    hgap (givesAt_labelled_given label level hi) (recovers_labelled_given hl hg)
    (fun hnone => by cases a? <;> simp_all) hbegins hmiss
  exact ⟨sections, hlines, hfront, hread.map⟩

end

/-! ### Definitions -/

/-- In a domain, the node of the value is written as a form that the value is read back from. -/
def RecoversInside [ToNode α] (g : Rule α) (head : String) (a : α) : Prop :=
  ∃ ps, (toNode a).renderAt 1 = .ok (indentation 1 ++ String.ofList (oneLine head ps)) ∧
    g.Recovers (oneLine head ps) (· = a)

/-- A definition with a name, parameters and labelled sections. -/
theorem recovers_block {k : Kind} {title : String} {x : Name} {vs : TypedList Variable}
    {front : List (List Char) → Prop}
    (hk : k.layout = .block title (some 0) (.labelled ":parameters" (.parameters 1) :: lines))
    (hx : f[0]? = some (toNode x)) (hvs : f[1]? = some (toNode vs)) (hw : vs.IsWritable)
    (htitle : IsHead title)
    (hh : h.ReadsLines (f.map Node.rendering) 1 definitionGap lines front Q) :
    ∃ ps, (Node.form k f).renderAt 1 = .ok (indentation 1 ++ String.ofList (oneLine title ps)) ∧
      Recovers (form title (pair (symbol .name) (pair actionParameters h))) (oneLine title ps)
        fun r => r.1 = x ∧ r.2.1 = vs ∧ Q r.2.2 := by
  obtain ⟨sections, hlines, -, hread⟩ := hh
  have hwords : Piece.words (f.map Node.rendering) (.parameters 1) =
      .ok ((some (enclosedItems vs)).toList.map String.ofList) := words_parameters hvs
  have hparameters := Line.givesAt_labelled ":parameters" 1 hwords
  have hvars : actionParameters.Recovers (labelText ":parameters" (enclosedItems vs)) (· = vs) :=
    (recovers_parameters hw).labelled (isHead_of_isWord (by decide))
  exact ⟨_, Node.renderAt_block hk hx (.cons hparameters hlines) (by simp),
    recovers_form htitle (ReadsParts.packed (.pair (recovers_symbol x) (.sections hvars hread)))⟩

theorem Finds.recovers_action {a : Action} (h : Finds Rule.action text levels a)
    (hd : ∀ e ∈ a.effect, e.IsDistinct) : RecoversInside Rule.action ":action" a := by
  obtain ⟨⟨n, vs, p?, e?⟩, hx, rfl⟩ := h.map
  obtain ⟨hvs, hx⟩ := hx.form.pair.2.pair
  obtain ⟨hp, he⟩ := hx.seq
  have hp : ∀ p ∈ p?, Recovers (.emptyOr Rule.preconditions) (spelling p) (· = some p) :=
    fun p hmem => .emptyOr_eq (isForm_preconditions p)
      (recovers_preconditions ((hp.labelledOrEmpty p hmem).emptyOr p rfl).preconditions)
  have he : ∀ e ∈ e?, Recovers (.emptyOr Rule.effects) (spelling e) (· = some e) :=
    fun e hmem => .emptyOr_eq (isForm_effects e)
      (recovers_effects ((he.labelledOrEmpty e hmem).emptyOr e rfl).effects (hd e hmem))
  obtain ⟨ps, hrender, hread⟩ := recovers_block (k := .action)
    (f := [toNode n, toNode vs, toNode p?, toNode e?]) rfl rfl rfl hvs.labelled.parameters
    (isHead_of_isWord (by decide))
    (.labelled (isHead_of_isWord (by decide)) (by decide) rfl hp
      (.labelled_last isGap_definitionGap (isHead_of_isWord (by decide)) (by decide) rfl he))
  refine ⟨ps, hrender, hread.map ?_⟩
  rintro ⟨_, _, _, _⟩ ⟨rfl, rfl, rfl, rfl⟩
  rfl

theorem Finds.recovers_durativeAction {a : DurativeAction}
    (h : Finds Rule.durativeAction text levels a) (hd : ∀ e ∈ a.effect, e.IsDistinct) :
    RecoversInside Rule.durativeAction ":durative-action" a := by
  obtain ⟨⟨n, vs, d?, c?, e?⟩, hx, rfl⟩ := h.map
  obtain ⟨hvs, hx⟩ := hx.form.pair.2.pair
  obtain ⟨hdur, hx⟩ := hx.seq
  obtain ⟨hc, he⟩ := hx.seq
  have hdur : ∀ d ∈ d?, Rule.durationConstraint.Recovers (spelling d) (· = some d) :=
    fun d hmem => (hdur.labelledOrEmpty d hmem).recovers_durationConstraint
  have hc : ∀ c ∈ c?, Recovers (.emptyOr Rule.condition) (spelling c) (· = some c) :=
    fun c hmem => .emptyOr_eq (isForm_condition c)
      ((hc.labelledOrEmpty c hmem).emptyOr c rfl).recovers_condition
  have he : ∀ e ∈ e?, Recovers (.emptyOr Rule.durativeEffect) (spelling e) (· = some e) :=
    fun e hmem => .emptyOr_eq (isForm_durativeEffect e)
      (((he.labelledOrEmpty e hmem).emptyOr e rfl).recovers_durativeEffect (hd e hmem))
  obtain ⟨ps, hrender, hread⟩ := recovers_block (k := .durativeAction)
    (f := [toNode n, toNode vs, toNode d?, toNode c?, toNode e?]) rfl rfl rfl
    hvs.labelled.parameters (isHead_of_isWord (by decide))
    (.labelled (isHead_of_isWord (by decide)) (by decide) rfl hdur
      (.labelled (isHead_of_isWord (by decide)) (by decide) rfl hc
        (.labelled_last isGap_definitionGap (isHead_of_isWord (by decide)) (by decide) rfl he)))
  refine ⟨ps, hrender, hread.map ?_⟩
  rintro ⟨_, _, _, _, _⟩ ⟨rfl, rfl, rfl, rfl, rfl⟩
  rfl

theorem recovers_predicateSkeleton {s : PredicateSkeleton} (hs : s.parameters.IsWritable) :
    Recovers predicateSkeleton (spelling s) (· = s) :=
  (recovers_headed_eq (recovers_symbol s.symbol) (readsParts_itemsOf (d := .object)
    (fun v _ => takes_symbol v.value) hs misses_var_of_not_begins)).congr _

theorem Finds.writable_predicateSkeleton {s : PredicateSkeleton}
    (h : Finds predicateSkeleton text levels s) : s.parameters.IsWritable := by
  obtain ⟨⟨p, vs⟩, hx, rfl⟩ := h.map
  exact (Finds.itemsOf (d := .object) trivial hx.parens.headed.2).1

theorem Finds.recovers_derivedPredicate {d : DerivedPredicate}
    (h : Finds Rule.derivedPredicate text levels d) :
    RecoversInside Rule.derivedPredicate ":derived" d := by
  obtain ⟨⟨p, g⟩, hx, rfl⟩ := h.map
  obtain ⟨hp, hg⟩ := hx.form.pair
  have hrender := Node.render_plain (k := .derivedPredicate) rfl
    (.cons (Spelled.render_toNode p) (.cons (Spelled.render_toNode g) .nil))
  exact ⟨_, renderAt_of_plain rfl hrender 1, (recovers_form (isHead_of_isWord (by decide))
    (.pair_eq (recovers_predicateSkeleton hp.writable_predicateSkeleton)
      (.one isGap_blank (recovers_goal hg.goal)))).congr _⟩

/-- **Every definition that is found is read back** where it is written in a domain, if its effects
are distinct. -/
theorem Finds.recovers_definition {d : Definition} (h : Finds Rule.definition text levels d)
    (hd : d.IsDistinct) : ∃ head ∈ definitionHeads, RecoversInside Rule.definition head d := by
  have hdurative : IsHead ":durative-action" := isHead_of_isWord (by decide)
  have hderived : IsHead ":derived" := isHead_of_isWord (by decide)
  rcases h.orElse with h | h
  · obtain ⟨a, ha, rfl⟩ := h.map
    obtain ⟨ps, hrender, hread⟩ := ha.recovers_action hd
    exact ⟨":action", by decide, ps, hrender, .left (hread.congr _)⟩
  rcases h.orElse with h | h
  · obtain ⟨a, ha, rfl⟩ := h.map
    obtain ⟨ps, hrender, hread⟩ := ha.recovers_durativeAction hd
    exact ⟨":durative-action", by decide, ps, hrender,
      .behind (missesText_form (by decide) hdurative.solid (by decide) ps).map.map
        (.left (hread.congr _))⟩
  · obtain ⟨d, hx, rfl⟩ := h.map
    obtain ⟨ps, hrender, hread⟩ := hx.recovers_derivedPredicate
    exact ⟨":derived", by decide, ps, hrender,
      .behind (missesText_form (by decide) hderived.solid (by decide) ps).map.map
        (.behind (missesText_form (by decide) hderived.solid (by decide) ps).map.map
          (hread.congr _))⟩

/-- The definitions of a domain are read back, if there are any. -/
theorem readsLines_definitions {ds : List Definition} (hi : f[i]? = some (toNode ds))
    (hds : ∀ d ∈ ds, ∃ head ∈ definitionHeads, RecoversInside definition head d) :
    ReadsLines (optional (many definition)) (f.map Node.rendering) 0 lineGap [.blocks i]
      (Begins definitionHeads) fun ds? => ds?.getD [] = ds := by
  have htext : ∀ d, ∃ p, d ∈ ds → (∃ head ∈ definitionHeads, ∃ ps, p = oneLine head ps) ∧
      (toNode d).renderAt 1 = .ok (indentation 1 ++ String.ofList p) ∧
        definition.Recovers p (· = d) := fun d => by
    by_cases hd : d ∈ ds
    · obtain ⟨head, hhead, ps, hrender, hread⟩ := hds d hd
      exact ⟨_, fun _ => ⟨⟨head, hhead, ps, rfl⟩, hrender, hread⟩⟩
    · exact ⟨[], fun h => absurd h hd⟩
  choose text htext using htext
  have htexts : ∀ es ⊆ ds, (es.map fun d => (toNode d).rendering).mapM (·.textAt 1) =
      .ok ((es.map text).map fun p => indentation 1 ++ String.ofList p) := fun es hes => by
    induction es with
    | nil => rfl
    | cons e es ih =>
      obtain ⟨he, hes⟩ := List.cons_subset.1 hes
      rw [List.map_cons, List.mapM_cons, ih hes,
        show (toNode e).rendering.textAt 1 = (toNode e).renderAt 1 from rfl, (htext e he).2.1]
      rfl
  have hline : (Line.blocks i).GivesAt (f.map Node.rendering) 0 (ds.map text) := by
    have hparts : (toNode ds).rendering.parts = ds.map fun d => (toNode d).rendering := by
      rw [show toNode ds = .tuple (ds.map toNode) from rfl, Node.parts_rendering_tuple, List.map_map]
      rfl
    rw [Line.GivesAt, Line.texts, get_of_getElem? hi, hparts]
    exact htexts ds (List.Subset.refl ds)
  refine ⟨[ds.map text], .cons hline .nil, ?_, ?_⟩ <;> rw [List.flatten_singleton]
  · intro p hp
    obtain ⟨d, hd, rfl⟩ := List.mem_map.1 (List.mem_of_mem_head? hp)
    obtain ⟨head, hhead, ps, hps⟩ := (htext d hd).1
    exact ⟨_, head, ps, isGap_blank, hhead, hps⟩
  · refine (ReadsSections.last (readsParts_many_eq isGap_lineGap (fun d hd => (htext d hd).2.2)
      fun _ => misses_close rfl)).mono ?_
    rintro _ ⟨_, rfl, rfl⟩
    rfl

/-! ### Whole domains -/

/-- A name and the sections behind it are read back from the block that they are written as. -/
theorem ReadsLines.look_block {k : Kind} {title head : String} {x : Name}
    {front : List (List Char) → Prop}
    (hh : h.ReadsLines (f.map Node.rendering) 0 lineGap lines front Q)
    (hk : k.layout = .block title none (.form head (.leaf 0) :: lines))
    (hx : f[0]? = some (toNode x)) (htitle : IsHead title) (hhead : IsHead head) :
    ∃ s, (Node.form k f).render = .ok (String.ofList s) ∧ ∀ {r}, Delimited r → ∀ levels b,
      (look levels (padded (form title (pair (form head (symbol .name)) h))) ⟨b, s ++ r⟩).Leaves
        (r.drop (blankLength false r)) fun ab => ab.1 = x ∧ Q ab.2 := by
  obtain ⟨sections, hlines, -, hread⟩ := hh
  have hname : (Line.form head (.leaf 0)).Gives (f.map Node.rendering)
      [oneLine head [spelling x]] := Line.gives_form _ (words_leaf hx)
  have hreads : Recovers (form head (symbol .name)) (oneLine head [spelling x]) (· = x) :=
    recovers_form hhead (.one isGap_blank (recovers_symbol x))
  exact ⟨_, Node.render_block hk (.cons hname hlines) (by simp), fun hr levels b =>
    (recovers_form htitle (.sections hreads hread)).look_padded hr levels b⟩

/-- **Every domain that is found is read back from its text** if its effects are distinct, with the
blanks and comments behind it. -/
theorem Finds.recovers_domain (htext : IsPlainlySpaced text) {d : Domain}
    (h : Finds Rule.domain text levels d) (hd : ∀ e ∈ d.definitions, e.IsDistinct) :
    ∃ s, (toNode d).render = .ok (String.ofList s) ∧ ∀ {r}, Delimited r → ∀ levels b,
      (look levels Rule.domain ⟨b, s ++ r⟩).Leaves (r.drop (blankLength false r)) (· = d) := by
  have hsections := h.domain
  have hregular : d.constraints.IsRegular := by
    rcases hsections.constraints with hnone | hfound
    · rw [hnone]
      exact .conj (by simp)
    · exact hfound.constraint htext
  have hdefinitions := readsLines_definitions (f := d.fields) (i := 9) rfl fun e he =>
    (hsections.definitions e he).recovers_definition (hd e he)
  have hconstraints := ReadsLines.shown (Line.shows_constraints (f := d.fields) (i := 8) rfl hregular)
    (fun _ hps => misses_form_of_begins (by decide) (by decide) hps) hdefinitions
  have hfunctions := ReadsLines.shown (Line.shows_items (f := d.fields) (i := 7) .number rfl
      (isHead_of_isWord (w := ":functions") (by decide)) .functionSkeleton hsections.functions
      hsections.skeletons)
    (fun _ hps => misses_form_of_begins (by decide) (by decide) hps) hconstraints
  have htimeless := ReadsLines.shown (Line.shows_members (f := d.fields) (i := 6) rfl
      (isHead_of_isWord (w := ":timeless") (by decide)) (fun l _ => recovers_groundLiteral l)
      fun _ => misses_close rfl)
    (fun _ hps => misses_form_of_begins (by decide) (by decide) hps) hfunctions
  have hpredicates := ReadsLines.shown (Line.shows_members (f := d.fields) (i := 5) rfl
      (isHead_of_isWord (w := ":predicates") (by decide)) (fun p hp =>
        recovers_predicateSkeleton (hsections.predicates p hp).writable_predicateSkeleton)
      fun _ => misses_close rfl)
    (fun _ hps => misses_form_of_begins (by decide) (by decide) hps) htimeless
  have hconstants := ReadsLines.shown (Line.shows_items (f := d.fields) (i := 4) .object rfl
      (isHead_of_isWord (w := ":constants") (by decide)) (.symbol .name) hsections.constants
      (by simp))
    (fun _ hps => misses_form_of_begins (by decide) (by decide) hps) hpredicates
  have htypes := ReadsLines.shown (Line.shows_items (f := d.fields) (i := 3) .object rfl
      (isHead_of_isWord (w := ":types") (by decide)) (.symbol .type) hsections.types (by simp))
    (fun _ hps => misses_form_of_begins (by decide) (by decide) hps) hconstants
  have hrequirements := ReadsLines.shown (Line.shows_requirements (f := d.fields) (i := 2) rfl)
    (fun _ hps r => .map (misses_form_of_begins (by decide) (by decide) hps r)) htypes
  have hparents := ReadsLines.shown (Line.shows_members (f := d.fields) (i := 1) rfl
      (isHead_of_isWord (w := ":extends") (by decide)) (fun n _ => recovers_symbol n)
      misses_close_name)
    (fun _ hps => misses_form_of_begins (by decide) (by decide) hps) hrequirements
  obtain ⟨s, hrender, hread⟩ := hparents.look_block (k := .domain) rfl rfl
    (isHead_of_isWord (by decide)) (isHead_of_isWord (by decide))
  refine ⟨s, hrender, fun hr levels b => ?_⟩
  rw [Rule.domain, look_map]
  refine (hread hr levels b).andThen ?_
  rintro b' ⟨_, _, _, _, _, _, _, _, _, _⟩
    ⟨rfl, hparents, hreqs, htypes, hconsts, hpreds, htimeless, hfuns, hcons, hdefs⟩
  exact Finding.leaves_found (by simp only [hparents, hreqs, htypes, hconsts, hpreds, htimeless,
    hfuns, hcons, hdefs])

/-- **A domain is read back from its printed text, if its effects are distinct.**  Where a text is
parsed as a domain, it can be printed, and under every ceiling that is not too low what is printed is
parsed to its end as the same domain. -/
theorem parse_printed_domain {text : List Char} (htext : IsPlainlySpaced text) {ceiling : Nat}
    {c : Cursor} {d : Domain} (h : domain.parse (Cursor.ofText text ceiling) = .ok (c, d))
    (hd : ∀ e ∈ d.definitions, e.IsDistinct) :
    ∃ printed : String, (toNode d).render = .ok printed ∧
      ∀ ceiling', (∀ limit offset, domain.parse (Cursor.ofText printed.toList ceiling') ≠
          .error (.tooDeep limit offset)) →
        ∃ e, domain.parse (Cursor.ofText printed.toList ceiling') = .ok (e, d) ∧ e.rest = [] := by
  have hfinds := finds_of_parse settled_domain (calm_ofText text ceiling) h
  obtain ⟨s, hrender, hread⟩ := hfinds.recovers_domain htext hd
  refine ⟨String.ofList s, hrender, fun ceiling' hdeep => ?_⟩
  rw [String.toList_ofList] at hdeep ⊢
  have hlook := hread (r := []) .nil ceiling' none
  rw [List.append_nil] at hlook
  obtain ⟨e, d', he, rfl, hrest⟩ := parse_of_leaves settled_domain hlook hdeep
  exact ⟨e, he, hrest⟩

set_option maxRecDepth 20000 in
/-- Effects of nothing, on everything or under a condition, are written like no other ones. -/
theorem parse_printed_domain_idle :
    ∃ c d printed ceiling' e,
      domain.parse (Cursor.ofText ("(define(domain d)(:timeless(p))(:action a :parameters()".toList ++
        ":effect(and(forall(?x)(and))(when(p)(and)))))".toList) 40) = .ok (c, d) ∧
      (∀ e ∈ d.definitions, e.IsDistinct) ∧ (toNode d).render = .ok printed ∧
      domain.parse (Cursor.ofText printed.toList ceiling') = .ok (e, d) ∧ e.rest = [] := by
  obtain ⟨c, d, hd, hidle⟩ := exists_of_parse_any (g := domain) (p := Domain.isIdle)
    (c := .ofText ("(define(domain d)(:timeless(p))(:action a :parameters()".toList ++
      ":effect(and(forall(?x)(and))(when(p)(and)))))".toList) 40) (by decide +kernel)
  have hdistinct := Domain.isDistinct_of_isIdle hidle
  obtain ⟨printed, hprinted, h⟩ := parse_printed_domain (by decide +kernel) hd hdistinct
  have hceiling : 2 * nesting false printed.toList + 1 < 2 * printed.toList.length + 2 := by
    have := nesting_le_length false printed.toList
    omega
  obtain ⟨e, he, hrest⟩ := h _ (parse_ne_tooDeep .domain hceiling)
  exact ⟨c, d, printed, _, e, hd, hdistinct, hprinted, he, hrest⟩

end Rule

end Pddl
