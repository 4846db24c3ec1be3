import Pddl.Proofs.WrittenSections

/-!
# Canonical texts are taken

Every domain and every problem that is found in a text can be written, and what is written is taken by
the rule it was found by.  A definition is written in a domain one level deeper than the domain itself.

* `definitionGap`, `Node.renderAt_block` : definitions as they stand in a domain.
* `Rule.Finds.rereads_definition` : every definition that is found is taken again.
* `Rule.Finds.rereads_domain`, `Rule.Finds.rereads_problem` : **domains and problems are taken again**.
-/

namespace Pddl

/-- What is in front of the sections of a definition in a domain. -/
def definitionGap : List Char := ['\n', ' ', ' ', ' ', ' ']

theorem isGap_definitionGap : IsGap definitionGap := ⟨by decide, by simp [definitionGap, isBlank]⟩

variable {f : List Node}

/-- The lines of a block at any indentation. -/
theorem mapM_givesAt {parts : List Rendering} {level : Nat} {lines : List Line}
    {sections : List (List (List Char))} (h : List.Forall₂ (Line.GivesAt parts level) lines sections) :
    lines.mapM (Line.texts parts level) =
      .ok (sections.map (List.map fun s => indentation (level + 1) ++ String.ofList s)) := by
  induction h with
  | nil => rfl
  | cons hl _ ih => rw [List.mapM_cons, hl, ih]; rfl

/-- In a domain, a definition is its title with its name and then its sections, each on a line of its
own. -/
theorem Node.renderAt_block {k : Kind} {title : String} {lines : List Line} {kind : SymbolKind}
    {x : Symbol kind} {sections : List (List (List Char))}
    (hk : k.layout = .block title (some 0) lines) (hx : f[0]? = some (toNode x))
    (h : List.Forall₂ (Line.GivesAt (f.map rendering) 1) lines sections)
    (hne : sections.flatten ≠ []) :
    (form k f).renderAt 1 = .ok (indentation 1 ++ String.ofList
      (oneLine title [definitionGap.intercalate (spelling x :: sections.flatten)])) := by
  rw [renderAt, rendering, renderings_eq_map, hk]
  show (lines.mapM (Line.texts (f.map rendering) 1) >>= fun sections => _) = _
  rw [mapM_givesAt h]
  show Except.ok _ = _
  have hdisplay : (Rendering.get (f.map rendering) 0).node.display = x.written := by
    rw [get_of_getElem? hx, node_rendering]
    rfl
  have hlines : (sections.map (List.map fun s => indentation 2 ++ String.ofList s)).flatten.map
      String.toList = sections.flatten.map ([' ', ' ', ' ', ' '] ++ ·) := by
    rw [← List.map_flatten, List.map_map]
    refine List.map_congr_left fun s _ => ?_
    rw [Function.comp, String.toList_append, String.toList_ofList]
    rfl
  obtain ⟨s, ss, hs⟩ := List.exists_cons_of_ne_nil hne
  have hspread : spread ['\n'] (ss.map ([' ', ' ', ' ', ' '] ++ ·)) = spread definitionGap ss := by
    simp [spread, definitionGap, List.flatMap_map]
  rw [Except.ok.injEq, ← String.toList_inj]
  rw [show (Option.map _ (some 0) : Option String).toList = [x.written] from congrArg (fun s => [s]) hdisplay,
    blockText, String.toList_append, String.toList_append, String.toList_append, String.toList_append,
    String.toList_append, String.toList_intercalate, hlines, hs,
    show "\n".toList = ['\n'] from rfl, List.map_cons, intercalate_cons, hspread, toList_spaced]
  simp [oneLine, enclose, intercalate_cons, definitionGap, spelling, Spelled.spelling]

namespace Rule

open Grammar

variable {α β : Type} {text : List Char} {levels i : Nat} {g : Rule α} {h : Rule β}

/-! ### Definitions -/

/-- In a domain, the node is written as a form that the rule takes. -/
def RereadsInside (g : Rule α) (head : String) (n : Node) : Prop :=
  ∃ ps, n.renderAt 1 = .ok (indentation 1 ++ String.ofList (oneLine head ps)) ∧
    '\r' ∉ oneLine head ps ∧ g.Recovers (oneLine head ps) fun _ => True

/-- A definition with a name, parameters and labelled sections. -/
theorem rereadsInside_block {k : Kind} {title : String} {lines : List Line} {x : Name}
    {vs : TypedList Variable} {front : List (List Char) → Prop}
    (hk : k.layout =
      .block title (some 0) (.labelled ":parameters" (.parameters 1) :: lines))
    (hx : f[0]? = some (toNode x)) (hvs : f[1]? = some (toNode vs)) (hw : vs.IsWritable)
    (htitle : IsTitle title)
    (hh : h.TakesLines (f.map Node.rendering) 1 definitionGap lines front) :
    RereadsInside (form title (pair (symbol .name) (pair actionParameters h))) title
      (.form k f) := by
  obtain ⟨sections, hlines, hends, -, hread⟩ := hh
  have hlabel : IsTitle ":parameters" := isTitle (by decide)
  have hwords : Piece.words (f.map Node.rendering) (.parameters 1) =
      .ok ((some (enclosedItems vs)).toList.map String.ofList) := words_parameters hvs
  have hparameters := Line.givesAt_labelled ":parameters" 1 hwords
  refine ⟨_, Node.renderAt_block hk hx (.cons hparameters hlines) (by simp), ?_, ?_⟩
  · have hclean :=
      (isWhole_enclosedItems (fun v : Variable => (isWhole_symbol v).toIsClean) vs).lineEnds
    refine not_mem_oneLine htitle.clean.lineEnds (List.forall_mem_singleton.2 ?_)
    rw [intercalate_cons, List.mem_append, not_or]
    refine ⟨(isWhole_symbol x).lineEnds, not_mem_spread (by decide) ?_⟩
    exact List.forall_mem_cons.2 ⟨hlabel.not_mem_labelText hclean, hends⟩
  · have hvars : actionParameters.Recovers (labelText ":parameters" (enclosedItems vs)) (· = vs) :=
      (recovers_parameters hw).labelled hlabel.head
    exact (recovers_form htitle.head
      (ReadsParts.packed (.pair (recovers_symbol x) (.sections hvars hread)))).mono
      fun _ _ => trivial

theorem Finds.rereads_action {a : Action} (h : Finds Rule.action text levels a) :
    RereadsInside Rule.action ":action" (toNode a) := by
  obtain ⟨⟨n, vs, p?, e?⟩, hx, rfl⟩ := h.map
  obtain ⟨hvs, hx⟩ := hx.form.pair.2.pair
  obtain ⟨hp, he⟩ := hx.seq
  have hp : ∀ p ∈ p?, Rereads (.emptyOr Rule.preconditions) (toNode p) := fun p hmem =>
    ((hp.labelledOrEmpty p hmem).emptyOr p rfl).rereads_preconditions.emptyOr
  have he : ∀ e ∈ e?, Rereads (.emptyOr Rule.effects) (toNode e) := fun e hmem =>
    ((he.labelledOrEmpty e hmem).emptyOr e rfl).rereads_effects.emptyOr
  let f : List Node := [toNode n, toNode vs, toNode p?, toNode e?]
  obtain ⟨_, hp, hpt⟩ := exists_words_given (f := f) (i := 2) rfl hp
  obtain ⟨_, he, het⟩ := exists_words_given (f := f) (i := 3) rfl he
  obtain ⟨ps, hrender, hends, hread⟩ := rereadsInside_block (k := .action) (f := f) rfl rfl rfl
    hvs.labelled.parameters (isTitle (by decide))
    (.labelledOrEmpty (isTitle (by decide)) (by decide) hp hpt
      (.labelledOrEmpty_last isGap_definitionGap (isTitle (by decide)) (by decide) he het))
  exact ⟨ps, hrender, hends, hread.map fun _ _ => trivial⟩

theorem Finds.rereads_durativeAction {a : DurativeAction}
    (h : Finds Rule.durativeAction text levels a) :
    RereadsInside Rule.durativeAction ":durative-action" (toNode a) := by
  obtain ⟨⟨n, vs, d?, c?, e?⟩, hx, rfl⟩ := h.map
  obtain ⟨hvs, hx⟩ := hx.form.pair.2.pair
  obtain ⟨hd, hx⟩ := hx.seq
  obtain ⟨hc, he⟩ := hx.seq
  have hd : ∀ d ∈ d?, Rereads Rule.durationConstraint (toNode d) := fun d hmem =>
    (hd.labelledOrEmpty d hmem).rereads_durationConstraint d rfl
  have hc : ∀ c ∈ c?, Rereads (.emptyOr Rule.condition) (toNode c) := fun c hmem =>
    ((hc.labelledOrEmpty c hmem).emptyOr c rfl).rereads_condition.emptyOr
  have he : ∀ e ∈ e?, Rereads (.emptyOr Rule.durativeEffect) (toNode e) := fun e hmem =>
    ((he.labelledOrEmpty e hmem).emptyOr e rfl).rereads_durativeEffect.emptyOr
  let f : List Node := [toNode n, toNode vs, toNode d?, toNode c?, toNode e?]
  obtain ⟨_, hd, hdt⟩ := exists_words_given (f := f) (i := 2) rfl hd
  obtain ⟨_, hc, hct⟩ := exists_words_given (f := f) (i := 3) rfl hc
  obtain ⟨_, he, het⟩ := exists_words_given (f := f) (i := 4) rfl he
  obtain ⟨ps, hrender, hends, hread⟩ := rereadsInside_block (k := .durativeAction) (f := f) rfl rfl
    rfl hvs.labelled.parameters (isTitle (by decide))
    (.labelledOrEmpty (isTitle (by decide)) (by decide) hd hdt
      (.labelledOrEmpty (isTitle (by decide)) (by decide) hc hct
        (.labelledOrEmpty_last isGap_definitionGap (isTitle (by decide)) (by decide) he het)))
  exact ⟨ps, hrender, hends, hread.map fun _ _ => trivial⟩

/-- A form with a fixed head is written alike at every indentation. -/
theorem renderAt_of_plain {k : Kind} {head : String} {arity : Nat} {s : String}
    (hk : k.layout = .plain head arity) (h : (Node.form k f).render = .ok s) (level : Nat) :
    (Node.form k f).renderAt level = .ok (indentation level ++ s) := by
  rw [Node.render, Node.rendering, hk, Layout.plain, Layout.rendering, text_inline] at h
  rw [Node.renderAt, Node.rendering, hk, Layout.plain, Layout.rendering, h, textAt_inline_ok]

theorem Finds.rereadsInside_derivedPredicate {d : DerivedPredicate}
    (h : Finds Rule.derivedPredicate text levels d) :
    RereadsInside Rule.derivedPredicate ":derived" (toNode d) := by
  obtain ⟨⟨p, g⟩, hx, rfl⟩ := h.map
  obtain ⟨hp, hg⟩ := hx.form.pair
  have hhead : IsTitle ":derived" := isTitle (by decide)
  obtain ⟨ws, hns, hws, hread⟩ := hp.rereads_predicateSkeleton.pair hg.rereads_goal.one
  have hrender := Node.render_plain (k := .derivedPredicate) rfl hns
  exact ⟨ws, renderAt_of_plain rfl hrender 1,
    not_mem_oneLine hhead.clean.lineEnds fun w hw => (hws w hw).lineEnds,
    (recovers_form hhead.head hread).map fun _ _ => trivial⟩

/-- The head words of definitions. -/
def definitionHeads : List String := [":action", ":durative-action", ":derived"]

/-- **Every definition that is found is taken again** where it is written in a domain. -/
theorem Finds.rereads_definition {d : Definition} (h : Finds Rule.definition text levels d) :
    ∃ head ∈ definitionHeads, RereadsInside Rule.definition head (toNode d) := by
  have hdurative : IsSolid ":durative-action".toList := (isTitle (by decide)).head.solid
  have hderived : IsSolid ":derived".toList := (isTitle (by decide)).head.solid
  rcases h.orElse with h | h
  · obtain ⟨a, ha, rfl⟩ := h.map
    obtain ⟨ps, hrender, hends, hread⟩ := ha.rereads_action
    exact ⟨":action", by decide, ps, hrender, hends, .left (hread.map fun _ _ => trivial)⟩
  rcases h.orElse with h | h
  · obtain ⟨a, ha, rfl⟩ := h.map
    obtain ⟨ps, hrender, hends, hread⟩ := ha.rereads_durativeAction
    exact ⟨":durative-action", by decide, ps, hrender, hends,
      .behind (missesText_form (by decide) hdurative (by decide) ps).map.map
        (.left (hread.map fun _ _ => trivial))⟩
  · obtain ⟨d, hd, rfl⟩ := h.map
    obtain ⟨ps, hrender, hends, hread⟩ := hd.rereadsInside_derivedPredicate
    exact ⟨":derived", by decide, ps, hrender, hends,
      .behind (missesText_form (by decide) hderived (by decide) ps).map.map
        (.behind (missesText_form (by decide) hderived (by decide) ps).map.map
          (hread.map fun _ _ => trivial))⟩

/-- Several definitions are written one behind the other. -/
theorem exists_definitionTexts {ds : List Definition}
    (hds : ∀ d ∈ ds, ∃ head ∈ definitionHeads, definition.RereadsInside head (toNode d)) :
    ∃ ws : List (List Char),
      (ds.map fun d => (toNode d).rendering).mapM (·.textAt 1) =
          .ok (ws.map fun w => indentation 1 ++ String.ofList w) ∧
        ∀ w ∈ ws, (∃ head ∈ definitionHeads, ∃ ps, w = oneLine head ps) ∧ '\r' ∉ w ∧
          definition.Recovers w fun _ => True := by
  induction ds with
  | nil => exact ⟨[], rfl, nofun⟩
  | cons d ds ih =>
    obtain ⟨head, hhead, ps, hrender, hends, hread⟩ := hds d (by simp)
    obtain ⟨ws, hws, htexts⟩ := ih fun d hd => hds d (List.mem_cons_of_mem _ hd)
    refine ⟨oneLine head ps :: ws, ?_,
      List.forall_mem_cons.2 ⟨⟨⟨head, hhead, ps, rfl⟩, hends, hread⟩, htexts⟩⟩
    rw [List.map_cons, List.mapM_cons, hws,
      show (toNode d).rendering.textAt 1 = (toNode d).renderAt 1 from rfl, hrender]
    rfl

/-- The definitions of a domain are taken, if there are any. -/
theorem takesLines_definitions {ds : List Definition} (hi : f[i]? = some (toNode ds))
    (hds : ∀ d ∈ ds, ∃ head ∈ definitionHeads, definition.RereadsInside head (toNode d)) :
    TakesLines (optional (many definition)) (f.map Node.rendering) 0 lineGap [.blocks i]
      (Begins definitionHeads) := by
  obtain ⟨ws, hws, htexts⟩ := exists_definitionTexts hds
  have hline : (Line.blocks i).GivesAt (f.map Node.rendering) 0 ws := by
    have hparts : (toNode ds).rendering.parts = ds.map fun d => (toNode d).rendering := by
      rw [show toNode ds = .tuple (ds.map toNode) from rfl, Node.parts_rendering_tuple, List.map_map]
      rfl
    rw [Line.GivesAt, Line.texts, get_of_getElem? hi, hparts]
    exact hws
  refine ⟨[ws], .cons hline .nil, ?_, ?_, ?_⟩ <;> rw [List.flatten_singleton]
  · exact fun w hw => (htexts w hw).2.1
  · intro w hw
    obtain ⟨head, hhead, ps, rfl⟩ := (htexts w (List.mem_of_mem_head? hw)).1
    exact ⟨_, head, ps, isGap_blank, hhead, rfl⟩
  · exact (ReadsSections.last (takesParts_many isGap_lineGap (fun w hw => (htexts w hw).2.2)
      fun _ => misses_close rfl)).mono fun _ _ => trivial

/-! ### Whole texts -/

/-- The node is written without carriage returns, and the rule takes its text with the blanks and
comments behind it. -/
def RereadsWhole (g : Rule α) (n : Node) : Prop :=
  ∃ s, n.render = .ok (String.ofList s) ∧ '\r' ∉ s ∧
    ∀ {r}, Delimited r → ∀ levels b,
      (g.look levels ⟨b, s ++ r⟩).Leaves (r.drop (blankLength false r)) fun _ => True

/-- The lines of a block contribute sections that are taken as the parts of a form. -/
def TakesBlock (g : Rule α) (parts : List Rendering) (lines : List Line) : Prop :=
  ∃ sections : List (List (List Char)), List.Forall₂ (Line.Gives parts) lines sections ∧
    sections.flatten ≠ [] ∧ (∀ s ∈ sections.flatten, '\r' ∉ s) ∧
      g.ReadsParts lineGap sections.flatten fun _ => True

/-- The form of a name. -/
theorem named_section {head : String} {x : Name} (hx : f[i]? = some (toNode x))
    (hhead : IsTitle head) :
    (Line.form head (.leaf i)).Gives (f.map Node.rendering) [oneLine head [spelling x]] ∧
      '\r' ∉ oneLine head [spelling x] ∧
        Recovers (form head (symbol .name)) (oneLine head [spelling x]) (· = x) :=
  ⟨Line.gives_form _ (words_leaf hx),
    not_mem_oneLine hhead.clean.lineEnds (List.forall_mem_singleton.2 (isWhole_symbol x).lineEnds),
    recovers_form hhead.head (.one isGap_blank (recovers_symbol x))⟩

section

variable {lines : List Line} {head : String} {x : Name}

/-- A name in front of sections that may be left out. -/
theorem TakesLines.named (heads : List String) (hx : f[i]? = some (toNode x)) (hhead : IsTitle head)
    (hh : h.TakesLines (f.map Node.rendering) 0 lineGap lines (Begins heads)) :
    TakesBlock (pair (Grammar.form head (symbol .name)) h) (f.map Node.rendering)
      (.form head (.leaf i) :: lines) := by
  obtain ⟨sections, hlines, hends, -, hread⟩ := hh
  obtain ⟨hline, hreturn, hname⟩ := named_section hx hhead
  exact ⟨_, .cons hline hlines, by simp, List.forall_mem_cons.2 ⟨hreturn, hends⟩,
    (ReadsParts.sections hname hread).mono fun _ _ => trivial⟩

/-- A name in front of another one. -/
theorem TakesBlock.named (hx : f[i]? = some (toNode x)) (hhead : IsTitle head)
    (hh : h.TakesBlock (f.map Node.rendering) lines) :
    TakesBlock (pair (form head (symbol .name)) h) (f.map Node.rendering)
      (.form head (.leaf i) :: lines) := by
  obtain ⟨sections, hlines, -, hends, hread⟩ := hh
  obtain ⟨hline, hreturn, hname⟩ := named_section hx hhead
  exact ⟨_, .cons hline hlines, by simp, List.forall_mem_cons.2 ⟨hreturn, hends⟩,
    (ReadsParts.pair hname hread).mono fun _ _ => trivial⟩

theorem TakesBlock.rereadsWhole {k : Kind} (hk : k.layout = .block "define" none lines)
    (hg : g.TakesBlock (f.map Node.rendering) lines) :
    RereadsWhole (padded (form "define" g)) (.form k f) := by
  obtain ⟨sections, hlines, hne, hends, hread⟩ := hg
  have hdefine : IsTitle "define" := isTitle (by decide)
  exact ⟨_, Node.render_block hk hlines hne,
    not_mem_enclose (by decide) hdefine.clean.lineEnds hends,
    fun hr levels b => (recovers_form hdefine.head hread).look_padded hr levels b⟩

end

theorem RereadsWhole.map {k : α → β} {n : Node} :
    g.RereadsWhole n → RereadsWhole (k <$> g) n := fun ⟨s, hs, hends, hg⟩ =>
  ⟨s, hs, hends, fun hr levels b => by
    rw [look_map]
    exact (hg hr levels b).andThen fun _ _ _ => Finding.leaves_found trivial⟩

/-- What is found where there is something holds where nothing is written instead. -/
theorem forall_mem_getD {a? : Option (List α)} {p : α → Prop} (h : ∀ as ∈ a?, ∀ a ∈ as, p a) :
    ∀ a ∈ a?.getD [], p a := by
  cases a? with
  | none => simp
  | some as => exact h as rfl

/-- A typed list that is found, or no items. -/
theorem items_getD [ToNode α] {d : TypeSpec} (hd : d.IsWritable) {l? : Option (TypedList α)}
    (h : ∀ l ∈ l?, Finds (itemsOf d g) text levels l) :
    (l?.getD {}).IsWritable ∧ ∀ x ∈ (l?.getD {}).items, g.Finds text levels x.value := by
  cases l? with
  | none => exact ⟨by simp [TypedList.IsWritable], by simp⟩
  | some l => exact Finds.itemsOf hd (h l rfl)

theorem isWhole_skeleton (s : FunctionSkeleton) : IsWhole (spelling s) :=
  isWhole_applied s.symbol
    (isClean_itemParts (fun v : Variable => (isWhole_symbol v).toIsClean) .object s.parameters)

theorem Finds.writable_functionSkeleton {s : FunctionSkeleton}
    (h : Finds functionSkeleton text levels s) : s.parameters.IsWritable := by
  obtain ⟨⟨f, vs⟩, hx, rfl⟩ := h.map
  exact (Finds.itemsOf (d := .object) trivial hx.parens.headed.2).1

/-- What the sections of a domain hold, where it is found. -/
structure FindsDomain (text : List Char) (levels : Nat) (d : Domain) : Prop where
  types : d.types.IsWritable
  constants : d.constants.IsWritable
  predicates : ∀ p ∈ d.predicates, Finds predicateSkeleton text levels p
  functions : d.functions.IsWritable
  skeletons : ∀ f ∈ d.functions.items, f.value.parameters.IsWritable
  constraints : d.constraints = .conj [] ∨ Finds Rule.constraint text levels d.constraints
  definitions : ∀ e ∈ d.definitions, Finds definition text levels e

theorem Finds.domain {d : Domain} (h : Finds Rule.domain text levels d) :
    FindsDomain text levels d := by
  obtain ⟨⟨name, parents, requirements, types, constants, predicates, timeless, functions,
    constraints, definitions⟩, hx, rfl⟩ := h.map
  obtain ⟨-, h⟩ := hx.padded.form.pair
  obtain ⟨-, h⟩ := h.seq
  obtain ⟨-, h⟩ := h.seq
  obtain ⟨htypes, h⟩ := h.seq
  obtain ⟨hconstants, h⟩ := h.seq
  obtain ⟨hpredicates, h⟩ := h.seq
  obtain ⟨-, h⟩ := h.seq
  obtain ⟨hfunctions, h⟩ := h.seq
  obtain ⟨hconstraints, hdefinitions⟩ := h.seq
  have hfunctions : (functions.getD {}).IsWritable ∧
      ∀ f ∈ (functions.getD {}).items, Finds functionSkeleton text levels f.value :=
    items_getD (d := .number) trivial fun l hl => (hfunctions.optional l hl).form
  refine ⟨?_, ?_, ?_, hfunctions.1, fun f hf => (hfunctions.2 f hf).writable_functionSkeleton, ?_, ?_⟩
  · exact (items_getD (d := .object) trivial fun l hl => (htypes.optional l hl).form).1
  · exact (items_getD (d := .object) trivial fun l hl => (hconstants.optional l hl).form).1
  · exact forall_mem_getD fun ps hps => (hpredicates.optional ps hps).form.many1.2
  · cases constraints with
    | none => exact .inl rfl
    | some c => exact .inr (hconstraints.optional c rfl).form
  · exact forall_mem_getD fun ds hds => (hdefinitions.optional ds hds).many

/-- **Every domain that is found is taken again.** -/
theorem Finds.rereads_domain {d : Domain} (h : Finds Rule.domain text levels d) :
    RereadsWhole Rule.domain (toNode d) := by
  have hsections := h.domain
  have hparents : ∀ n ∈ d.parents.map toNode, Rereads (symbol .name) n :=
    List.forall_mem_map.2 fun n _ => rereads_symbol n
  have hpredicates : ∀ n ∈ d.predicates.map toNode, Rereads predicateSkeleton n :=
    List.forall_mem_map.2 fun p hp => (hsections.predicates p hp).rereads_predicateSkeleton
  have htimeless : ∀ n ∈ d.timeless.map toNode, Rereads groundLiteral n :=
    List.forall_mem_map.2 fun l _ => rereads_groundLiteral l
  have hconstraints : Rereads Rule.constraint (toNode d.constraints) := by
    rcases hsections.constraints with hnone | hfound
    · rw [hnone]
      exact .callAlternative 0 rfl rfl (rereads_all rfl (isTitle (by decide))
        (rereadsParts_nil fun _ => misses_close rfl)).map
    · exact hfound.rereads_constraint
  refine RereadsWhole.map (TakesBlock.rereadsWhole (k := .domain) rfl
    (TakesLines.named ([":extends", ":requirements", ":types", ":constants", ":predicates", ":timeless",
      ":functions", ":constraints"] ++ definitionHeads) rfl (isTitle (by decide)) ?_))
  refine .offered (Line.offers_members rfl (isTitle (by decide)) hparents misses_close_name)
    (fun _ hps => misses_form_of_begins (by decide) (by decide) hps) ?_
  refine .offered (Line.offers_requirements rfl)
    (fun _ hps r => .map (misses_form_of_begins (by decide) (by decide) hps r)) ?_
  refine .offered (Line.offers_items .object rfl (isTitle (by decide)) (.symbol .type) hsections.types
    (by simp) fun t => (isWhole_symbol t).toIsClean)
    (fun _ hps => misses_form_of_begins (by decide) (by decide) hps) ?_
  refine .offered (Line.offers_items .object rfl (isTitle (by decide)) (.symbol .name) hsections.constants
    (by simp) fun n => (isWhole_symbol n).toIsClean)
    (fun _ hps => misses_form_of_begins (by decide) (by decide) hps) ?_
  refine .offered (Line.offers_members rfl (isTitle (by decide)) hpredicates
    fun _ => misses_close rfl)
    (fun _ hps => misses_form_of_begins (by decide) (by decide) hps) ?_
  refine .offered (Line.offers_members rfl (isTitle (by decide)) htimeless fun _ => misses_close rfl)
    (fun _ hps => misses_form_of_begins (by decide) (by decide) hps) ?_
  refine .offered (Line.offers_items .number rfl (isTitle (by decide)) .functionSkeleton
    hsections.functions hsections.skeletons fun f => (isWhole_skeleton f).toIsClean)
    (fun _ hps => misses_form_of_begins (by decide) (by decide) hps) ?_
  exact .offered (Line.offers_unlessSame rfl (isTitle (by decide)) hconstraints)
    (fun _ hps => misses_form_of_begins (by decide) (by decide) hps)
    (takesLines_definitions rfl fun e he => (hsections.definitions e he).rereads_definition)

/-! ### Problems -/

/-- What the sections of a problem hold, where it is found. -/
structure FindsProblem (text : List Char) (levels : Nat) (p : Problem) : Prop where
  objects : p.objects.IsWritable
  init : ∀ f ∈ p.init, Finds initialFact text levels f
  goal : Finds Rule.preconditions text levels p.goal
  constraints : p.constraints = .conj [] ∨
    Finds Rule.preferredConstraint text levels p.constraints
  metric : ∀ m ∈ p.metric, Finds Rule.metric text levels m

theorem Finds.problemSections {p : Problem} (h : Finds Rule.problem text levels p) :
    FindsProblem text levels p := by
  obtain ⟨⟨name, domain, requirements, objects, init, goal, constraints, metric, length⟩, hx, rfl⟩ :=
    h.map
  obtain ⟨-, h⟩ := hx.padded.form.pair
  obtain ⟨-, h⟩ := h.pair
  obtain ⟨-, h⟩ := h.seq
  obtain ⟨hobjects, h⟩ := h.seq
  obtain ⟨hinit, h⟩ := h.seq
  obtain ⟨hgoal, h⟩ := h.seq
  obtain ⟨hconstraints, h⟩ := h.seq
  obtain ⟨hmetric, -⟩ := h.seq
  refine ⟨?_, hinit.separated.form.many, hgoal.separated.form, ?_, hmetric.optional⟩
  · exact (items_getD (d := .object) trivial fun l hl => (hobjects.optional l hl).form).1
  · cases constraints with
    | none => exact .inl rfl
    | some c => exact .inr (hconstraints.optional c rfl).form

/-- A bound on the length of plans is written without carriage returns. -/
theorem not_mem_length (l : LengthBounds) : '\r' ∉ spelling l := by
  have hbound : ∀ {keyword : String} (n? : Option Nat), '\r' ∉ keyword.toList →
      ∀ p ∈ (boundText keyword n?).toList, '\r' ∉ p := by
    rintro keyword n? hk p hp
    obtain ⟨n, rfl, rfl⟩ := Option.map_eq_some_iff.1 (Option.mem_toList.1 hp)
    refine not_mem_oneLine hk (List.forall_mem_singleton.2 fun hr => ?_)
    exact absurd (isDigit_of_mem_toDigits hr) (by decide)
  refine not_mem_oneLine (by decide) ?_
  rw [List.forall_mem_append]
  exact ⟨hbound _ (by decide), hbound _ (by decide)⟩

/-- What is asked of plans, and what they are measured by, at the end of a problem. -/
theorem takesLines_plans {p : Problem} (hconstraints : preferredConstraint.Rereads (toNode p.constraints))
    (hmetric : ∀ m ∈ p.metric, metric.Rereads (toNode m)) :
    TakesLines
      (.seq (optional problemConstraints) (.seq (optional metric) (optional length)))
      (p.fields.map Node.rendering) 0 lineGap
      [.form ":constraints" (.unlessSame 6 (.form .preferenceAnd [.nothing])), .bare (.given 7),
        .bare (.given 8)]
      (Begins [":constraints", ":metric", ":length"]) := by
  have hmetric : (Line.bare (.given 7)).Offers (p.fields.map Node.rendering) ":metric" metric :=
    Line.offers_given rfl nofun (fun _ => ⟨_, rfl⟩) fun m hm =>
      ⟨(hmetric m hm).spelling.1.lineEnds, (hmetric m hm).spelling.2⟩
  have hlength : (Line.bare (.given 8)).Offers (p.fields.map Node.rendering) ":length" length :=
    Line.offers_given rfl nofun (fun _ => ⟨_, rfl⟩) fun l _ =>
      ⟨not_mem_length l, (recovers_length l).mono fun _ _ => trivial⟩
  have hmeasures := TakesLines.offered hmetric
    (fun _ hps r => .map (misses_form_of_begins (by decide) (by decide) hps r))
    (.offered_last hlength fun _ => .map misses_close_parens)
  exact .offered (Line.offers_unlessSame rfl (isTitle (by decide)) hconstraints)
    (fun _ hps => misses_form_of_begins (by decide) (by decide) hps) hmeasures

/-- **Every problem that is found is taken again.** -/
theorem Finds.rereads_problem {p : Problem} (h : Finds Rule.problem text levels p) :
    RereadsWhole Rule.problem (toNode p) := by
  have hsections := h.problemSections
  have hconstraints : Rereads Rule.preferredConstraint (toNode p.constraints) := by
    rcases hsections.constraints with hnone | hfound
    · rw [hnone]
      exact .callAlternative 0 rfl rfl (rereads_all rfl (isTitle (by decide))
        (rereadsParts_nil fun _ => misses_close rfl)).map
    · exact hfound.rereads_preferredConstraint
  obtain ⟨ws, hws, hfacts, hinit⟩ := rereadsParts_many (g := Rule.initialFact)
    (List.forall_mem_map.2 fun f hf => (hsections.init f hf).rereads_initialFact)
    fun _ => misses_close rfl
  obtain ⟨s, hs, hwhole, hgoal⟩ := hsections.goal.rereads_preconditions
  have hfacts : ∀ w ∈ ws, '\r' ∉ w := fun w hw => (hfacts w hw).lineEnds
  have hwhole : ∀ p ∈ [s], '\r' ∉ p := List.forall_mem_singleton.2 hwhole.lineEnds
  have hplans := takesLines_plans hconstraints fun m hm => (hsections.metric m hm).rereads_metric
  refine RereadsWhole.map (TakesBlock.rereadsWhole (k := .problem) rfl
    (.named rfl (isTitle (by decide)) (TakesLines.named [":requirements", ":objects", ":init"] rfl
      (isTitle (by decide)) ?_)))
  refine .offered (Line.offers_requirements rfl)
    (fun _ hps r => .map (misses_form_of_begins (by decide) (by decide) hps r)) ?_
  exact .offered (Line.offers_items .object rfl (isTitle (by decide)) (.symbol .name)
    hsections.objects (by simp) fun n => (isWhole_symbol n).toIsClean)
    (fun _ hps => misses_form_of_begins (by decide) (by decide) hps)
    ((hplans.form (Line.gives_always (words_field rfl hs)) (isTitle (by decide)) hwhole
      (.one isGap_blank hgoal)).form (Line.gives_always (words_members rfl hws))
      (isTitle (by decide)) hfacts hinit)

end Rule

end Pddl
