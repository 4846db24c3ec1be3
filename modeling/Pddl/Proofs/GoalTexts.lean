import Pddl.Proofs.Preconditions

/-!
# Goals and preconditions are read back

A goal is read by the first form that its text fits.  Which forms these are is decided by the head
word and, where that is the keyword of several of them, by the parts; that is what regular goals are
about.

* `Goal.spelling`, `Precondition.spelling` : the texts of goals and preconditions; preferences and
  lists of preconditions are spelled by instances.
* `Rule.decides_goal`, `Rule.decides_preconditions` : what a text with a name at its head is taken
  for.
* `Rule.recovers_goal`, `Rule.recovers_preconditions` : **all regular goals and preconditions are
  read back from their texts.**
-/

namespace Pddl

/-! ### Texts -/

namespace Goal

mutual

/-- The text of a goal. -/
def spelling : Goal → List Char
  | atom f => Pddl.spelling f
  | literal l => Pddl.spelling l
  | conj gs => oneLine "and" (spellings gs)
  | disj gs => oneLine "or" (spellings gs)
  | neg g => oneLine "not" [g.spelling]
  | imply p c => oneLine "imply" [p.spelling, c.spelling]
  | existential vs g => oneLine "exists" [enclosedItems vs, g.spelling]
  | universal vs g => oneLine "forall" [enclosedItems vs, g.spelling]
  | compare c => Pddl.spelling c

/-- The texts of several goals. -/
def spellings : List Goal → List (List Char)
  | [] => []
  | g :: gs => g.spelling :: spellings gs

end

theorem spellings_eq_map (gs : List Goal) : spellings gs = gs.map spelling := by
  induction gs with
  | nil => rfl
  | cons g gs ih => rw [spellings, ih, List.map_cons]

mutual

theorem render_toNode : ∀ g : Goal, (toNode g).render = .ok (String.ofList g.spelling)
  | atom f => Spelled.render_toNode f
  | literal l => Spelled.render_toNode l
  | conj gs => Node.render_members (k := .conjunction) rfl (render_toNodes gs)
  | disj gs => Node.render_members (k := .disjunction) rfl (render_toNodes gs)
  | neg g => Node.render_plain (k := .negation) rfl (.cons (render_toNode g) .nil)
  | imply p c =>
    Node.render_plain (k := .implication) rfl
      (.cons (render_toNode p) (.cons (render_toNode c) .nil))
  | existential vs g => Node.render_quantified (k := .existential) rfl vs (render_toNode g)
  | universal vs g => Node.render_quantified (k := .universal) rfl vs (render_toNode g)
  | compare c => Spelled.render_toNode c

theorem render_toNodes : ∀ gs : List Goal,
    List.Forall₂ (fun n w => n.render = .ok (String.ofList w)) (Goal.toNodes gs) (spellings gs)
  | [] => .nil
  | g :: gs => .cons (render_toNode g) (render_toNodes gs)

end

instance : Spelled Goal := ⟨spelling, render_toNode⟩

theorem spelling_conj (gs : List Goal) :
    Pddl.spelling (conj gs) = oneLine "and" (gs.map Pddl.spelling) := by
  rw [← show spellings gs = gs.map Pddl.spelling from spellings_eq_map gs]
  rfl

theorem spelling_disj (gs : List Goal) :
    Pddl.spelling (disj gs) = oneLine "or" (gs.map Pddl.spelling) := by
  rw [← show spellings gs = gs.map Pddl.spelling from spellings_eq_map gs]
  rfl

end Goal

/-- A preference, perhaps with a name. -/
theorem Node.render_preference {k : Kind}
    (hk : k.layout = .form (.word "preference") [.given 0, .field 1]) {α : Type} [ToNode α]
    [Spelled α] (n : Option PreferenceName) (a : α) :
    (form k [toNode n, toNode a]).render =
      .ok (String.ofList (oneLine "preference" (n.toList.map spelling ++ [spelling a]))) := by
  have hname : ∀ n : PreferenceName, toNode n ≠ .absent := by
    rintro n ⟨⟩
  have hgiven := words_given (f := [toNode n, toNode a]) (i := 0) rfl hname
  have h := render_form hk (.cons hgiven (.cons (words_field_toNode rfl) .nil))
  rwa [List.flatten_cons, List.flatten_singleton] at h

instance : Spelled PreferredGoal where
  spelling
    | .required g => spelling g
    | .preferred n g => oneLine "preference" (n.toList.map spelling ++ [spelling g])
  render_toNode g := by
    cases g with
    | required g => exact Spelled.render_toNode g
    | preferred n g => exact Node.render_preference (k := .preference) rfl n g

namespace Precondition

mutual

/-- The text of a precondition. -/
def spelling : Precondition → List Char
  | goal g => Pddl.spelling g
  | universal vs qs => oneLine "forall" [enclosedItems vs, loneOr "and" (spellings qs)]

/-- The texts of several preconditions. -/
def spellings : List Precondition → List (List Char)
  | [] => []
  | q :: qs => q.spelling :: spellings qs

end

theorem spellings_eq_map (qs : List Precondition) : spellings qs = qs.map spelling := by
  induction qs with
  | nil => rfl
  | cons q qs ih => rw [spellings, ih, List.map_cons]

mutual

theorem render_toNode : ∀ q : Precondition, (toNode q).render = .ok (String.ofList q.spelling)
  | goal g => Spelled.render_toNode g
  | universal vs qs =>
    Node.render_quantified (k := .preconditionForall) rfl vs
      (render_loneOr (k := .preconditions) rfl (render_toNodes qs))

theorem render_toNodes : ∀ qs : List Precondition,
    List.Forall₂ (fun n w => n.render = .ok (String.ofList w)) (Precondition.toNodes qs)
      (spellings qs)
  | [] => .nil
  | q :: qs => .cons (render_toNode q) (render_toNodes qs)

end

instance : Spelled Precondition := ⟨spelling, render_toNode⟩

theorem spelling_universal (vs : TypedList Variable) (qs : List Precondition) :
    Pddl.spelling (universal vs qs) =
      oneLine "forall" [enclosedItems vs, loneOr "and" (qs.map Pddl.spelling)] := by
  rw [← show spellings qs = qs.map Pddl.spelling from spellings_eq_map qs]
  rfl

end Precondition

instance : Spelled Preconditions where
  spelling ps := loneOr "and" (ps.goals.map spelling)
  render_toNode ps := by
    have h := render_loneOr (k := .preconditions) rfl (Precondition.render_toNodes ps.goals)
    rwa [Precondition.spellings_eq_map] at h

/-! ### Goals with a name at the head -/

namespace Rule

open Grammar

variable {head w : String} {parts : List (List Char)} {q : Prop}

theorem missesText_var_oneLine (parts : List (List Char)) :
    MissesText (symbol .var) (oneLine head parts) :=
  fun _ _ => misses_var (by simp [oneLine, enclose])

/-- A name with terms is a term. -/
theorem decides_term (hn : isName head.toList = true) (ht : Fits (many term) [' '] parts q) :
    term.Decides (oneLine head parts) q :=
  have hf := decides_headed_of_fits (recovers_symbol_of_isName .function rfl hn) ht
  decides_call (.behind (missesText_var_oneLine parts).map
    (.orElse hf.map.map (.inr ⟨hf.solid, (misses_symbol_oneLine rfl parts).map⟩)))

theorem missesText_equality {α : Type} {g : Rule α} (hn : isName head.toList = true) :
    MissesText (form "=" g) (oneLine head parts) := by
  refine missesText_form_of_isName (by decide) hn ?_ parts
  rintro rfl
  exact absurd hn (by decide)

/-- A name with terms is an atomic formula. -/
theorem decides_atomicFormula (hn : isName head.toList = true)
    (ht : Fits (many term) [' '] parts q) : atomicFormula.Decides (oneLine head parts) q :=
  .behind (missesText_equality hn).map
    (decides_headed_of_fits (recovers_symbol_of_isName .predicate rfl hn) ht).map

theorem missesText_comparison (hn : isName head.toList = true) (parts : List (List Char)) :
    MissesText comparison (oneLine head parts) :=
  (missesText_operation (fun a => by cases a <;> decide) hn parts).map

/-- What a text with a name at its head is taken for where a goal is expected. -/
theorem decides_goal (hn : isName head.toList = true)
    (hlist : head = "and" ∨ head = "or" → Fits (many goal) [' '] parts q)
    (hnot : head = "not" → Fits goal [' '] parts q)
    (himply : head = "imply" → Fits (pair goal goal) [' '] parts q)
    (hbound : head = "exists" ∨ head = "forall" → Fits (pair parameters goal) [' '] parts q)
    (hliteral : head = "not" → Fits atomicFormula [' '] parts q)
    (ht : Fits (many term) [' '] parts q) : goal.Decides (oneLine head parts) q := by
  have hatom := decides_atomicFormula hn ht
  exact decides_call (.orElse (decides_form_of_isName (by decide) hn (hlist ∘ .inl)).map
    (.orElse (decides_form_of_isName (by decide) hn (hlist ∘ .inr)).map
    (.orElse (decides_form_of_isName (by decide) hn hnot).map
    (.orElse (decides_form_of_isName (by decide) hn himply).map
    (.orElse (decides_form_of_isName (by decide) hn (hbound ∘ .inl)).map
    (.orElse (decides_form_of_isName (by decide) hn (hbound ∘ .inr)).map
    (.orElse hatom.map
    (.orElse (.map (.orElse (decides_form_of_isName (by decide) hn hliteral).map hatom.map))
    (.inr ⟨hatom.solid, (missesText_comparison hn parts).map⟩)))))))))

/-! ### Terms where goals are expected -/

theorem isSolid_spelling (t : Term) : IsSolid (spelling t) := (recovers_term t).solid

/-- What begins with a parenthesis is missing in front of a name or a variable. -/
theorem missesText_of_not_isApplied {α : Type} {g : Rule α} (hg : g.opens = true) {t : Term}
    (ht : ¬t.IsApplied) : MissesText g (spelling t) := by
  cases t with
  | name n =>
    obtain ⟨c, hc, hs⟩ := head?_written rfl n []
    refine missesText_of_opens hg (isSolid_spelling _) ?_
    rw [show spelling (Term.name n) = n.written.toList ++ [] from (List.append_nil _).symm, hc]
    rintro ⟨⟩
    exact absurd hs (by decide)
  | var v =>
    refine missesText_of_opens hg (isSolid_spelling _) ?_
    rw [show spelling (Term.var v) = v.written.toList from rfl, Symbol.written, String.toList_append]
    rintro ⟨⟩
  | apply f ts => exact absurd trivial ht

/-- Terms are no parameters. -/
theorem decides_parameters (t : Term) : Decides parameters (spelling t) False := by
  refine .inr ⟨isSolid_spelling t, ?_⟩
  by_cases ht : t.IsApplied
  · cases t with
    | apply f ts =>
      rw [Term.spelling_apply]
      obtain ⟨c, hc, hs⟩ := head?_written rfl f []
      refine missesText_parameters (recovers_symbol f).solid ?_ _
      rw [List.append_nil] at hc
      rw [hc]
      rintro ⟨⟩
      exact absurd hs (by decide)
    | _ => exact ht.elim
  · exact missesText_of_not_isApplied rfl ht

theorem decides_term_spelling (t : Term) : term.Decides (spelling t) True :=
  (recovers_term t).decides trivial

theorem fits_terms (ts : List Term) (hq : q) : Fits (many term) [' '] (ts.map spelling) q :=
  (fits_many isGap_blank (fun t _ => decides_term_spelling t) fun _ => misses_close_term).mono
    fun _ => hq

/-- An applied term is an atomic formula. -/
theorem decides_atomicFormula_spelling (t : Term) :
    atomicFormula.Decides (spelling t) t.IsApplied := by
  cases t with
  | apply f ts =>
    rw [Term.spelling_apply]
    exact decides_atomicFormula (isName_written rfl f) (fits_terms ts trivial)
  | name n => exact .inr ⟨isSolid_spelling _, missesText_of_not_isApplied rfl id⟩
  | var v => exact .inr ⟨isSolid_spelling _, missesText_of_not_isApplied rfl id⟩

/-- Where the quantified construct is expected behind parameters, terms do not fit. -/
theorem fits_bound {α : Type} {g : Rule α} {ts : List Term} :
    Fits (pair parameters g) [' '] (ts.map spelling) q := by
  rcases ts with _ | ⟨t, ts⟩
  · exact .inr (stallsAt_nil isGap_blank fun _ => misses_close_parens.pair)
  · exact .inr (stallsAt_of_missesText isGap_blank (isSolid_spelling t)
      (fun r hr => ((decides_parameters t).missesText id r hr).pair) _)

/-- Two terms fit a pair. -/
theorem fits_pair_map {α : Type} {g : Rule α} {ts : List Term} {p : Term → Prop}
    (hg : ∀ t ∈ ts, g.Decides (spelling t) (p t)) (hclose : ∀ r, g.Misses (')' :: r))
    (hq : ∀ s t, ts = [s, t] → p s → p t → q) :
    Fits (pair g g) [' '] (ts.map spelling) q := by
  rcases ts with _ | ⟨s, _ | ⟨t, _ | ⟨u, us⟩⟩⟩
  · exact .inr (stallsAt_nil isGap_blank fun r => (hclose r).pair)
  · exact .inr (stallsAt_pair (hg s (by simp)) (stallsAt_nil isGap_blank hclose))
  · refine (fits_pair isGap_blank (p := p s) ?_
      (fits_one isGap_blank (p := p t) ?_ hclose) hclose).mono fun h => hq s t rfl h.1 h.2
    · simpa using hg s (by simp)
    · simpa using hg t (by simp)
  · exact .inr (stallsAt_pair (hg s (by simp))
      (stallsAt_long isGap_blank (hg t (by simp)) (hg u (by simp)).solid _))

/-- One term fits. -/
theorem fits_one_map {α : Type} {g : Rule α} {ts : List Term} {p : Term → Prop}
    (hg : ∀ t ∈ ts, g.Decides (spelling t) (p t)) (hclose : ∀ r, g.Misses (')' :: r))
    (hq : ∀ t, ts = [t] → p t → q) : Fits g [' '] (ts.map spelling) q := by
  rcases ts with _ | ⟨s, _ | ⟨t, ts⟩⟩
  · exact .inr (stallsAt_nil isGap_blank hclose)
  · refine fits_one isGap_blank ?_ hclose
    simpa using (hg s (by simp)).mono (hq s rfl)
  · exact .inr (stallsAt_long isGap_blank (hg s (by simp)) (hg t (by simp)).solid _)

theorem misses_close_goal (r : List Char) : Misses goal (')' :: r) := misses_close rfl

theorem misses_close_atomicFormula (r : List Char) : Misses atomicFormula (')' :: r) :=
  misses_close rfl

/-- **An applied term is a goal.** -/
theorem decides_goal_spelling (t : Term) : goal.Decides (spelling t) t.IsApplied := by
  induction t using Term.induction with
  | name n => exact .inr ⟨isSolid_spelling _, missesText_of_not_isApplied rfl id⟩
  | var v => exact .inr ⟨isSolid_spelling _, missesText_of_not_isApplied rfl id⟩
  | apply f ts ih =>
    rw [Term.spelling_apply]
    refine decides_goal (isName_written rfl f) (fun _ => ?_) (fun _ => ?_) (fun _ => ?_)
      (fun _ => fits_bound) (fun _ => ?_) (fits_terms ts trivial)
    · exact (fits_many isGap_blank ih misses_close_goal).mono fun _ => trivial
    · exact fits_one_map ih misses_close_goal fun _ _ _ => trivial
    · exact fits_pair_map ih misses_close_goal fun _ _ _ _ _ => trivial
    · exact fits_one_map (fun t _ => decides_atomicFormula_spelling t) misses_close_atomicFormula
        fun _ _ _ => trivial

/-! ### Formulas and comparisons -/

theorem isHead_and : IsHead "and" := isHead_of_isWord (by decide)

theorem isHead_or : IsHead "or" := isHead_of_isWord (by decide)

theorem isHead_imply : IsHead "imply" := isHead_of_isWord (by decide)

theorem isHead_exists : IsHead "exists" := isHead_of_isWord (by decide)

theorem isHead_forall : IsHead "forall" := isHead_of_isWord (by decide)

theorem isHead_preference : IsHead "preference" := isHead_of_isWord (by decide)

/-- A form with another head word is passed over. -/
theorem Recovers.behindForm {α β : Type} {f : β → α} {g : Rule β} {h : Rule α} {P : α → Prop}
    (hhead : IsHead head) (hw : IsPlainWord w ∧ Apart w head.toList = true)
    (hh : h.Recovers (oneLine head parts) P) :
    Recovers (f <$> form w g <|> h) (oneLine head parts) P :=
  .behind (missesText_form hw.1 hhead.solid hw.2 parts).map hh

theorem missesText_term_number {x : Number} (hx : x.negative = false) :
    MissesText term (spelling x) := by
  intro r _
  obtain ⟨c, hc, hdigit⟩ := head?_number hx r
  refine misses_term_of_head ?_ ?_ ?_ <;> rw [hc]
  · rintro ⟨⟩
    exact absurd hdigit (by decide)
  · rintro ⟨⟩
    exact absurd hdigit (by decide)
  · exact isNameStart_of_isDigit hdigit

/-- An expression is a term only if it is a reference. -/
theorem decides_term_expression {e : NumericExpression} (he : e.IsRegular) :
    term.Decides (spelling e) e.IsReference := by
  have hoperation : ∀ (op : ArithmeticOp) (parts : List (List Char)) (p : Prop),
      term.Decides (oneLine (Vocabulary.keyword op) parts) p := fun op parts _ =>
    .inr ⟨isSolid_enclose _ _ _, missesText_term_of_operator
      (isHead_of_isWord (PlainVocabulary.isWord op)).solid (by cases op <;> decide) parts⟩
  cases he with
  | number hx => exact .inr ⟨(recovers_number hx).solid, missesText_term_number hx⟩
  | @reference f _ =>
    have h := recovers_term (.apply f.symbol f.arguments)
    rw [Term.spelling_apply] at h
    exact h.decides ⟨f, rfl⟩
  | binary op _ _ => exact hoperation op _ _
  | variadic op _ _ _ =>
    cases op with
    | times => exact hoperation .times _ _
    | plus => exact hoperation .plus _ _
  | negative _ => exact hoperation .minus _ _

theorem isSolid_comparator (c : Comparator) : IsSolid (Vocabulary.keyword c).toList :=
  (isHead_of_isWord (PlainVocabulary.isWord c)).solid

/-- A regular comparison is no formula. -/
theorem missesText_atomicFormula_comparison {c : Comparison} (hc : c.IsRegular) :
    MissesText atomicFormula (spelling c) := by
  have hpair : Fits (pair term term) [' '] [spelling c.left, spelling c.right]
      (c.left.IsReference ∧ c.right.IsReference) :=
    fits_pair isGap_blank (by simpa using decides_term_expression hc.left)
      (fits_one isGap_blank (by simpa using decides_term_expression hc.right)
        fun _ => misses_close_term) fun _ => misses_close_term
  -- no predicate has the name of a comparator
  refine .orElse (.map ?_) (missesText_headed_of_operator rfl (isSolid_comparator _)
    (by cases c.comparator <;> rfl) _).map
  · show MissesText (form "=" (pair term term))
      (oneLine (Vocabulary.keyword c.comparator) [spelling c.left, spelling c.right])
    by_cases heq : c.comparator = .equal
    · rw [heq]
      exact (decides_form_of_fits isHead_equality hpair).missesText (hc.noEquality heq)
    · refine missesText_form (by decide) (isSolid_comparator _) ?_ _
      cases hcomp : c.comparator <;> rw [hcomp] at heq <;> first | decide | exact absurd rfl heq

/-- Every regular comparison is read back. -/
theorem recovers_comparison {c : Comparison} (hc : c.IsRegular) :
    Recovers comparison (spelling c) (· = c) :=
  (recovers_pair_eq (recovers_keyword c.comparator)
    (.pair_eq (recovers_expression hc.left) (.one isGap_blank (recovers_expression hc.right)))).congr _

/-! ### Goals -/

/-- A formula is taken for a keyword form only if its arguments look like operands. -/
theorem missesText_keywords {p : Predicate} {ts : List Term} (h : ¬FitsKeyword p.text ts) :
    MissesText (form "and" (many goal)) (oneLine p.text (ts.map spelling)) ∧
      MissesText (form "or" (many goal)) (oneLine p.text (ts.map spelling)) ∧
      MissesText (form "not" goal) (oneLine p.text (ts.map spelling)) ∧
      MissesText (form "imply" (pair goal goal)) (oneLine p.text (ts.map spelling)) := by
  have hgoal : ∀ t ∈ ts, goal.Decides (spelling t) t.IsApplied := fun t _ => decides_goal_spelling t
  have hmany := fits_many isGap_blank hgoal misses_close_goal
  refine ⟨?_, ?_, ?_, ?_⟩
  · exact (decides_form_of_isName (by decide) p.valid fun hp =>
      hmany.mono fun hts => hp ▸ FitsKeyword.and hts).missesText h
  · exact (decides_form_of_isName (by decide) p.valid fun hp =>
      hmany.mono fun hts => hp ▸ FitsKeyword.or hts).missesText h
  · exact (decides_form_of_isName (by decide) p.valid fun hp =>
      fits_one_map hgoal misses_close_goal fun t hts ht => by
        rw [hp, hts]
        exact FitsKeyword.not ht).missesText h
  · exact (decides_form_of_isName (by decide) p.valid fun hp =>
      fits_pair_map hgoal misses_close_goal fun s t hts hs ht => by
        rw [hp, hts]
        exact FitsKeyword.imply hs ht).missesText h

/-- **Every regular goal is read back from its text.** -/
theorem recovers_goal {g : Goal} (hg : g.IsRegular) : Recovers goal (spelling g) (· = g) := by
  refine recovers_call ?_
  induction hg with
  | @conj gs _ ih =>
    have hgs := readsParts_many_eq isGap_blank (fun g hg => recovers_call (ih g hg)) misses_close_goal
    rw [Goal.spelling_conj]
    exact .left ((recovers_form isHead_and hgs).congr _)
  | @disj gs _ ih =>
    have hgs := readsParts_many_eq isGap_blank (fun g hg => recovers_call (ih g hg)) misses_close_goal
    rw [Goal.spelling_disj]
    exact .behindForm isHead_or (by decide) (.left ((recovers_form isHead_or hgs).congr _))
  | neg _ ih =>
    exact .behindForm isHead_not (by decide) (.behindForm isHead_not (by decide)
      (.left ((recovers_form isHead_not (.one isGap_blank (recovers_call ih))).congr _)))
  | imply _ _ ihp ihc =>
    exact .behindForm isHead_imply (by decide) (.behindForm isHead_imply (by decide)
      (.behindForm isHead_imply (by decide) (.left ((recovers_form isHead_imply
        (.pair_eq (recovers_call ihp) (.one isGap_blank (recovers_call ihc)))).congr _))))
  | existential hvs _ ih =>
    have hparts := ReadsParts.pair_eq (recovers_parameters hvs) (.one isGap_blank (recovers_call ih))
    exact .behindForm isHead_exists (by decide) (.behindForm isHead_exists (by decide)
      (.behindForm isHead_exists (by decide) (.behindForm isHead_exists (by decide)
        (.left ((recovers_form isHead_exists hparts).congr _)))))
  | universal hvs _ ih =>
    have hparts := ReadsParts.pair_eq (recovers_parameters hvs) (.one isGap_blank (recovers_call ih))
    exact .behindForm isHead_forall (by decide) (.behindForm isHead_forall (by decide)
      (.behindForm isHead_forall (by decide) (.behindForm isHead_forall (by decide)
        (.behindForm isHead_forall (by decide) (.left ((recovers_form isHead_forall hparts).congr _))))))
  | equality l r =>
    have hatom := recovers_atomicFormulaOf (g := term) recovers_term
      (fun _ => misses_close_term) (.equality l r)
    exact .behindForm isHead_equality (by decide) (.behindForm isHead_equality (by decide)
      (.behindForm isHead_equality (by decide) (.behindForm isHead_equality (by decide)
        (.behindForm isHead_equality (by decide) (.behindForm isHead_equality (by decide)
          (.left (hatom.congr _)))))))
  | @predicate p ts h =>
    have hatom := recovers_atomicFormulaOf (g := term) recovers_term
      (fun _ => misses_close_term) (.predicate p ts)
    have htext : spelling (Goal.atom (.predicate p ts)) = oneLine p.text (ts.map spelling) :=
      AtomicFormula.spelling_predicate p ts
    have hbound : ∀ {w : String}, IsWord w →
        MissesText (quantified w goal) (oneLine p.text (ts.map spelling)) := fun hw =>
      (decides_form_of_isName hw p.valid fun _ => fits_bound).missesText id
    obtain ⟨hand, hor, hnot, himply⟩ := missesText_keywords h
    rw [htext]
    exact .behind hand.map (.behind hor.map (.behind hnot.map (.behind himply.map
      (.behind (hbound (by decide)).map (.behind (hbound (by decide)).map
        (.left (htext ▸ hatom.congr Goal.atom)))))))
  | @compare c hc =>
    have hform : ∀ {α : Type} {g : Rule α} {w : String}, IsWord w ∧ isName w.toList = true →
        MissesText (form w g) (spelling c) := fun hw =>
      missesText_form_of_operator hw.1 hw.2 (isSolid_comparator _) (by cases c.comparator <;> rfl) _
    have hatom := missesText_atomicFormula_comparison hc
    exact .behind (hform (by decide)).map (.behind (hform (by decide)).map
      (.behind (hform (by decide)).map (.behind (hform (by decide)).map
        (.behind (hform (by decide)).map (.behind (hform (by decide)).map
          (.behind hatom.map (.behind (.map (.orElse (hform (by decide)).map hatom.map))
            ((recovers_comparison hc).congr _))))))))

/-! ### Preconditions -/

theorem misses_close_preconditions (r : List Char) : Misses preconditions (')' :: r) :=
  misses_close rfl

/-- What a text with a name at its head is taken for where preconditions are expected. -/
theorem decides_preconditions (hn : isName head.toList = true)
    (hand : head = "and" → Fits (many preconditions) [' '] parts q)
    (hbound : head = "forall" → Fits (pair parameters preconditions) [' '] parts q)
    (hnamed : head = "preference" → Fits (pair (symbol .preference) goal) [' '] parts q)
    (hunnamed : head = "preference" → Fits goal [' '] parts q)
    (hgoal : goal.Decides (oneLine head parts) q) :
    preconditions.Decides (oneLine head parts) q :=
  decides_call (.orElse (decides_form_of_isName (by decide) hn hand).map
    (.orElse (decides_form_of_isName (by decide) hn hbound).map
    (.map (.orElse (decides_form_of_isName (by decide) hn hnamed).map
    (.orElse (decides_form_of_isName (by decide) hn hunnamed).map hgoal.map)))))

/-- Only a name is the name of a preference. -/
theorem decides_preference (t : Term) :
    Decides (symbol .preference) (spelling t) (∃ n, t = .name n) := by
  cases t with
  | name n =>
    exact (recovers_symbol (⟨n.text, n.valid⟩ : PreferenceName)).decides ⟨n, rfl⟩
  | var v =>
    refine .inr ⟨isSolid_spelling _, fun r _ => misses_symbol rfl ?_⟩
    rw [show spelling (Term.var v) = '?' :: v.text.toList by
      simp [spelling, Term.spelling, Symbol.written, SymbolKind.sigil, String.toList_append]]
    rfl
  | apply f ts =>
    rw [Term.spelling_apply]
    exact .inr ⟨isSolid_enclose _ _ _, misses_symbol_oneLine rfl _⟩

/-- Terms fit a preference only if they look like its parts. -/
theorem fits_preference {x : String} {ts : List Term} (hx : x = "preference") :
    Fits (pair (symbol .preference) goal) [' '] (ts.map spelling) (FitsPreference x ts) ∧
      Fits goal [' '] (ts.map spelling) (FitsPreference x ts) := by
  have hgoal : ∀ t ∈ ts, goal.Decides (spelling t) t.IsApplied := fun t _ => decides_goal_spelling t
  subst hx
  refine ⟨?_, fits_one_map hgoal misses_close_goal fun t hts ht => hts ▸ .unnamed ht⟩
  rcases ts with _ | ⟨s, ts⟩
  · exact .inr (stallsAt_nil isGap_blank fun _ => (misses_close_symbol rfl).pair)
  · have hmore : Fits goal [' '] (ts.map spelling) (∃ t, ts = [t] ∧ t.IsApplied) :=
      fits_one_map (fun t _ => decides_goal_spelling t) misses_close_goal
        fun t hts ht => ⟨t, hts, ht⟩
    refine (fits_pair isGap_blank (p := ∃ n, s = .name n) ?_ hmore
      fun _ => misses_close_symbol rfl).mono ?_
    · simpa using decides_preference s
    · rintro ⟨⟨n, rfl⟩, t, rfl, ht⟩
      exact .named ht

/-- Terms in front of which preconditions are expected are applied. -/
theorem decides_preconditions_spelling (t : Term) :
    preconditions.Decides (spelling t) t.IsApplied := by
  induction t using Term.induction with
  | name n => exact .inr ⟨isSolid_spelling _, missesText_of_not_isApplied rfl id⟩
  | var v => exact .inr ⟨isSolid_spelling _, missesText_of_not_isApplied rfl id⟩
  | apply f ts ih =>
    have hgoal := decides_goal_spelling (.apply f ts)
    rw [Term.spelling_apply] at hgoal ⊢
    exact decides_preconditions (isName_written rfl f)
      (fun _ => (fits_many isGap_blank ih misses_close_preconditions).mono fun _ => trivial)
      (fun _ => fits_bound) (fun hf => (fits_preference hf).1.mono fun _ => trivial)
      (fun hf => (fits_preference hf).2.mono fun _ => trivial) hgoal

/-- The text of a regular goal is a form. -/
theorem exists_oneLine {g : Goal} (hg : g.IsRegular) :
    ∃ head parts, spelling g = oneLine head parts := by
  cases hg with
  | conj _ => exact ⟨_, _, Goal.spelling_conj _⟩
  | disj _ => exact ⟨_, _, Goal.spelling_disj _⟩
  | _ => exact ⟨_, _, rfl⟩

/-- A single goal that is no predicate has a head word of its own. -/
theorem exists_head_of_isSingle {g : Goal} (hg : g.IsRegular) (hs : g.IsSingle)
    (hp : ∀ p ts, g ≠ .atom (.predicate p ts)) :
    ∃ head parts, spelling g = oneLine head parts ∧ IsHead head ∧ Apart "and" head.toList = true ∧
      Apart "forall" head.toList = true ∧ Apart "preference" head.toList = true := by
  cases hg with
  | equality l r => exact ⟨_, _, rfl, isHead_equality, by decide, by decide, by decide⟩
  | predicate _ => exact absurd rfl (hp _ _)
  | conj _ => exact hs.elim
  | disj _ => exact ⟨_, _, Goal.spelling_disj _, isHead_or, by decide, by decide, by decide⟩
  | neg _ => exact ⟨_, _, rfl, isHead_not, by decide, by decide, by decide⟩
  | imply _ _ => exact ⟨_, _, rfl, isHead_imply, by decide, by decide, by decide⟩
  | existential _ _ => exact ⟨_, _, rfl, isHead_exists, by decide, by decide, by decide⟩
  | universal _ _ => exact hs.elim
  | @compare c _ =>
    refine ⟨_, _, rfl, isHead_of_isWord (PlainVocabulary.isWord c.comparator), ?_, ?_, ?_⟩ <;>
      cases c.comparator <;> decide

/-- A preferred goal is a precondition where neither a conjunction nor a quantifier is. -/
theorem recovers_preconditions_of {s : List Char} {g : PreferredGoal}
    (hand : MissesText (form "and" (many preconditions)) s)
    (hbound : MissesText (quantified "forall" preconditions) s)
    (hg : Recovers preferredGoal s (· = g)) : Recovers preconditions s (·.goals = [.goal g]) :=
  recovers_call (.behind hand.map (.behind hbound.map (hg.map fun _ h => h ▸ rfl)))

/-- A single goal is read as a precondition. -/
theorem recovers_required {g : Goal} (hg : g.IsRegular) (hs : g.IsSingle) :
    Recovers preconditions (spelling g) (·.goals = [.goal (.required g)]) := by
  have hgoal := (recovers_goal hg).congr PreferredGoal.required
  by_cases hp : ∀ p ts, g ≠ .atom (.predicate p ts)
  · obtain ⟨head, parts, htext, hhead, hand, hforall, hpref⟩ := exists_head_of_isSingle hg hs hp
    rw [htext] at hgoal ⊢
    exact recovers_preconditions_of (missesText_form (by decide) hhead.solid hand parts)
      (missesText_form (by decide) hhead.solid hforall parts)
      (.behindForm hhead ⟨by decide, hpref⟩ (.behindForm hhead ⟨by decide, hpref⟩ hgoal))
  · simp only [ne_eq, not_forall, not_not] at hp
    obtain ⟨p, ts, rfl⟩ := hp
    have hfits : ¬FitsKeyword p.text ts := by
      cases hg
      assumption
    have htext : spelling (Goal.atom (.predicate p ts)) = oneLine p.text (ts.map spelling) :=
      AtomicFormula.spelling_predicate p ts
    rw [htext] at hgoal ⊢
    have hmany := fits_many isGap_blank (l := ts)
      (fun t _ => decides_preconditions_spelling t) misses_close_preconditions
    refine recovers_preconditions_of ?_ ?_ (.behind ?_ (.behind ?_ hgoal))
    · exact (decides_form_of_isName (by decide) p.valid fun hp =>
        hmany.mono fun hts => hp ▸ FitsKeyword.and hts).missesText hfits
    · exact (decides_form_of_isName (by decide) p.valid fun _ => fits_bound).missesText id
    · exact ((decides_form_of_isName (by decide) p.valid fun hp =>
        (fits_preference hp).1).missesText hs).map
    · exact ((decides_form_of_isName (by decide) p.valid fun hp =>
        (fits_preference hp).2).missesText hs).map

/-- A preference, with or without a name, is read back if what is preferred is. -/
theorem recovers_preference {α β : Type} [ToNode α] [Spelled α] {g : Rule α} {h : Rule β}
    {named : PreferenceName × α → β} {unnamed : α → β} {a : α} (hg : g.Recovers (spelling a) (· = a))
    (hform : ∃ head parts, spelling a = oneLine head parts) (n? : Option PreferenceName) :
    Recovers (named <$> form "preference" (pair (symbol .preference) g) <|>
        unnamed <$> form "preference" g <|> h)
      (oneLine "preference" (n?.toList.map spelling ++ [spelling a]))
      (· = match n? with | some n => named (n, a) | none => unnamed a) := by
  cases n? with
  | some n =>
    exact .left ((recovers_form isHead_preference
      (.pair_eq (recovers_symbol n) (.one isGap_blank hg))).congr _)
  | none =>
    -- a form does not begin with the name of a preference
    have hname : MissesText (symbol .preference) (spelling a) := by
      obtain ⟨head, parts, htext⟩ := hform
      rw [htext]
      exact misses_symbol_oneLine rfl parts
    exact .behind (missesText_form_of_stallsAt isHead_preference (stallsAt_of_missesText isGap_blank
        hg.solid (fun r hr => (hname r hr).pair) [])).map
      (.left ((recovers_form isHead_preference (.one isGap_blank hg)).congr _))

/-- A preference is read as a precondition. -/
theorem recovers_preferred (n : Option PreferenceName) {g : Goal} (hg : g.IsRegular) :
    Recovers preconditions (spelling (PreferredGoal.preferred n g))
      (·.goals = [.goal (.preferred n g)]) := by
  refine recovers_preconditions_of (missesText_form (by decide) isHead_preference.solid (by decide) _)
    (missesText_form (by decide) isHead_preference.solid (by decide) _) ?_
  cases n with
  | some n => exact recovers_preference (recovers_goal hg) (exists_oneLine hg) (some n)
  | none => exact recovers_preference (recovers_goal hg) (exists_oneLine hg) none

/-- Preconditions that are read one by one are read as a list. -/
theorem recovers_loneOr {qs : List Precondition}
    (hqs : ∀ q ∈ qs, Recovers preconditions (spelling q) (·.goals = [q])) :
    Recovers preconditions (loneOr "and" (qs.map spelling)) (·.goals = qs) := by
  have hjoin : ∀ {qs : List Precondition} {ps : List Preconditions},
      List.Forall₂ (fun q p => p.goals = [q]) qs ps → (Preconditions.join ps).goals = qs := by
    intro qs ps h
    induction h with
    | nil => rfl
    | @cons q p qs ps h _ ih =>
      show (p :: ps).flatMap Preconditions.goals = _
      rw [List.flatMap_cons, h, show ps.flatMap Preconditions.goals = qs from ih,
        List.singleton_append]
  have hlist : Recovers preconditions (oneLine "and" (qs.map spelling)) (·.goals = qs) :=
    recovers_call (.left ((recovers_form isHead_and
      (readsParts_many isGap_blank hqs misses_close_preconditions)).map fun _ h => hjoin h))
  rcases qs with _ | ⟨q, _ | ⟨q', qs⟩⟩
  · exact hlist
  · exact hqs q (by simp)
  · exact hlist

/-- A precondition is read as the only one. -/
theorem recovers_precondition {q : Precondition} (hq : q.IsRegular) :
    Recovers preconditions (spelling q) (·.goals = [q]) := by
  induction hq with
  | required hg hs => exact recovers_required hg hs
  | preferred n hg => exact recovers_preferred n hg
  | @universal vs qs hvs _ ih =>
    rw [Precondition.spelling_universal]
    refine recovers_call (.behindForm isHead_forall (by decide) (.left ?_))
    refine (recovers_form isHead_forall (.pair (recovers_parameters hvs)
      (.one isGap_blank (recovers_loneOr ih)))).map ?_
    rintro ⟨vs, ps⟩ ⟨rfl, rfl⟩
    rfl

/-- **All regular preconditions are read back from their text.** -/
theorem recovers_preconditions {ps : Preconditions} (hps : ps.IsRegular) :
    Recovers preconditions (spelling ps) (· = ps) :=
  (recovers_loneOr fun q hq => recovers_precondition (hps q hq)).mono fun p h => by
    cases p
    cases ps
    exact congrArg _ h

end Rule

end Pddl
