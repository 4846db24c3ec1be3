import Pddl.Proofs.GoalTexts
import Pddl.Proofs.Trajectories

/-!
# Constraints are read back

A regular constraint is read from its text by the form that it was written as.  An operand is tried
as a goal first, so the texts of constraints are followed through the rules of goals and of terms.

* `Constraint.spelling`, `Operand.spelling`, `PreferredConstraint.spelling` : the texts.
* `Rule.decides_term_goal`, `Rule.decides_term_constraint`, `Rule.decides_goal_constraint` :
  **only what looks like a term or a goal is read as one.**
* `Rule.recovers_constraint`, `Rule.recovers_preferredConstraint` : **all regular constraints are
  read back from their texts.**
-/

namespace Pddl

/-! ### Texts -/

mutual

/-- The text of a constraint. -/
def Constraint.spelling : Constraint → List Char
  | .conj cs => oneLine "and" (Constraint.spellings cs)
  | .universal vs c => oneLine "forall" [enclosedItems vs, c.spelling]
  | .atEnd g => oneLine "at end" [Pddl.spelling g]
  | .always o => oneLine "always" [o.spelling]
  | .sometime o => oneLine "sometime" [o.spelling]
  | .within x o => oneLine "within" [Pddl.spelling x, o.spelling]
  | .atMostOnce o => oneLine "at-most-once" [o.spelling]
  | .sometimeAfter o p => oneLine "sometime-after" [o.spelling, p.spelling]
  | .sometimeBefore o p => oneLine "sometime-before" [o.spelling, p.spelling]
  | .alwaysWithin x o p => oneLine "always-within" [Pddl.spelling x, o.spelling, p.spelling]
  | .holdDuring x y o => oneLine "hold-during" [Pddl.spelling x, Pddl.spelling y, o.spelling]
  | .holdAfter x o => oneLine "hold-after" [Pddl.spelling x, o.spelling]

/-- The text of an operand. -/
def Operand.spelling : Operand → List Char
  | .goal g => Pddl.spelling g
  | .constraint c => c.spelling

/-- The texts of several constraints. -/
def Constraint.spellings : List Constraint → List (List Char)
  | [] => []
  | c :: cs => c.spelling :: Constraint.spellings cs

end

theorem Constraint.spellings_eq_map (cs : List Constraint) : spellings cs = cs.map spelling := by
  induction cs with
  | nil => rfl
  | cons c cs ih => rw [spellings, ih, List.map_cons]

mutual

theorem Constraint.render_toNode :
    ∀ c : Constraint, (toNode c).render = .ok (String.ofList c.spelling)
  | .conj cs => Node.render_members (k := .constraintAnd) rfl (Constraint.render_toNodes cs)
  | .universal vs c => Node.render_quantified (k := .constraintForall) rfl vs c.render_toNode
  | .atEnd g => Node.render_plain (k := .atEnd) rfl (.cons (Spelled.render_toNode g) .nil)
  | .always o => Node.render_plain (k := .always) rfl (.cons o.render_toNode .nil)
  | .sometime o => Node.render_plain (k := .sometime) rfl (.cons o.render_toNode .nil)
  | .within x o =>
    Node.render_plain (k := .within) rfl (.cons (Spelled.render_toNode x) (.cons o.render_toNode .nil))
  | .atMostOnce o => Node.render_plain (k := .atMostOnce) rfl (.cons o.render_toNode .nil)
  | .sometimeAfter o p =>
    Node.render_plain (k := .sometimeAfter) rfl (.cons o.render_toNode (.cons p.render_toNode .nil))
  | .sometimeBefore o p =>
    Node.render_plain (k := .sometimeBefore) rfl (.cons o.render_toNode (.cons p.render_toNode .nil))
  | .alwaysWithin x o p =>
    Node.render_plain (k := .alwaysWithin) rfl
      (.cons (Spelled.render_toNode x) (.cons o.render_toNode (.cons p.render_toNode .nil)))
  | .holdDuring x y o =>
    Node.render_plain (k := .holdDuring) rfl
      (.cons (Spelled.render_toNode x) (.cons (Spelled.render_toNode y) (.cons o.render_toNode .nil)))
  | .holdAfter x o =>
    Node.render_plain (k := .holdAfter) rfl
      (.cons (Spelled.render_toNode x) (.cons o.render_toNode .nil))

theorem Operand.render_toNode : ∀ o : Operand, (toNode o).render = .ok (String.ofList o.spelling)
  | .goal g => Spelled.render_toNode g
  | .constraint c => c.render_toNode

theorem Constraint.render_toNodes : ∀ cs : List Constraint,
    List.Forall₂ (fun n w => n.render = .ok (String.ofList w)) (Constraint.toNodes cs)
      (Constraint.spellings cs)
  | [] => .nil
  | c :: cs => .cons c.render_toNode (Constraint.render_toNodes cs)

end

instance : Spelled Constraint := ⟨Constraint.spelling, Constraint.render_toNode⟩

instance : Spelled Operand := ⟨Operand.spelling, Operand.render_toNode⟩

theorem Constraint.spelling_conj (cs : List Constraint) :
    Pddl.spelling (conj cs) = oneLine "and" (cs.map Pddl.spelling) := by
  rw [← show spellings cs = cs.map Pddl.spelling from spellings_eq_map cs]
  rfl

namespace PreferredConstraint

mutual

/-- The text of a constraint of a problem. -/
def spelling : PreferredConstraint → List Char
  | required c => Pddl.spelling c
  | conj cs => oneLine "and" (spellings cs)
  | universal vs c => oneLine "forall" [enclosedItems vs, c.spelling]
  | preferred n c => oneLine "preference" (n.toList.map Pddl.spelling ++ [Pddl.spelling c])

/-- The texts of several constraints of a problem. -/
def spellings : List PreferredConstraint → List (List Char)
  | [] => []
  | c :: cs => c.spelling :: spellings cs

end

theorem spellings_eq_map (cs : List PreferredConstraint) : spellings cs = cs.map spelling := by
  induction cs with
  | nil => rfl
  | cons c cs ih => rw [spellings, ih, List.map_cons]

mutual

theorem render_toNode :
    ∀ c : PreferredConstraint, (toNode c).render = .ok (String.ofList c.spelling)
  | required c => Spelled.render_toNode c
  | conj cs => Node.render_members (k := .preferenceAnd) rfl (render_toNodes cs)
  | universal vs c => Node.render_quantified (k := .preferenceForall) rfl vs c.render_toNode
  | preferred n c => Node.render_preference (k := .constraintPreference) rfl n c

theorem render_toNodes : ∀ cs : List PreferredConstraint,
    List.Forall₂ (fun n w => n.render = .ok (String.ofList w)) (PreferredConstraint.toNodes cs)
      (spellings cs)
  | [] => .nil
  | c :: cs => .cons c.render_toNode (render_toNodes cs)

end

instance : Spelled PreferredConstraint := ⟨spelling, render_toNode⟩

theorem spelling_conj (cs : List PreferredConstraint) :
    Pddl.spelling (conj cs) = oneLine "and" (cs.map Pddl.spelling) := by
  rw [← show spellings cs = cs.map Pddl.spelling from spellings_eq_map cs]
  rfl

end PreferredConstraint

namespace Rule

open Grammar

variable {q : Prop}

/-! ### What looks like a term -/

/-- Parameters and what they bind are not all terms. -/
theorem fits_term_bound (vs : TypedList Variable) {s : List Char} {p : Prop}
    (hs : term.Decides s p) : Fits (many term) [' '] [enclosedItems vs, s] q := by
  have hvars : term.Decides (enclosedItems vs) False :=
    .inr ⟨⟨_, _, rfl, by decide, by decide, by decide⟩, missesText_term_enclosedItems vs⟩
  have hparts := fits_many (t := Prod.fst) (p := Prod.snd) (l := [(enclosedItems vs, False), (s, p)])
    isGap_blank (List.forall_mem_cons.2 ⟨hvars, List.forall_mem_singleton.2 hs⟩)
    fun _ => misses_close_term
  exact hparts.mono fun h => (h (enclosedItems vs, False) (by simp)).elim

/-- What is bound by parameters looks like no term. -/
theorem decides_term_bound {head : String} (hn : isName head.toList = true) (vs : TypedList Variable)
    {s : List Char} {p : Prop} (hs : term.Decides s p) :
    term.Decides (oneLine head [enclosedItems vs, s]) q :=
  decides_term hn (fits_term_bound vs hs)

/-- **A goal is a term only if it looks like one.** -/
theorem decides_term_goal {g : Goal} (hg : g.IsRegular) :
    term.Decides (spelling g) g.LooksLikeTerm := by
  have hoperator : ∀ {head : String} (parts : List (List Char)) (p : Prop), IsSolid head.toList →
      head.toList.head?.any isNameStart = false → term.Decides (oneLine head parts) p :=
    fun parts _ hh hs => .inr ⟨isSolid_enclose _ _ _, missesText_term_of_operator hh hs parts⟩
  induction hg with
  | equality l r => exact hoperator _ _ isHead_equality.solid (by decide)
  | @predicate p ts _ =>
    exact decides_term (isName_written rfl p) (fits_terms ts (.predicate p ts))
  | conj _ ih =>
    rw [Goal.spelling_conj]
    exact decides_term (by decide)
      ((fits_many isGap_blank ih fun _ => misses_close_term).mono .conj)
  | disj _ ih =>
    rw [Goal.spelling_disj]
    exact decides_term (by decide)
      ((fits_many isGap_blank ih fun _ => misses_close_term).mono .disj)
  | @neg g _ ih =>
    have hparts := fits_many (l := [g]) isGap_blank (List.forall_mem_singleton.2 ih)
      fun _ => misses_close_term
    exact decides_term (by decide) (hparts.mono fun h => .neg (h g (by simp)))
  | @imply p c _ _ ihp ihc =>
    have hparts := fits_many (l := [p, c]) isGap_blank
      (List.forall_mem_cons.2 ⟨ihp, List.forall_mem_singleton.2 ihc⟩) fun _ => misses_close_term
    exact decides_term (by decide)
      (hparts.mono fun h => .imply (h p (by simp)) (h c (by simp)))
  | existential _ _ ih => exact decides_term_bound (by decide) _ ih
  | universal _ _ ih => exact decides_term_bound (by decide) _ ih
  | @compare c _ =>
    exact hoperator _ _ (isSolid_comparator c.comparator) (by cases c.comparator <;> rfl)

/-! ### What looks like a goal -/

theorem decides_term_of_isName {x : String} (hx : isName x.toList = true) :
    term.Decides x.toList True := by
  have h := decides_term_spelling (.name ⟨x, hx⟩)
  have htext : spelling (Term.name ⟨x, hx⟩) = x.toList :=
    congrArg String.toList (Symbol.written_of_sigil rfl (⟨x, hx⟩ : Name))
  rwa [htext] at h

/-- The parts of a modal operator look like terms only if there are no times among them. -/
theorem fits_term_modality {m : Modality} {xs : List String}
    (hxs : ∀ x ∈ xs, isName x.toList = true) (htimes : ∀ x ∈ m.times, x.negative = false)
    (hos : ∀ o ∈ m.operands, term.Decides (spelling o) o.LooksLikeTerm) :
    Fits (many term) [' '] (xs.map String.toList ++ (m.times.map spelling ++ m.operands.map spelling))
      (m.times = [] ∧ ∀ o ∈ m.operands, o.LooksLikeTerm) := by
  have hparts := fits_many (g := term) (t := Prod.fst) (p := Prod.snd) isGap_blank
    (l := xs.map (fun x => (x.toList, True)) ++
      (m.times.map (fun x => (spelling x, False)) ++
        m.operands.map fun o => (spelling o, o.LooksLikeTerm))) ?_ fun _ => misses_close_term
  · simp only [List.map_append, List.map_map, Function.comp_def] at hparts
    refine hparts.mono fun h => ⟨List.eq_nil_iff_forall_not_mem.2 fun x hx => ?_, fun o ho => ?_⟩
    · exact h (spelling x, False)
        (List.mem_append_right _ (List.mem_append_left _ (List.mem_map.2 ⟨x, hx, rfl⟩)))
    · exact h (spelling o, o.LooksLikeTerm)
        (List.mem_append_right _ (List.mem_append_right _ (List.mem_map.2 ⟨o, ho, rfl⟩)))
  · intro part hpart
    simp only [List.mem_append, List.mem_map] at hpart
    obtain ⟨x, hx, rfl⟩ | ⟨x, hx, rfl⟩ | ⟨o, ho, rfl⟩ := hpart
    · exact decides_term_of_isName (hxs x hx)
    · have hx := htimes x hx
      exact .inr ⟨(recovers_number hx).solid, missesText_term_number hx⟩
    · exact hos o ho

/-- The words at the head of a modal operator are names, and the first of them belongs to no goal. -/
theorem exists_head_of_modality {c : Constraint} {m : Modality} (hc : c.modality? = some m) :
    ∃ (head : String) (xs : List String), isName head.toList = true ∧
      (∀ x ∈ xs, isName x.toList = true) ∧
      head ∉ ["and", "or", "not", "imply", "exists", "forall"] ∧
      spelling c =
        oneLine head (xs.map String.toList ++ (m.times.map spelling ++ m.operands.map spelling)) := by
  cases c <;> cases hc
  case atEnd g => exact ⟨"at", ["end"], by decide, by decide, by decide, rfl⟩
  all_goals exact ⟨_, [], by decide, by simp, by decide, rfl⟩

/-- A modal operator is a name with terms behind it only if it looks like a term. -/
theorem exists_fits_of_modality {c : Constraint} {m : Modality} (hc : c.modality? = some m)
    (htimes : ∀ x ∈ m.times, x.negative = false)
    (hos : ∀ o ∈ m.operands, term.Decides (spelling o) o.LooksLikeTerm) :
    ∃ head parts, isName head.toList = true ∧
      head ∉ ["and", "or", "not", "imply", "exists", "forall"] ∧ spelling c = oneLine head parts ∧
      Fits (many term) [' '] parts c.LooksLikeTerm := by
  obtain ⟨head, xs, hhead, hxs, hne, htext⟩ := exists_head_of_modality hc
  refine ⟨head, _, hhead, hne, htext, (fits_term_modality hxs htimes hos).mono ?_⟩
  exact fun h => .modal hc h.1 (fun _ hg => h.2 _ hg) fun _ hc => h.2 _ hc

/-- **A constraint is a term only if it looks like one.** -/
theorem decides_term_constraint {c : Constraint} (hc : c.IsRegular) :
    term.Decides (spelling c) c.LooksLikeTerm := by
  induction hc with
  | conj _ ih =>
    rw [Constraint.spelling_conj]
    exact decides_term (by decide) ((fits_many isGap_blank ih fun _ => misses_close_term).mono .conj)
  | universal _ _ ih => exact decides_term_bound (by decide) _ ih
  | @modal c m hm htimes hgoals _ _ ih =>
    have hos : ∀ o ∈ m.operands, term.Decides (spelling o) o.LooksLikeTerm := by
      intro o ho
      cases o with
      | goal g => exact decides_term_goal (hgoals g ho)
      | constraint c' => exact ih c' ho
    obtain ⟨head, parts, hhead, -, htext, hfits⟩ := exists_fits_of_modality hm htimes hos
    rw [htext]
    exact decides_term hhead hfits

/-- **An operand is a term only if it looks like one.** -/
theorem decides_term_operand {o : Operand} (ho : o.IsRegular) :
    term.Decides (spelling o) o.LooksLikeTerm := by
  cases o with
  | goal g => exact decides_term_goal ho
  | constraint c => exact decides_term_constraint ho.1

/-- **A constraint is a goal only if it looks like one.** -/
theorem decides_goal_constraint {c : Constraint} (hc : c.IsRegular) :
    goal.Decides (spelling c) c.LooksLikeGoal := by
  induction hc with
  | @conj cs hcs ih =>
    have hterms := fits_many (g := term) isGap_blank (fun c hc => decides_term_constraint (hcs c hc))
      fun _ => misses_close_term
    rw [Constraint.spelling_conj]
    exact decides_goal (by decide)
      (fun _ => (fits_many isGap_blank ih misses_close_goal).mono .conj) (by simp) (by simp)
      (by simp) (by simp) (hterms.mono fun h => .term (.conj h))
  | @universal vs c hvs hc ih =>
    have hbound : Fits (pair parameters goal) [' '] [enclosedItems vs, spelling c]
        (True ∧ c.LooksLikeGoal) :=
      fits_pair isGap_blank (by simpa using (recovers_parameters hvs).decides trivial)
        (fits_one isGap_blank (by simpa using ih) misses_close_goal) fun _ => misses_close_parens
    exact decides_goal (by decide) (by simp) (by simp) (by simp)
      (fun _ => hbound.mono fun h => .universal h.2) (by simp)
      (fits_term_bound vs (decides_term_constraint hc))
  | @modal c m hm htimes hgoals hconstraints hlike _ =>
    have hos : ∀ o ∈ m.operands, o.IsRegular := by
      intro o ho
      cases o with
      | goal g => exact hgoals g ho
      | constraint c' => exact ⟨hconstraints c' ho, hlike c' ho⟩
    obtain ⟨head, parts, hhead, hne, htext, hfits⟩ :=
      exists_fits_of_modality hm htimes fun o ho => decides_term_operand (hos o ho)
    simp only [List.mem_cons, List.not_mem_nil, or_false, not_or] at hne
    rw [htext]
    exact decides_goal hhead (by simp [hne]) (by simp [hne]) (by simp [hne]) (by simp [hne])
      (by simp [hne]) (hfits.mono .term)

/-! ### Reading constraints -/

theorem misses_close_constraint (r : List Char) : Misses constraint (')' :: r) := misses_close rfl

/-- The two words are recognised where they are written. -/
theorem isHead_atEnd : IsHead "at end" where
  plain := by decide
  solid := ⟨_, _, rfl, by decide, by decide, by decide⟩
  self {r} hr := by
    have hwords : wordsOf "at end".toList = ["at".toList, "end".toList] := by decide
    have htake : (' ' :: ("end".toList ++ r)).takeWhile isWideBlank = [' '] := by
      rw [List.takeWhile_cons_of_pos (by decide), show "end".toList ++ r = 'e' :: ("nd".toList ++ r)
        from rfl, List.takeWhile_cons_of_neg (by decide)]
    have hdrop := List.takeWhile_append_dropWhile (p := isWideBlank) (l := ' ' :: ("end".toList ++ r))
    rw [htake] at hdrop
    have hdrop : (' ' :: ("end".toList ++ r)).dropWhile isWideBlank = "end".toList ++ r :=
      List.append_cancel_left (show [' '] ++ _ = [' '] ++ _ from hdrop)
    refine keywordLength?_eq_some.2 ⟨?_, ?_⟩
    · rw [hwords]
      refine wordsLength?_cons.2 ⟨' ' :: ("end".toList ++ r), rfl, .inr ⟨by simp, 3, ?_, ?_, ?_⟩⟩
      · exact wordsLength?_cons.2 ⟨r, hdrop, .inl ⟨rfl, rfl⟩⟩
      · rw [htake]
        simp
      · rw [htake]
        rfl
    · rw [List.drop_left, hr.any_isNameChar, Bool.and_false]

/-- An operand is read back if it is a goal or a constraint that looks like none and is read
back. -/
theorem recovers_operand {o : Operand} (ho : o.IsRegular)
    (hc : ∀ c, o = .constraint c → Recovers constraint (spelling c) (· = c)) :
    Recovers operand (spelling o) (· = o) := by
  refine recovers_call ?_
  cases o with
  | goal g => exact .left ((recovers_goal ho).congr _)
  | constraint c =>
    exact .behind ((decides_goal_constraint ho.1).missesText ho.2).map ((hc c rfl).congr _)

/-- A modal operator is read back if its operands are. -/
theorem recovers_modality {c : Constraint} {m : Modality} (hc : c.modality? = some m)
    (htimes : ∀ x ∈ m.times, x.negative = false)
    (hgoals : ∀ g, .goal g ∈ m.operands → g.IsRegular)
    (hos : ∀ o ∈ m.operands, Recovers operand (spelling o) (· = o)) :
    Recovers constraint (spelling c) (· = c) := by
  have hone : ∀ {o}, o ∈ m.operands → ReadsParts operand [' '] [spelling o] (· = o) := fun ho =>
    .one isGap_blank (hos _ ho)
  have hnumber : ∀ {x}, x ∈ m.times → Recovers number (spelling x) (· = x) := fun hx =>
    recovers_number (htimes _ hx)
  refine recovers_call ?_
  cases c with
  | conj cs => cases hc
  | universal vs c => cases hc
  | atEnd g =>
    cases hc
    iterate 2 refine .behindForm isHead_atEnd (by decide) ?_
    exact .left ((recovers_form isHead_atEnd
      (.one isGap_blank (recovers_goal (hgoals g (by simp))))).congr _)
  | always o =>
    cases hc
    have hhead : IsHead "always" := isHead_of_isWord (by decide)
    iterate 3 refine .behindForm hhead (by decide) ?_
    exact .left ((recovers_form hhead (hone (by simp))).congr _)
  | sometime o =>
    cases hc
    have hhead : IsHead "sometime" := isHead_of_isWord (by decide)
    iterate 4 refine .behindForm hhead (by decide) ?_
    exact .left ((recovers_form hhead (hone (by simp))).congr _)
  | within x o =>
    cases hc
    have hhead : IsHead "within" := isHead_of_isWord (by decide)
    iterate 5 refine .behindForm hhead (by decide) ?_
    exact .left ((recovers_form hhead (.pair_eq (hnumber (by simp)) (hone (by simp)))).congr _)
  | atMostOnce o =>
    cases hc
    have hhead : IsHead "at-most-once" := isHead_of_isWord (by decide)
    iterate 6 refine .behindForm hhead (by decide) ?_
    exact .left ((recovers_form hhead (hone (by simp))).congr _)
  | sometimeAfter o p =>
    cases hc
    have hhead : IsHead "sometime-after" := isHead_of_isWord (by decide)
    iterate 7 refine .behindForm hhead (by decide) ?_
    exact .left ((recovers_form hhead (.pair_eq (hos o (by simp)) (hone (by simp)))).congr _)
  | sometimeBefore o p =>
    cases hc
    have hhead : IsHead "sometime-before" := isHead_of_isWord (by decide)
    iterate 8 refine .behindForm hhead (by decide) ?_
    exact .left ((recovers_form hhead (.pair_eq (hos o (by simp)) (hone (by simp)))).congr _)
  | alwaysWithin x o p =>
    cases hc
    have hhead : IsHead "always-within" := isHead_of_isWord (by decide)
    iterate 9 refine .behindForm hhead (by decide) ?_
    exact .left ((recovers_form hhead (.pair_eq (hnumber (by simp))
      (.pair_eq (hos o (by simp)) (hone (by simp))))).congr _)
  | holdDuring x y o =>
    cases hc
    have hhead : IsHead "hold-during" := isHead_of_isWord (by decide)
    iterate 10 refine .behindForm hhead (by decide) ?_
    exact .left ((recovers_form hhead (.pair_eq (hnumber (by simp))
      (.pair_eq (hnumber (by simp)) (hone (by simp))))).congr _)
  | holdAfter x o =>
    cases hc
    have hhead : IsHead "hold-after" := isHead_of_isWord (by decide)
    iterate 11 refine .behindForm hhead (by decide) ?_
    exact (recovers_form hhead (.pair_eq (hnumber (by simp)) (hone (by simp)))).congr _

/-- **All regular constraints are read back from their texts.** -/
theorem recovers_constraint {c : Constraint} (hc : c.IsRegular) :
    Recovers constraint (spelling c) (· = c) := by
  induction hc with
  | conj _ ih =>
    have hcs := readsParts_many_eq isGap_blank ih misses_close_constraint
    rw [Constraint.spelling_conj]
    exact recovers_call (.left ((recovers_form isHead_and hcs).congr _))
  | universal hvs _ ih =>
    have hparts := ReadsParts.pair_eq (recovers_parameters hvs) (.one isGap_blank ih)
    exact recovers_call (.behindForm isHead_forall (by decide)
      (.left ((recovers_form isHead_forall hparts).congr _)))
  | @modal c m hm htimes hgoals hconstraints hlike ih =>
    refine recovers_modality hm htimes hgoals fun o ho => ?_
    cases o with
    | goal g => exact recovers_operand (hgoals g ho) (by simp)
    | constraint c' =>
      refine recovers_operand (o := .constraint c') ⟨hconstraints c' ho, hlike c' ho⟩ ?_
      rintro _ ⟨⟩
      exact ih c' ho

/-! ### Reading the constraints of a problem -/

theorem misses_close_preferredConstraint (r : List Char) : Misses preferredConstraint (')' :: r) :=
  misses_close rfl

/-- The text of a constraint is a form. -/
theorem exists_oneLine_constraint (c : Constraint) :
    ∃ head parts, spelling c = oneLine head parts := by
  cases c with
  | conj cs => exact ⟨_, _, Constraint.spelling_conj cs⟩
  | _ => exact ⟨_, _, rfl⟩

/-- A modal operator has a head word of its own. -/
theorem exists_head_of_isSome {c : Constraint} (hc : c.modality?.isSome) :
    ∃ head parts, spelling c = oneLine head parts ∧ IsHead head ∧ Apart "and" head.toList = true ∧
      Apart "forall" head.toList = true ∧ Apart "preference" head.toList = true := by
  cases c with
  | conj cs => cases hc
  | universal vs c => cases hc
  | atEnd g => exact ⟨_, _, rfl, isHead_atEnd, by decide, by decide, by decide⟩
  | _ => exact ⟨_, _, rfl, isHead_of_isWord (by decide), by decide, by decide, by decide⟩

/-- **All regular constraints of problems are read back from their texts.** -/
theorem recovers_preferredConstraint {c : PreferredConstraint} (hc : c.IsRegular) :
    Recovers preferredConstraint (spelling c) (· = c) := by
  refine recovers_call ?_
  induction hc with
  | @required c hc hm =>
    obtain ⟨head, parts, htext, hhead, hand, hforall, hpref⟩ := exists_head_of_isSome hm
    have hconstraint := (recovers_constraint hc).congr PreferredConstraint.required
    rw [htext] at hconstraint
    rw [show spelling (PreferredConstraint.required c) = oneLine head parts from htext]
    exact .behindForm hhead ⟨by decide, hand⟩ (.behindForm hhead ⟨by decide, hforall⟩
      (.behindForm hhead ⟨by decide, hpref⟩ (.behindForm hhead ⟨by decide, hpref⟩ hconstraint)))
  | conj _ ih =>
    have hcs := readsParts_many_eq isGap_blank (fun c hc => recovers_call (ih c hc))
      misses_close_preferredConstraint
    rw [PreferredConstraint.spelling_conj]
    exact .left ((recovers_form isHead_and hcs).congr _)
  | universal hvs _ ih =>
    have hparts := ReadsParts.pair_eq (recovers_parameters hvs) (.one isGap_blank (recovers_call ih))
    exact .behindForm isHead_forall (by decide) (.left ((recovers_form isHead_forall hparts).congr _))
  | @preferred n c hc =>
    have hform := exists_oneLine_constraint c
    refine .behindForm isHead_preference (by decide) (.behindForm isHead_preference (by decide) ?_)
    cases n with
    | some n => exact recovers_preference (recovers_constraint hc) hform (some n)
    | none => exact recovers_preference (recovers_constraint hc) hform none

end Rule

end Pddl
