import Pddl.Proofs.Agreement
import Pddl.Proofs.Enclosure
import Pddl.Proofs.Levels
import Pddl.Proofs.Sections

/-!
# Reading does not depend on the context

What a rule reads from a construct that ends in a parenthesis depends on that construct alone: on
nothing in front of it and on nothing behind it.

* `Rule.Named` : the rules by which a text can be read.
* `leavesComment` : a comment is still open where the characters end.
* `Rule.parse_in_context` : **the same construct is read wherever its characters stand**, and
  the reading ends where the characters end.

Whole domains and problems also take the blanks and comments behind them.  So a comment that their
text leaves open goes on in what is put behind that text
(`Rule.parse_domain_into_open_comment`).
-/

namespace Pddl

/-! ### Named rules -/

/-- The rules by which a text can be read.  The rules of whole texts take the blanks around their
construct along. -/
inductive Rule.Named : (whole : Bool) → {α : Type} → Rule α → Prop where
  -- symbols, numbers and types
  | name : Named false (Grammar.symbol .name)
  | var : Named false (Grammar.symbol .var)
  | predicate : Named false (Grammar.symbol .predicate)
  | function : Named false (Grammar.symbol .function)
  | preference : Named false (Grammar.symbol .preference)
  | primitiveType : Named false (Grammar.symbol .type)
  | number : Named false Grammar.number
  | integer : Named false (Grammar.terminal .integer)
  | type : Named false Grammar.type
  | parameters : Named false Grammar.parameters
  -- words
  | comparator : Named false (Grammar.keyword Comparator)
  | arithmeticOp : Named false (Grammar.keyword ArithmeticOp)
  | variadicOp : Named false (Grammar.keyword VariadicOp)
  | assignOp : Named false (Grammar.keyword AssignOp)
  | rateOp : Named false (Grammar.keyword RateOp)
  | durationComparator : Named false (Grammar.keyword DurationComparator)
  | timePoint : Named false (Grammar.keyword TimePoint)
  | interval : Named false (Grammar.keyword Interval)
  | optimization : Named false (Grammar.keyword Optimization)
  -- terms and formulas
  | term : Named false Rule.term
  | functionTerm : Named false Rule.functionTerm
  | groundTerm : Named false Rule.groundTerm
  | atomicFormula : Named false Rule.atomicFormula
  | literal : Named false Rule.literal
  | predicateSkeleton : Named false Rule.predicateSkeleton
  | functionSkeleton : Named false Rule.functionSkeleton
  -- expressions
  | fluent : Named false Rule.fluent
  | expression : Named false Rule.expression
  | comparison : Named false Rule.comparison
  | durativeExpression : Named false Rule.durativeExpression
  | rate : Named false Rule.rate
  | durativeAssignment : Named false Rule.durativeAssignment
  | metricExpression : Named false Rule.metricExpression
  -- goals and conditions
  | goal : Named false Rule.goal
  | preferredGoal : Named false Rule.preferredGoal
  | preconditions : Named false Rule.preconditions
  | timedGoal : Named false Rule.timedGoal
  | preferredTimedGoal : Named false Rule.preferredTimedGoal
  | condition : Named false Rule.condition
  -- effects
  | primitiveEffect : Named false Rule.primitiveEffect
  | consequent : Named false Rule.consequent
  | effect : Named false Rule.effect
  | effects : Named false Rule.effects
  | timedEffect : Named false Rule.timedEffect
  | durativeEffect : Named false Rule.durativeEffect
  -- durations and trajectories
  | durationValue : Named false Rule.durationValue
  | durationBound : Named false Rule.durationBound
  | durationConstraint : Named false Rule.durationConstraint
  | constraint : Named false Rule.constraint
  | operand : Named false Rule.operand
  | preferredConstraint : Named false Rule.preferredConstraint
  -- domains
  | action : Named false Rule.action
  | durativeAction : Named false Rule.durativeAction
  | derivedPredicate : Named false Rule.derivedPredicate
  | definition : Named false Rule.definition
  | requirement : Named false Rule.requirement
  | requirements : Named false Rule.requirements
  | types : Named false Rule.types
  | constants : Named false Rule.constants
  | predicates : Named false Rule.predicates
  | timeless : Named false Rule.timeless
  | functions : Named false Rule.functions
  | domainConstraints : Named false Rule.domainConstraints
  | domain : Named true Rule.domain
  -- problems
  | objects : Named false Rule.objects
  | initialFact : Named false Rule.initialFact
  | init : Named false Rule.init
  | goalSection : Named false Rule.goalSection
  | problemConstraints : Named false Rule.problemConstraints
  | metric : Named false Rule.metric
  | length : Named false Rule.length
  | problem : Named true Rule.problem

/-! ### Comments -/

/-- A comment is open where the characters end, if one was open or not where they begin. -/
def leavesComment : (inComment : Bool) → List Char → Bool
  | b, [] => b
  | true, c :: cs => leavesComment (c != '\n') cs
  | false, c :: cs => leavesComment (c == ';') cs

theorem leavesComment_append (b : Bool) (p q : List Char) :
    leavesComment b (p ++ q) = leavesComment (leavesComment b p) q := by
  induction p generalizing b with
  | nil => cases b <;> rfl
  | cons c p ih => cases b <;> exact ih _

/-- Where a form is closed, no comment is open. -/
theorem leavesComment_of_closes {b : Bool} {k : Nat} {x : List Char} (h : closes b k x = true) :
    leavesComment b x = false := by
  induction x generalizing b k with
  | nil => simp [closes] at h
  | cons c x ih =>
    cases b with
    | true => exact ih h
    | false =>
      simp only [closes] at h
      simp only [leavesComment]
      split at h
      · rename_i hc
        rw [beq_iff_eq] at hc
        subst hc
        exact ih h
      · split at h
        · rename_i hc
          rw [beq_iff_eq] at hc
          subst hc
          rcases k with _ | k
          · rw [List.isEmpty_iff] at h
            subst h
            rfl
          · exact ih h
        · exact ih h

theorem isBlank_ne_semicolon {c : Char} (h : isBlank c = true) : (c == ';') = false := by
  rw [beq_eq_false_iff_ne]
  rintro rfl
  exact absurd h (by decide)

/-- Blanks and comments go on in what is put behind them. -/
theorem blankLength_take_append (b : Bool) (cs y : List Char) :
    blankLength b (cs.take (blankLength b cs) ++ y) =
      blankLength b cs + blankLength (leavesComment b (cs.take (blankLength b cs))) y := by
  induction cs generalizing b with
  | nil => cases b <;> simp [blankLength, leavesComment]
  | cons c cs ih =>
    cases b with
    | true =>
      simp only [blankLength, ↓reduceIte, Nat.add_comm 1, List.take_succ_cons, List.cons_append,
        leavesComment]
      rw [ih]
      omega
    | false =>
      simp only [blankLength, Bool.false_eq_true, ↓reduceIte]
      split
      · rename_i hb
        have ih := ih false
        simp only [Nat.add_comm 1, List.take_succ_cons, List.cons_append, leavesComment,
          isBlank_ne_semicolon hb, blankLength, Bool.false_eq_true, ↓reduceIte, hb]
        omega
      · rename_i hb
        split
        · rename_i hc
          have ih := ih true
          simp only [Nat.add_comm 1, List.take_succ_cons, List.cons_append, leavesComment, hc,
            blankLength, Bool.false_eq_true, ↓reduceIte, hb]
          omega
        · simp [leavesComment]

/-- Where something follows blanks and comments, no comment is open. -/
theorem leavesComment_of_drop_ne_nil {b : Bool} {cs : List Char}
    (h : cs.drop (blankLength b cs) ≠ []) : leavesComment b (cs.take (blankLength b cs)) = false := by
  induction cs generalizing b with
  | nil => simp at h
  | cons c cs ih =>
    cases b with
    | true =>
      simp only [blankLength, ↓reduceIte, Nat.add_comm 1, List.drop_succ_cons,
        List.take_succ_cons, leavesComment] at h ⊢
      exact ih h
    | false =>
      simp only [blankLength, Bool.false_eq_true, ↓reduceIte] at h ⊢
      split at h
      · rename_i hb
        simp only [hb, ↓reduceIte, Nat.add_comm 1, List.drop_succ_cons, List.take_succ_cons,
          leavesComment, isBlank_ne_semicolon hb] at h ⊢
        exact ih h
      · rename_i hb
        split at h
        · rename_i hc
          simp only [hb, Bool.false_eq_true, hc, ↓reduceIte, Nat.add_comm 1, List.drop_succ_cons,
            List.take_succ_cons, leavesComment] at h ⊢
          exact ih h
        · rename_i hc
          simp [hb, hc, leavesComment]

namespace Rule

variable {α : Type} {g : Rule α}

/-- A named rule begins and ends a construct of its own. -/
theorem next_before_of_named (h : Named false g) : g.next .before = some .behind := by
  cases h <;> decide

theorem flagFree_definition : Grammar.FlagFree definition := by
  simp [definition, action, actionParameters, labelledOrEmpty, preconditions, effects,
    durativeAction, durationConstraint, durationBound, condition, durativeEffect,
    derivedPredicate, predicateSkeleton]

theorem settled_requirements : Grammar.Settled requirements := by
  simp [requirements, requirement, Grammar.Settled]

theorem settled_domain : Grammar.Settled domain := by
  simp only [domain, Grammar.settled_map, Grammar.settled_padded, Grammar.settled_form,
    Grammar.settled_pair, Grammar.settled_seq, Grammar.settled_optional, Grammar.settled_symbol,
    settled_requirements, true_and]
  refine ⟨?_, ?_, ?_, ?_, ?_, ?_, ?_, ?_⟩ <;> refine Grammar.settled_of_flagFree ?_
  all_goals simp [parents, types, constants, predicates, predicateSkeleton, timeless,
    groundLiteral, functions, functionSkeleton, domainConstraints, constraint,
    flagFree_definition]

theorem settled_problem : Grammar.Settled problem := by
  simp only [problem, Grammar.settled_map, Grammar.settled_padded, Grammar.settled_form,
    Grammar.settled_pair, Grammar.settled_seq, Grammar.settled_optional, Grammar.settled_symbol,
    Grammar.settled_separated, settled_requirements, true_and]
  refine ⟨?_, ?_, ?_, ?_, ?_, ?_⟩ <;> refine Grammar.settled_of_flagFree ?_
  all_goals simp [objects, init, initialFact, groundLiteral, groundTerm, goalSection,
    preconditions, problemConstraints, preferredConstraint, metric, metricExpression, length]

theorem settled_of_named {whole : Bool} (h : Named whole g) : g.Settled := by
  cases h with
  | requirement => simp [requirement, Grammar.Settled]
  | requirements => exact settled_requirements
  | domain => exact settled_domain
  | problem => exact settled_problem
  | definition => exact Grammar.settled_of_flagFree flagFree_definition
  | _ =>
    refine Grammar.settled_of_flagFree ?_
    simp [atomicFormula, literal, groundTerm, predicateSkeleton, functionSkeleton, comparison,
      durativeExpression, rate, elapsed, durativeAssignment, metricExpression, preferredGoal,
      preconditions, timedGoal, preferredTimedGoal, condition, effect, effects, durativeEffect,
      durationValue, durationBound, durationConstraint, constraint, operand, preferredConstraint,
      action, actionParameters, labelledOrEmpty, durativeAction, derivedPredicate, types,
      constants, predicates, timeless, groundLiteral, functions, domainConstraints, objects,
      initialFact, init, goalSection, problemConstraints, metric, length]

/-! ### Single constructs -/

/-- A construct that ends in a parenthesis, from where it begins to where it ends. -/
theorem look_in_context (hg : g.next .before = some .behind) {levels : Nat} {v w : View} {a : α}
    (h : g.look levels v = .found w a) (hc : w.before = some ')') :
    ∃ x, v.rest = x ++ w.rest ∧ Phase.before.Spans 0 x ∧
      ∀ b y, g.look levels ⟨b, x ++ y⟩ = .found ⟨some ')', y⟩ a := by
  have fits : Phase.Fits 0 .before .behind := fun _ => rfl
  obtain ⟨x, hx, ⟨-, -, -, hb⟩ | ⟨-, hs⟩⟩ :=
    Grammar.covers (fun n => n.covers_denote levels) g hg fits v w a h
  · exact absurd hc hb
  · have hs := hs [] w.rest rfl rfl
    rw [List.append_nil] at hs
    refine ⟨x, hx, hs, fun b y => ?_⟩
    have hview : View.Alike 0 .before w.rest y v ⟨b, x ++ y⟩ := ⟨x, hs, hx, rfl, .inl rfl⟩
    have halike := Grammar.alike (fun n => n.forward_denote levels)
      (fun n => n.alike_denote levels) g hg fits hview
    rw [show g.denote (Nonterminal.denote levels) v = .found w a from h] at halike
    obtain ⟨⟨before, rest⟩, ha, z, rfl, -, hr, hb⟩ := halike.eq_found
    obtain rfl : rest = y := hr
    obtain rfl : some ')' = before := hc.symm.trans (hb.resolve_left (by simp))
    exact ha

/-- A rule of whole texts reads a construct in parentheses, with blanks around it. -/
theorem exists_padded_of_named (h : Named true g) :
    ∃ (β : Type) (f : β → α) (form : Rule β), g = f <$> Grammar.padded (Grammar.parens form) ∧
      (Grammar.parens form).next .before = some .behind := by
  cases h with
  | domain => exact ⟨_, _, _, rfl, by decide⟩
  | problem => exact ⟨_, _, _, rfl, by decide⟩

/-- How many characters a rule of whole texts goes on to take of what is put behind its text. -/
def overrun (whole : Bool) (p y : List Char) : Nat :=
  if whole then blankLength (leavesComment false p) y else 0

/-- A rule of whole texts reads the same wherever the characters that it took stand, and takes the
blanks and comments behind them along. -/
theorem look_whole_in_context (hg : Named true g) {levels : Nat} {v w : View} {a : α}
    (h : g.look levels v = .found w a) {p : List Char} (hp : v.rest = p ++ w.rest)
    (b : Option Char) (y : List Char) :
    ∃ u, g.look levels ⟨b, p ++ y⟩ = .found u a ∧
      u.rest = y.drop (blankLength (leavesComment false p) y) := by
  obtain ⟨β, f, form, rfl, hnext⟩ := exists_padded_of_named hg
  obtain ⟨a, ha, rfl⟩ := Grammar.denote_map_eq_found.1 h
  obtain ⟨u, hu, rfl⟩ := Grammar.denote_padded_eq_found.1 ha
  obtain ⟨x, hx, hs, hlook⟩ :=
    look_in_context (g := Grammar.parens form) hnext hu (Grammar.before_of_denote_parens hu)
  -- the text is made of leading blanks, the form and trailing blanks
  have hv := List.take_append_drop (blankLength false v.rest) v.rest
  have hr := List.take_append_drop (blankLength false u.rest) u.rest
  simp only [View.skipBlanks, View.rest_advance] at hx hp
  generalize hlead : v.rest.take (blankLength false v.rest) = lead at hv
  generalize htrail : u.rest.take (blankLength false u.rest) = trail at hr
  obtain rfl : p = lead ++ (x ++ trail) := by
    have htext : p ++ u.rest.drop (blankLength false u.rest) =
        (lead ++ (x ++ trail)) ++ u.rest.drop (blankLength false u.rest) := by
      rw [← hp, List.append_assoc, List.append_assoc, hr, ← hx, hv]
    exact List.append_cancel_right htext
  obtain ⟨z, rfl, hz⟩ := hs
  have hopen : leavesComment false lead = false := by
    rw [← hlead]
    exact leavesComment_of_drop_ne_nil (by rw [hx]; simp)
  have hform : leavesComment false ('(' :: z) = false := by
    simpa [leavesComment] using leavesComment_of_closes hz
  have hblanks : ∀ t, blankLength false (lead ++ ('(' :: t)) = lead.length := by
    intro t
    rw [← hlead, blankLength_take_append, hlead, hopen]
    simp [blankLength, isBlank, ← hlead, blankLength_le]
  have hend : leavesComment false (lead ++ ('(' :: z ++ trail)) = leavesComment false trail := by
    rw [leavesComment_append, hopen, leavesComment_append, hform]
  have htl : trail.length = blankLength false u.rest := by
    rw [← htrail, List.length_take, Nat.min_eq_left (blankLength_le _ _)]
  have hskip : (View.skipBlanks ⟨b, lead ++ ('(' :: z ++ trail) ++ y⟩).rest =
      '(' :: z ++ (trail ++ y) := by
    simp only [View.skipBlanks, View.rest_advance, List.append_assoc, List.cons_append, hblanks]
    simp
  have hinner : look levels (Grammar.parens form)
      (View.skipBlanks ⟨b, lead ++ ('(' :: z ++ trail) ++ y⟩) =
        .found ⟨some ')', trail ++ y⟩ a := by
    rcases hsk : View.skipBlanks ⟨b, lead ++ ('(' :: z ++ trail) ++ y⟩ with ⟨b', r'⟩
    rw [hsk] at hskip
    obtain rfl : r' = '(' :: z ++ (trail ++ y) := hskip
    exact hlook b' (trail ++ y)
  refine ⟨_, Grammar.denote_map_eq_found.2 ⟨a, Grammar.denote_padded_eq_found.2
    ⟨_, hinner, rfl⟩, rfl⟩, ?_⟩
  simp only [View.skipBlanks, View.rest_advance, hend]
  rw [← htrail, blankLength_take_append, htrail, ← htl]
  simp [List.drop_append]

/-- What a named rule reads at a view, wherever the characters that it took stand. -/
theorem look_named_in_context {whole : Bool} (hg : Named whole g) {levels : Nat} {v w : View}
    {a : α} (h : g.look levels v = .found w a) (hc : w.before = some ')') {p : List Char}
    (hp : v.rest = p ++ w.rest) (b : Option Char) (y : List Char) :
    ∃ u, g.look levels ⟨b, p ++ y⟩ = .found u a ∧ u.rest = y.drop (overrun whole p y) := by
  cases whole with
  | false =>
    obtain ⟨x, hx, -, hlook⟩ := look_in_context (next_before_of_named hg) h hc
    obtain rfl : p = x := List.append_cancel_right (hp.symm.trans hx)
    exact ⟨_, hlook b y, by simp [overrun]⟩
  | true => exact look_whole_in_context hg h hp b y

/-- **The same construct is read wherever its characters stand.**  If a rule takes the first
characters of a text, up to a closing parenthesis, it reads the same from these characters with
anything in front of them and anything behind them, and stops where they end; a rule of whole texts
goes on behind the blanks there, and behind a comment that the characters left open. -/
theorem parse_in_context {whole : Bool} (hg : Named whole g) {t : List Char} {depth ceiling k : Nat}
    {c : Cursor} {a : α} (h : g.parse (Cursor.ofOffset t 0 depth ceiling) = .ok (c, a))
    (hk : c.offset = k) (hc : charBefore t k = some ')') (u y : List Char) :
    ∃ d, g.parse (Cursor.ofOffset (u ++ t.take k ++ y) u.length depth ceiling) = .ok (d, a) ∧
      d.offset = u.length + k + overrun whole (t.take k) y := by
  have hs := settled_of_named hg
  have calm : ∀ t offset, (Cursor.ofOffset t offset depth ceiling).Calm := by
    intro t offset m hm
    simp [Cursor.ofOffset] at hm
  have hagree := parse_agrees hs (calm t 0)
  rw [h] at hagree
  obtain ⟨hfollows, hlook⟩ := hagree
  have htext : c.text = t := hfollows.text
  have hrest : c.rest = t.drop k := by rw [c.rest_eq, htext, hk]
  have hprev : c.view.before = some ')' := by
    rw [Cursor.view, c.previous_eq, htext, hk, hc]
  have hle : k ≤ t.length := by
    rcases k with _ | k
    · exact Nat.zero_le _
    · exact (List.getElem?_eq_some_iff.1 hc).1
  have hview : (Cursor.ofOffset t 0 depth ceiling).view.rest = t.take k ++ c.view.rest := by
    simp [Cursor.ofOffset, Cursor.view, hrest]
  obtain ⟨w, hw, hwr⟩ := look_named_in_context hg hlook hprev hview
    (charBefore (u ++ t.take k ++ y) u.length) y
  have hview' : (Cursor.ofOffset (u ++ t.take k ++ y) u.length depth ceiling).view =
      ⟨charBefore (u ++ t.take k ++ y) u.length, t.take k ++ y⟩ := by
    simp [Cursor.ofOffset, Cursor.view]
  have hagree' := parse_agrees hs (calm (u ++ t.take k ++ y) u.length)
  rw [hview'] at hagree'
  rcases hagree'.cases with ⟨e, -, he⟩ | ⟨d, a', hd, hf, ho⟩
  · exact absurd (he.symm.trans hw) (Failure.finding_ne_found e)
  · obtain ⟨rfl, rfl⟩ := Finding.found.inj (hw.symm.trans ho)
    refine ⟨d, hd, ?_⟩
    have hoff := hf.offset
    have hdr : d.rest = y.drop (overrun whole (t.take k) y) := hwr
    have hov : overrun whole (t.take k) y ≤ y.length := by
      unfold overrun
      split
      · exact blankLength_le _ _
      · exact Nat.zero_le _
    rw [hdr] at hoff
    simp only [Cursor.ofOffset, List.length_drop, List.length_append, List.length_take,
      Nat.min_eq_left hle] at hoff
    omega

/-! ### A domain without sections -/

/-- The text of a domain without sections. -/
def bareDomain (n : Name) : List Char :=
  enclose [' '] "define" [enclose [' '] "domain" [n.written.toList]]

/-- A domain without sections is read, with the blanks and comments behind it. -/
theorem look_bareDomain (n : Name) {r : List Char} (hr : Delimited r) (levels : Nat) (b : Option Char) :
    (look levels domain ⟨b, bareDomain n ++ r⟩).Leaves (r.drop (blankLength false r))
      (· = { name := n }) := by
  have hname : Recovers (Grammar.form "domain" (Grammar.symbol .name))
      (enclose [' '] "domain" [n.written.toList]) (· = n) :=
    recovers_form (isHead_of_isWord (by decide)) (.one isGap_blank (recovers_symbol n))
  have hdefinitions : ReadsSections (Grammar.optional (Grammar.many definition)) [' '] []
      fun o => ∃ ds, o = some ds ∧ ds = [] :=
    .last (readsParts_many_eq (t := fun _ => []) isGap_blank (l := []) (by simp)
      fun _ => misses_close rfl)
  have hparts := ReadsParts.sections hname
    (.absent (g := parents) (fun _ => misses_close rfl)
      (.absent (g := requirements) (fun _ => misses_close rfl)
        (.absent (g := types) (fun _ => misses_close rfl)
          (.absent (g := constants) (fun _ => misses_close rfl)
            (.absent (g := predicates) (fun _ => misses_close rfl)
              (.absent (g := timeless) (fun _ => misses_close rfl)
                (.absent (g := functions) (fun _ => misses_close rfl)
                  (.absent (g := domainConstraints) (fun _ => misses_close rfl)
                    hdefinitions))))))))
  rw [domain, look_map]
  have hd : IsHead "define" := isHead_of_isWord (by decide)
  have h := (recovers_form hd hparts).look_padded hr levels b
  refine h.andThen ?_
  rintro b' ⟨name, ps, rs, ts, cs, preds, tl, fs, con, ds⟩
    ⟨rfl, rfl, rfl, rfl, rfl, rfl, rfl, rfl, rfl, _, rfl, rfl⟩
  exact Finding.leaves_found rfl

/-- A domain without sections is parsed, with the blanks and comments behind it. -/
theorem parse_bareDomain (n : Name) {r : List Char} (hr : Delimited r) (ceiling : Nat)
    (hc : 2 * (bareDomain n ++ r).length + 1 < ceiling) :
    ∃ c, domain.parse (Cursor.ofOffset (bareDomain n ++ r) 0 0 ceiling) = .ok (c, { name := n }) ∧
      c.offset = (bareDomain n).length + blankLength false r := by
  have hview : (Cursor.ofOffset (bareDomain n ++ r) 0 0 ceiling).view =
      ⟨none, bareDomain n ++ r⟩ := rfl
  obtain h | ⟨b, a, h, rfl⟩ := look_bareDomain n hr ceiling none
  · have hle := nesting_le_length false (bareDomain n ++ r)
    exact absurd h (look_ne_tooDeep (by decide) (by simp only; omega))
  obtain ⟨d, hd, hf, hw⟩ := parse_of_look settled_domain
    (c := Cursor.ofOffset (bareDomain n ++ r) 0 0 ceiling) (by simp [Cursor.Calm, Cursor.ofOffset])
    (by rw [hview]; exact h)
  refine ⟨d, hd, ?_⟩
  have hrest : d.rest = r.drop (blankLength false r) := congrArg View.rest hw
  have hoff := hf.offset
  have hle := blankLength_le false r
  rw [hrest] at hoff
  simp only [Cursor.ofOffset, List.length_drop, List.length_append, List.drop_zero] at hoff
  omega

/-- A domain behind a parenthesis, with a comment that goes on up to the next line. -/
theorem parse_bareDomain_in_context :
    ∃ d, domain.parse (Cursor.ofOffset
        ([')'] ++ (bareDomain ⟨"d", by decide⟩ ++ [' ', ';', ')']) ++ ['x', '\n', ' ', '(']) 1 0 60) =
      .ok (d, { name := ⟨"d", by decide⟩ }) ∧ d.offset = 26 := by
  obtain ⟨c, hc, hk⟩ := parse_bareDomain ⟨"d", by decide⟩ (r := [' ', ';', ')'])
    (.blank (by decide) _) 60 (by decide)
  obtain ⟨d, hd, hoff⟩ :=
    parse_in_context .domain hc rfl (by rw [hk]; decide) [')'] ['x', '\n', ' ', '(']
  rw [hk] at hd hoff
  exact ⟨d, hd, hoff.trans (by decide)⟩

/-- A whole domain does not always stop behind the blanks that follow it: a comment that its text
leaves open takes more. -/
theorem parse_domain_into_open_comment :
    ¬∀ (t u y : List Char) (depth ceiling k : Nat) (c : Cursor) (a : Domain),
      domain.parse (Cursor.ofOffset t 0 depth ceiling) = .ok (c, a) → c.offset = k →
      charBefore t k = some ')' →
      ∃ d, domain.parse (Cursor.ofOffset (u ++ t.take k ++ y) u.length depth ceiling) = .ok (d, a) ∧
        d.offset ≤ u.length + k + blankLength false y := by
  intro h
  obtain ⟨c, hc, hk⟩ := parse_bareDomain ⟨"d", by decide⟩ (r := [' ', ';', ')'])
    (.blank (by decide) _) 60 (by decide)
  obtain ⟨d, hd, hle⟩ := h _ [] ['x'] 0 60 _ c _ hc rfl (by rw [hk]; decide)
  obtain ⟨e, he, hoff⟩ := parse_bareDomain ⟨"d", by decide⟩ (r := [' ', ';', ')', 'x'])
    (.blank (by decide) _) 60 (by decide)
  rw [hk] at hd hle
  obtain rfl : d = e := by
    have := hd.symm.trans he
    simpa using this
  rw [hoff] at hle
  exact absurd hle (by decide)

end Rule

end Pddl
