import Pddl.Proofs.Nesting
import Pddl.Proofs.NormalForm
import Pddl.Proofs.Outcome
import Pddl.Proofs.Trajectories

/-!
# Parsed trees are in normal form

Nothing checks the normal form of a tree; it follows from the order in which the grammar tries the
alternatives.  What is found by a rule is made of what its parts find, so that every construct below
is plain if its parts are.

* `Rule.Finds.plain_condition`, `Rule.Finds.plain_constraint`, … : **what is found is plain.**
* `Rule.parse_normal` : **the trees of parsed domains and problems are in normal form**, and
  literals stand only among timeless facts and initial facts.
-/

namespace Pddl

namespace Rule

open Grammar

variable {α : Type} {text : List Char} {levels : Nat} {g : Rule α}

theorem Finds.of_le {j k : Nat} (hjk : j ≤ k) {a : α} (h : g.Finds text j a) :
    g.Finds text k a := by
  obtain ⟨v, w, hv, h⟩ := h
  exact ⟨v, w, hv, look_of_le hjk h⟩

/-! ### Conditions -/

theorem Finds.plain_timedGoal {g : TimedGoal} (h : Finds timedGoal text levels g) : Plain g := by
  rcases h.orElse with h | h
  · obtain ⟨⟨t, g⟩, hx, rfl⟩ := h.map
    exact plain_form rfl ⟨plain t, hx.form.pair.2.goal.plain⟩
  · obtain ⟨⟨i, g⟩, hx, rfl⟩ := h.map
    exact plain_form rfl ⟨plain i, hx.form.pair.2.goal.plain⟩

theorem Finds.plain_preferredTimedGoal {g : PreferredTimedGoal}
    (h : Finds preferredTimedGoal text levels g) : Plain g := by
  rcases h.orElse with h | h
  · obtain ⟨⟨n, g⟩, hx, rfl⟩ := h.map
    exact plain_form rfl ⟨plain_some (plain n), hx.form.pair.2.plain_timedGoal⟩
  rcases h.orElse with h | h
  · obtain ⟨g, hx, rfl⟩ := h.map
    exact plain_form rfl ⟨plain_absent, hx.form.plain_timedGoal⟩
  · obtain ⟨g, hx, rfl⟩ := h.map
    exact hx.plain_timedGoal

theorem Finds.plain_condition {c : Condition} (h : Finds condition text levels c) : Plain c := by
  refine Finds.call_induction (fun k ih _ h => ?_) h
  rcases h.orElse with h | h
  · obtain ⟨⟨vs, c⟩, hx, rfl⟩ := h.map
    exact plain_form rfl ⟨hx.quantified.1.parameters.plain, ih hx.quantified.2⟩
  rcases h.orElse with h | h
  · obtain ⟨cs, hx, rfl⟩ := h.map
    exact plain_form rfl (plain_nodes rfl (fun _ _ => rfl) fun c hc => ih (hx.form.many c hc))
  · obtain ⟨g, hx, rfl⟩ := h.map
    exact hx.plain_preferredTimedGoal

/-! ### Effects of durative actions -/

theorem Finds.plain_rate {r : Rate} (h : Finds rate text levels r) : Plain r := by
  rcases h.orElse with h | h
  · obtain ⟨e, hx, rfl⟩ := h.map
    have he : Finds Rule.expression text levels e := by
      rcases hx.form.orElse with h | h
      · obtain ⟨p, hp, rfl⟩ := h.map
        exact hp.pair.2
      · obtain ⟨p, hp, rfl⟩ := h.map
        exact hp.pair.1
    exact plain_form rfl (plain_some he.expression.plain)
  · obtain ⟨_, -, rfl⟩ := h.map
    exact plain_form rfl plain_absent

theorem Finds.plain_durativeAssignment {a : DurativeAssignment}
    (h : Finds durativeAssignment text levels a) : Plain a := by
  obtain ⟨⟨op, f, e⟩, hx, rfl⟩ := h.map
  exact plain_form rfl ⟨plain op, plain f, hx.parens.pair.2.pair.2.durativeExpression.plain⟩

theorem Finds.plain_timedEffect {e : TimedEffect} (h : Finds timedEffect text levels e) :
    Plain e := by
  rcases h.orElse with h | h
  · obtain ⟨⟨t, a⟩, hx, rfl⟩ := h.map
    exact plain_form rfl ⟨plain t, hx.form.pair.2.plain_durativeAssignment⟩
  rcases h.orElse with h | h
  · obtain ⟨⟨t, c⟩, hx, rfl⟩ := h.map
    exact plain_form rfl ⟨plain t, Consequent.plain hx.form.pair.2.consequent⟩
  · obtain ⟨⟨op, f, r⟩, hx, rfl⟩ := h.map
    exact plain_form rfl ⟨plain op, plain f, hx.parens.pair.2.pair.2.plain_rate⟩

theorem Finds.plain_durativeEffect {e : DurativeEffect} (h : Finds durativeEffect text levels e) :
    Plain e := by
  refine Finds.call_induction (fun k ih _ h => ?_) h
  rcases h.orElse with h | h
  · obtain ⟨es, hx, rfl⟩ := h.map
    exact plain_form rfl (plain_nodes rfl (fun _ _ => rfl) fun e he => ih (hx.form.many e he))
  rcases h.orElse with h | h
  · obtain ⟨⟨vs, e⟩, hx, rfl⟩ := h.map
    exact plain_form rfl ⟨hx.quantified.1.parameters.plain, ih hx.quantified.2⟩
  rcases h.orElse with h | h
  · obtain ⟨⟨c, e⟩, hx, rfl⟩ := h.map
    exact plain_form rfl ⟨hx.form.pair.1.plain_condition, hx.form.pair.2.plain_timedEffect⟩
  · obtain ⟨e, hx, rfl⟩ := h.map
    exact hx.plain_timedEffect

/-! ### Durations -/

theorem Finds.plain_durationBound {b : DurationBound} (h : Finds durationBound text levels b) :
    Plain b := by
  refine Finds.call_induction (fun k ih _ h => ?_) h
  rcases h.orElse with h | h
  · obtain ⟨⟨c, _, e⟩, hx, rfl⟩ := h.map
    have he : Plain e := by
      rcases hx.parens.pair.2.pair.2.orElse with h | h
      · obtain ⟨x, hnumber, rfl⟩ := h.map
        exact plain_number hnumber.number
      · exact h.expression.plain
    exact plain_form rfl ⟨plain c, he⟩
  · obtain ⟨⟨t, b⟩, hx, rfl⟩ := h.map
    exact plain_form rfl ⟨plain t, ih hx.form.pair.2⟩

/-- The bounds of a duration are plain if there are any. -/
theorem plain_durationConstraint {bs : List DurationBound} (hne : bs ≠ [])
    (h : ∀ b ∈ bs, Plain b) : Plain (⟨bs⟩ : DurationConstraint) := by
  refine Node.everywhere_form.2 ⟨⟨⟨_, rfl, ?_⟩, nofun⟩, ?_⟩
  · exact fun hnil => hne (List.map_eq_nil_iff.1 hnil)
  · exact List.forall_mem_singleton.2 (plain_list h)

theorem Finds.plain_durationConstraint {c? : Option DurationConstraint}
    (h : Finds durationConstraint text levels c?) : ∀ c ∈ c?, Plain c := by
  intro c hc
  rcases (h.emptyOr c hc).orElse with h | h
  · obtain ⟨b, hx, rfl⟩ := h.map
    exact Rule.plain_durationConstraint (by simp) (by simpa using hx.plain_durationBound)
  · obtain ⟨bs, hx, rfl⟩ := h.map
    exact Rule.plain_durationConstraint hx.form.many1.1
      fun b hb => (hx.form.many1.2 b hb).plain_durationBound

/-! ### Trajectories -/

/-- An operand is a goal or a constraint. -/
theorem Finds.operand {o : Operand} (h : Finds Rule.operand text levels o) :
    (∃ g, Finds Rule.goal text levels g ∧ o = .goal g) ∨
      ∃ c, Finds Rule.constraint text levels c ∧ o = .constraint c := by
  obtain ⟨k, rfl, h⟩ := h.call
  rcases h.orElse with h | h
  · obtain ⟨g, hx, rfl⟩ := h.map
    exact .inl ⟨g, hx.of_le (Nat.le_succ k), rfl⟩
  · obtain ⟨c, hx, rfl⟩ := h.map
    exact .inr ⟨c, hx.of_le (Nat.le_succ k), rfl⟩

theorem Finds.plain_constraint {c : Constraint} (h : Finds Rule.constraint text levels c) :
    Plain c := by
  refine Finds.call_induction (fun k ih c h => ?_) h
  have ho : ∀ {o : Operand}, Finds Rule.operand text k o → Plain o := by
    intro o h
    obtain ⟨g, hg, rfl⟩ | ⟨c, hc, rfl⟩ := h.operand
    · exact hg.goal.plain
    · exact ih hc
  obtain ⟨v, w, hv, h⟩ := h
  have h : ReadsConstraint k v w c := readsConstraint_of_look h
  cases c with
  | conj cs =>
    have hcs := (Finds.form ⟨v, w, hv, h⟩).many
    exact plain_form rfl (plain_nodes rfl (fun _ _ => rfl) fun c hc => ih (hcs c hc))
  | universal vs c =>
    obtain ⟨hvs, hc⟩ := Finds.quantified ⟨v, w, hv, h⟩
    exact plain_form rfl ⟨hvs.parameters.plain, ih hc⟩
  | atEnd g => exact plain_form rfl (Finds.form ⟨v, w, hv, h⟩).goal.plain
  | always o | sometime o | atMostOnce o => exact plain_form rfl (ho (Finds.form ⟨v, w, hv, h⟩))
  | sometimeAfter o p | sometimeBefore o p =>
    have hop := (Finds.form ⟨v, w, hv, h⟩).pair
    exact plain_form rfl ⟨ho hop.1, ho hop.2⟩
  | within x o | holdAfter x o =>
    have hxo := (Finds.form ⟨v, w, hv, h⟩).pair
    exact plain_form rfl ⟨plain_number hxo.1.number, ho hxo.2⟩
  | alwaysWithin x o p =>
    have hxop := (Finds.form ⟨v, w, hv, h⟩).pair
    exact plain_form rfl ⟨plain_number hxop.1.number, ho hxop.2.pair.1, ho hxop.2.pair.2⟩
  | holdDuring x y o =>
    have hxyo := (Finds.form ⟨v, w, hv, h⟩).pair
    exact plain_form rfl ⟨plain_number hxyo.1.number, plain_number hxyo.2.pair.1.number,
      ho hxyo.2.pair.2⟩

theorem Finds.plain_preferredConstraint {c : PreferredConstraint}
    (h : Finds Rule.preferredConstraint text levels c) : Plain c := by
  refine Finds.call_induction (fun k ih _ h => ?_) h
  rcases h.orElse with h | h
  · obtain ⟨cs, hx, rfl⟩ := h.map
    exact plain_form rfl (plain_nodes rfl (fun _ _ => rfl) fun c hc => ih (hx.form.many c hc))
  rcases h.orElse with h | h
  · obtain ⟨⟨vs, c⟩, hx, rfl⟩ := h.map
    exact plain_form rfl ⟨hx.quantified.1.parameters.plain, ih hx.quantified.2⟩
  rcases h.orElse with h | h
  · obtain ⟨⟨n, c⟩, hx, rfl⟩ := h.map
    exact plain_form rfl ⟨plain_some (plain n), hx.form.pair.2.plain_constraint⟩
  rcases h.orElse with h | h
  · obtain ⟨c, hx, rfl⟩ := h.map
    exact plain_form rfl ⟨plain_absent, hx.form.plain_constraint⟩
  · obtain ⟨c, hx, rfl⟩ := h.map
    exact hx.plain_constraint

/-! ### Definitions -/

theorem Finds.labelledOrEmpty {label : String} {g : Rule (Option α)} {a? : Option α}
    (h : Finds (Rule.labelledOrEmpty label g) text levels a?) :
    ∀ a ∈ a?, g.Finds text levels (some a) := by
  rintro a rfl
  obtain ⟨b, hb, hjoin⟩ := h.map
  obtain rfl := Option.join_eq_some_iff.1 hjoin
  exact (hb.optional (some a) rfl).labelled

theorem Finds.plain_action {a : Action} (h : Finds action text levels a) : Plain a := by
  obtain ⟨⟨n, ps, p, e⟩, hx, rfl⟩ := h.map
  obtain ⟨hps, hx⟩ := hx.form.pair.2.pair
  obtain ⟨hp, he⟩ := hx.seq
  refine plain_form rfl ⟨plain n, hps.labelled.parameters.plain, plain_option fun p hmem => ?_,
    plain_option fun e hmem => ?_⟩
  · exact ((hp.labelledOrEmpty p hmem).emptyOr p rfl).preconditions.plain
  · exact ((he.labelledOrEmpty e hmem).emptyOr e rfl).effects.plain

theorem Finds.plain_durativeAction {a : DurativeAction} (h : Finds durativeAction text levels a) :
    Plain a := by
  obtain ⟨⟨n, ps, d, c, e⟩, hx, rfl⟩ := h.map
  obtain ⟨hps, hx⟩ := hx.form.pair.2.pair
  obtain ⟨hd, hx⟩ := hx.seq
  obtain ⟨hc, he⟩ := hx.seq
  refine plain_form rfl ⟨plain n, hps.labelled.parameters.plain, plain_option fun d hmem => ?_,
    plain_option fun c hmem => ?_, plain_option fun e hmem => ?_⟩
  · exact (hd.labelledOrEmpty d hmem).plain_durationConstraint d rfl
  · exact ((hc.labelledOrEmpty c hmem).emptyOr c rfl).plain_condition
  · exact ((he.labelledOrEmpty e hmem).emptyOr e rfl).plain_durativeEffect

theorem Finds.plain_items {kind : SymbolKind} {l : TypedList (Symbol kind)}
    (h : Finds (items (symbol kind)) text levels l) : Plain l :=
  (Finds.itemsOf (d := .object) trivial h).1.plain

theorem Finds.plain_predicateSkeleton {s : PredicateSkeleton}
    (h : Finds predicateSkeleton text levels s) : Plain s := by
  obtain ⟨⟨p, vs⟩, hx, rfl⟩ := h.map
  exact plain_form rfl ⟨plain p, hx.parens.headed.2.plain_items⟩

theorem Finds.plain_functionSkeleton {s : FunctionSkeleton}
    (h : Finds functionSkeleton text levels s) : Plain s := by
  obtain ⟨⟨f, vs⟩, hx, rfl⟩ := h.map
  exact plain_form rfl ⟨plain f, hx.parens.headed.2.plain_items⟩

theorem Finds.plain_derivedPredicate {d : DerivedPredicate}
    (h : Finds derivedPredicate text levels d) : Plain d := by
  obtain ⟨⟨p, g⟩, hx, rfl⟩ := h.map
  exact plain_form rfl ⟨hx.form.pair.1.plain_predicateSkeleton, hx.form.pair.2.goal.plain⟩

theorem Finds.plain_definition {d : Definition} (h : Finds definition text levels d) : Plain d := by
  rcases h.orElse with h | h
  · obtain ⟨a, ha, rfl⟩ := h.map
    exact ha.plain_action
  rcases h.orElse with h | h
  · obtain ⟨a, ha, rfl⟩ := h.map
    exact ha.plain_durativeAction
  · obtain ⟨d, hd, rfl⟩ := h.map
    exact hd.plain_derivedPredicate

/-! ### Domains -/

/-- **All sections of a domain but the timeless facts are plain.** -/
theorem Finds.plain_domain {d : Domain} (h : Finds domain text levels d) :
    Plain { d with timeless := [] } := by
  obtain ⟨⟨name, parents, requirements, types, constants, predicates, timeless, functions,
    constraints, definitions⟩, hx, rfl⟩ := h.map
  obtain ⟨-, h⟩ := hx.padded.form.pair
  obtain ⟨-, h⟩ := h.seq
  obtain ⟨-, h⟩ := h.seq
  obtain ⟨htypes, h⟩ := h.seq
  obtain ⟨hconstants, h⟩ := h.seq
  obtain ⟨hpredicates, h⟩ := h.seq
  obtain ⟨-, h⟩ := h.seq
  obtain ⟨hfunctions, h⟩ := h.seq
  obtain ⟨hconstraints, hdefinitions⟩ := h.seq
  have htypes : Plain (types.getD {}) := plain_getD plain_noItems fun l hl =>
    (htypes.optional l hl).form.plain_items
  have hconstants : Plain (constants.getD {}) := plain_getD plain_noItems fun l hl =>
    (hconstants.optional l hl).form.plain_items
  have hpredicates : Plain (predicates.getD []) := plain_getD plain_nil fun ps hps =>
    plain_list fun p hp => ((hpredicates.optional ps hps).form.many1.2 p hp).plain_predicateSkeleton
  have hfunctions : Plain (functions.getD {}) := plain_getD plain_noItems fun l hl => by
    obtain ⟨hwritable, hfound⟩ :=
      Finds.itemsOf (d := .number) trivial (hfunctions.optional l hl).form
    exact hwritable.plain_of_values fun x hx => (hfound x hx).plain_functionSkeleton
  have hconstraints : Plain (constraints.getD (.conj [])) :=
    plain_getD (plain_form rfl (plain_nil (α := Constraint))) fun c hc =>
      (hconstraints.optional c hc).form.plain_constraint
  have hdefinitions : Plain (definitions.getD []) := plain_getD plain_nil fun ds hds =>
    plain_list fun d hd => ((hdefinitions.optional ds hds).many d hd).plain_definition
  exact plain_form rfl ⟨plain name, plain (parents.getD []), plain (requirements.getD .none),
    htypes, hconstants, hpredicates, plain_nil (α := Literal Name), hfunctions, hconstraints,
    hdefinitions⟩

/-- A domain is in normal form if it is plain without its timeless facts. -/
theorem normal_domain {d : Domain} (h : Plain { d with timeless := [] }) :
    (toNode d).Everywhere Node.IsNormal := by
  obtain ⟨-, h⟩ := Node.everywhere_form.1 h.normal
  refine Node.everywhere_form.2 ⟨trivial, ?_⟩
  simp only [List.forall_mem_cons] at h ⊢
  obtain ⟨hname, hparents, hrequirements, htypes, hconstants, hpredicates, -, h⟩ := h
  exact ⟨hname, hparents, hrequirements, htypes, hconstants, hpredicates,
    normal_literals d.timeless, h⟩

/-! ### Problems -/

theorem Finds.plain_metric {m : Metric} (h : Finds metric text levels m) : Plain m := by
  obtain ⟨⟨o, e⟩, hx, rfl⟩ := h.map
  exact plain_form rfl ⟨plain o, hx.form.pair.2.metricExpression.plain⟩

instance : PlainType LengthBounds := ⟨fun l => plain_form rfl ⟨plain l.serial, plain l.parallel⟩⟩

/-- **All sections of a problem but the initial state are plain.** -/
theorem Finds.plain_problem {p : Problem} (h : Finds problem text levels p) :
    Plain { p with init := [] } := by
  obtain ⟨⟨name, domain, requirements, objects, init, goal, constraints, metric, length⟩,
    hx, rfl⟩ := h.map
  obtain ⟨-, h⟩ := hx.padded.form.pair
  obtain ⟨-, h⟩ := h.pair
  obtain ⟨-, h⟩ := h.seq
  obtain ⟨hobjects, h⟩ := h.seq
  obtain ⟨-, h⟩ := h.seq
  obtain ⟨hgoal, h⟩ := h.seq
  obtain ⟨hconstraints, h⟩ := h.seq
  obtain ⟨hmetric, -⟩ := h.seq
  have hobjects : Plain (objects.getD {}) := plain_getD plain_noItems fun l hl =>
    (hobjects.optional l hl).form.plain_items
  have hgoal : Plain goal := hgoal.separated.form.preconditions.plain
  have hconstraints : Plain (constraints.getD (.conj [])) :=
    plain_getD (plain_form rfl (plain_nil (α := PreferredConstraint))) fun c hc =>
      (hconstraints.optional c hc).form.plain_preferredConstraint
  have hmetric : Plain metric := plain_option fun m hm => (hmetric.optional m hm).plain_metric
  exact plain_form rfl ⟨plain name, plain domain, plain (requirements.getD .none), hobjects,
    plain_nil (α := InitialFact), hgoal, hconstraints, hmetric, plain length⟩

theorem Finds.normal_initialFact {f : InitialFact} (h : Finds initialFact text levels f) :
    (toNode f).Everywhere Node.IsNormal := by
  rcases h.orElse with h | h
  · obtain ⟨l, -, rfl⟩ := h.map
    exact normal_literal l
  rcases h.orElse with h | h
  · obtain ⟨⟨x, l⟩, hx, rfl⟩ := h.map
    have hx : (toNode x).Everywhere Node.IsNormal :=
      (plain_number hx.form.pair.1.number).normal
    exact Node.everywhere_form.2 ⟨trivial, List.forall_iff_forall_mem.1 ⟨hx, normal_literal l⟩⟩
  rcases h.orElse with h | h
  · obtain ⟨⟨t, x⟩, hx, rfl⟩ := h.map
    have hf : Plain (InitialFact.numeric t x) :=
      plain_form rfl ⟨plain t, plain_number hx.form.pair.2.number⟩
    exact hf.normal
  · obtain ⟨⟨t, n⟩, -, rfl⟩ := h.map
    have hf : Plain (InitialFact.object t n) := plain_form rfl ⟨plain t, plain n⟩
    exact hf.normal

theorem Finds.normal_init {fs : List InitialFact} (h : Finds init text levels fs) :
    (toNode fs).Everywhere Node.IsNormal :=
  Node.everywhere_tuple.2 ⟨trivial, List.forall_mem_map.2 fun f hf =>
    (h.form.many f hf).normal_initialFact⟩

theorem Finds.init_of_problem {p : Problem} (h : Finds problem text levels p) :
    Finds init text levels p.init := by
  obtain ⟨p, hx, rfl⟩ := h.map
  exact hx.padded.form.pair.2.pair.2.seq.2.seq.2.seq.1.separated

/-- A problem is in normal form if it is plain without its initial state. -/
theorem normal_problem {p : Problem} (h : Plain { p with init := [] })
    (hinit : (toNode p.init).Everywhere Node.IsNormal) : (toNode p).Everywhere Node.IsNormal := by
  obtain ⟨-, h⟩ := Node.everywhere_form.1 h.normal
  refine Node.everywhere_form.2 ⟨trivial, ?_⟩
  simp only [List.forall_mem_cons] at h ⊢
  obtain ⟨hname, hdomain, hrequirements, hobjects, -, h⟩ := h
  exact ⟨hname, hdomain, hrequirements, hobjects, hinit, h⟩

/-! ### Whole texts -/

/-- **Parsed trees are in normal form.**  Under any ceiling, in the tree of a domain or a problem
that is parsed from a text, no preconditions hold a conjunction or a universal goal, an operation on
many operands is a sum or a product of at least three, numbers are finite and not negative, choices
among types and bounds on durations are not empty, and symbols are names.  Without the timeless
facts of the domain and the initial state of the problem, no node is a literal; so no goal is one,
wherever it stands. -/
theorem parse_normal (text : List Char) (ceiling : Nat) :
    (∀ c d, domain.parse (.ofText text ceiling) = .ok (c, d) →
      (toNode d).Everywhere Node.IsNormal ∧
        (toNode { d with timeless := [] }).Everywhere fun n => ¬n.IsForm .literal) ∧
    ∀ c p, problem.parse (.ofText text ceiling) = .ok (c, p) →
      (toNode p).Everywhere Node.IsNormal ∧
        (toNode { p with init := [] }).Everywhere fun n => ¬n.IsForm .literal := by
  have hcalm := calm_ofText text ceiling
  constructor
  · intro c d h
    have hd := (finds_of_parse settled_domain hcalm h).plain_domain
    exact ⟨normal_domain hd, hd.mono fun _ hn => hn.2⟩
  · intro c p h
    have hfinds := finds_of_parse settled_problem hcalm h
    have hp := hfinds.plain_problem
    exact ⟨normal_problem hp hfinds.init_of_problem.normal_init, hp.mono fun _ hn => hn.2⟩

set_option maxRecDepth 20000 in
/-- Literals among the facts of a domain and of a problem, and nested conjunctions in a goal. -/
theorem parse_normal_nested :
    (∃ c d, domain.parse (.ofText
        "(define(domain d)(:timeless(not(p)))(:derived(q)(not(p))))".toList 40) = .ok (c, d) ∧
      (toNode d).Everywhere Node.IsNormal ∧
        (toNode { d with timeless := [] }).Everywhere fun n => ¬n.IsForm .literal) ∧
    ∃ c p, problem.parse (.ofText
        "(define(problem p)(:domain d)(:init(not(p)))(:goal(and(and(p)(q)))))".toList 40) =
        .ok (c, p) ∧
      (toNode p).Everywhere Node.IsNormal ∧
        (toNode { p with init := [] }).Everywhere fun n => ¬n.IsForm .literal := by
  obtain ⟨c, d, hd, -⟩ := exists_of_parse_any (g := domain) (p := fun _ => true)
    (c := .ofText "(define(domain d)(:timeless(not(p)))(:derived(q)(not(p))))".toList 40)
    (by decide +kernel)
  obtain ⟨c', p, hp, -⟩ := exists_of_parse_any (g := problem) (p := fun _ => true)
    (c := .ofText
      "(define(problem p)(:domain d)(:init(not(p)))(:goal(and(and(p)(q)))))".toList 40)
    (by decide +kernel)
  exact ⟨⟨c, d, hd, (parse_normal _ 40).1 c d hd⟩, c', p, hp, (parse_normal _ 40).2 c' p hp⟩

end Rule

end Pddl
