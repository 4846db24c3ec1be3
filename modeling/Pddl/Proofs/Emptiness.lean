import Pddl.Node.Walk
import Pddl.Proofs.DurativeExpressions

/-!
# Constraints of domains as constraints of problems

A conjunction of constraints of a domain is also one of a problem, and so are the conjunctions in
it.  The two tell differently whether they are empty: for a domain, a conjunction of empty
conjunctions is empty, too, but for a problem only the members are counted.

* `Constraint.toPreferred` : a constraint of a domain as one of a problem.
* `Rule.extends_preferredConstraint` : **on every number of levels, constraints of problems extend
  those of domains.**
* `Constraint.ConstrainsNothing` : a conjunction of nothing but such conjunctions.
* `Rule.parse_preferredConstraint` : **the same of parsing at a place, with what either conjunction
  says of its emptiness**; they disagree on conjunctions of empty conjunctions, and only there.
-/

namespace Pddl

/-! ### Constraints of problems -/

mutual

/-- The constraint as one of a problem: conjunctions and quantifiers are read anew. -/
def Constraint.toPreferred : Constraint → PreferredConstraint
  | .conj cs => .conj (Constraint.allToPreferred cs)
  | .universal vs c => .universal vs c.toPreferred
  | c => .required c

/-- The constraints as constraints of a problem. -/
def Constraint.allToPreferred : List Constraint → List PreferredConstraint
  | [] => []
  | c :: cs => c.toPreferred :: Constraint.allToPreferred cs

end

namespace Constraint

theorem allToPreferred_eq_map (cs : List Constraint) :
    allToPreferred cs = cs.map toPreferred := by
  induction cs with
  | nil => rfl
  | cons c cs ih => rw [allToPreferred, List.map_cons, ih]

/-- No constraint becomes a preference. -/
theorem toPreferred_ne_preferred (c : Constraint) (n : Option PreferenceName) (d : Constraint) :
    c.toPreferred ≠ .preferred n d := by
  cases c <;> simp [toPreferred]

end Constraint

/-! ### Emptiness -/

/-- The constraint is a conjunction of nothing but such conjunctions. -/
inductive Constraint.ConstrainsNothing : Constraint → Prop where
  | conj {cs : List Constraint} (h : ∀ c ∈ cs, ConstrainsNothing c) : ConstrainsNothing (.conj cs)

namespace Constraint

theorem constrainsNothing_conj {cs : List Constraint} :
    ConstrainsNothing (.conj cs) ↔ ∀ c ∈ cs, c.ConstrainsNothing :=
  ⟨fun | .conj h => h, .conj⟩

mutual

theorem isUnconstraining_toNode : ∀ c : Constraint,
    (toNode c).isUnconstraining = true ↔ c.ConstrainsNothing
  | conj cs => (allUnconstraining_toNodes cs).trans constrainsNothing_conj.symm
  | universal _ _ | atEnd _ | always _ | sometime _ | within _ _ | atMostOnce _
  | sometimeAfter _ _ | sometimeBefore _ _ | alwaysWithin _ _ _ | holdDuring _ _ _
  | holdAfter _ _ => ⟨nofun, nofun⟩

theorem allUnconstraining_toNodes : ∀ cs : List Constraint,
    Node.allUnconstraining (toNodes cs) = true ↔ ∀ c ∈ cs, c.ConstrainsNothing
  | [] => by simp [toNodes, Node.allUnconstraining]
  | c :: cs => by
    rw [toNodes, Node.allUnconstraining, Bool.and_eq_true, List.forall_mem_cons,
      allUnconstraining_toNodes cs]
    exact and_congr_left' (isUnconstraining_toNode c)

end

theorem isVacuous?_conj (cs : List Constraint) : (toNode (Constraint.conj cs)).isVacuous? =
    some (toNode (Constraint.conj cs)).isUnconstraining := rfl

end Constraint

theorem PreferredConstraint.isVacuous?_conj (ps : List PreferredConstraint) :
    (toNode (PreferredConstraint.conj ps)).isVacuous? = some ps.isEmpty := by
  cases ps <;> rfl

/-! ### Head words -/

/-- The characters of the first word of a head. -/
def firstWord (x : String) : List Char := (wordsOf x.toList).headD []

theorem firstWord_isInitial {x : String} {cs : List Char} (h : (keywordLength? x cs).isSome) :
    firstWord x <+: cs := by
  obtain ⟨n, hn⟩ := Option.isSome_iff_exists.1 h
  have hwords := (keywordLength?_eq_some.1 hn).1
  rw [firstWord]
  cases hx : wordsOf x.toList with
  | nil => exact List.nil_prefix
  | cons w ws =>
    rw [hx] at hwords
    obtain ⟨r, rfl, -⟩ := wordsLength?_cons.1 hwords
    exact List.prefix_append w r

/-- Alternatives extend each other if what the first extension alone finds hides nothing. -/
theorem Finding.Extends.orElse {α β : Type} {f : α → β} {o o' : Finding α} {p p' : Finding β}
    (hop : o.Extends f p) (h : o = .missing → p = .missing → o'.Extends f p')
    (hout : o = .missing → p ≠ .missing → o'.Misses) :
    (o.orElse o').Extends f (p.orElse p') := by
  obtain (rfl | rfl | rfl) | ⟨rfl, hp⟩ := hop
  · exact .inl (.inl rfl)
  · exact .inl (.inr (.inl rfl))
  · cases o with
    | missing => exact h rfl rfl
    | _ => exact .inl (.inr (.inr rfl))
  · by_cases hmissing : p = .missing
    · rw [hmissing]
      exact h rfl hmissing
    · rw [orElse_of_ne_missing hmissing]
      obtain rfl | rfl := hout rfl hmissing
      · exact .inl (.inl rfl)
      · exact .inr ⟨rfl, hp⟩

namespace Rule

open Grammar

variable {α β γ δ : Type} {levels : Nat} {v w : View}

/-- A form does not begin with one of the words if it begins with another one. -/
theorem HeadedBy.missing_of_opensWith {words : List String} {g : Rule α} (hg : g.HeadedBy words)
    {x : String} (hx : v.OpensWith x)
    (hwords : ∀ y ∈ words, ¬(firstWord x <+: firstWord y ∨ firstWord y <+: firstWord x)) :
    g.look levels v = .missing :=
  hg levels v fun y hy hopens => hwords y hy <|
    List.prefix_or_prefix_of_prefix (firstWord_isInitial hx.2) (firstWord_isInitial hopens.2)

/-- What is not missing begins with the head word. -/
theorem opensWith_of_look_form {x : String} {g : Rule α}
    (h : look levels (form x g) v ≠ .missing) : v.OpensWith x := by
  by_contra hv
  exact h (headedBy_form x g levels v (by simpa using hv))

/-! ### Forms that extend others -/

namespace Extends

variable {f : α → β} {g : Rule α} {g' : Rule β}

theorem map {m : α → γ} {k : β → δ} {h : γ → δ} (hg : Extends levels f g g')
    (hm : ∀ a, k (f a) = h (m a)) (hrange : ∀ b, k b ∈ Set.range h → b ∈ Set.range f) :
    Extends levels h (m <$> g) (k <$> g') :=
  hg.refine (fun a => congrArg Except.ok (hm a)) fun b c hc hmem =>
    hrange b (by rwa [Except.ok.inj hc])

theorem form (hg : ∀ v, v.skipBlanks = v →
      (look levels (Rule.closed g) v).Extends f (look levels (Rule.closed g') v)) (x : String) :
    Extends levels f (Grammar.form x g) (Grammar.form x g') := by
  refine parens fun v => ?_
  have hclosed {ε : Type} (h : Rule ε) : look levels (Rule.closed (word x *> blanks *> h)) v =
      (look levels (word x) v).andThen fun w _ => look levels (Rule.closed h) w.skipBlanks := by
    simp only [look_closed, look_seqRight, look_blanks, Finding.andThen_assoc]
    rfl
  rw [hclosed, hclosed]
  exact Finding.Extends.andThen (.inl (Finding.tracks_refl _))
    (fun w _ _ => hg _ w.skipBlanks_skipBlanks) fun w b _ _ hb => absurd ⟨b, rfl⟩ hb

end Extends

/-! ### Constraints -/

/-- A constraint is a conjunction, has a quantifier, or begins with a modal operator. -/
theorem exists_modalForms : ∃ g : Rule Constraint,
    constraintForms = (.conj <$> form "and" (many constraint) <|>
      (fun (vs, c) => .universal vs c) <$> quantified "forall" constraint <|> g) ∧
    g.HeadedBy ["at end", "always", "sometime", "within", "at-most-once", "sometime-after",
      "sometime-before", "always-within", "hold-during", "hold-after"] :=
  ⟨_, rfl, ((headedBy_form _ _).map _).orElse <| ((headedBy_form _ _).map _).orElse <|
    ((headedBy_form _ _).map _).orElse <| ((headedBy_form _ _).map _).orElse <|
    ((headedBy_form _ _).map _).orElse <| ((headedBy_form _ _).map _).orElse <|
    ((headedBy_form _ _).map _).orElse <| ((headedBy_form _ _).map _).orElse <|
    ((headedBy_form _ _).map _).orElse <| (headedBy_form _ _).map _⟩

/-- A constraint that begins with `and` is a conjunction, or it is none. -/
theorem look_constraintForms_of_and (hv : v.OpensWith "and") : constraintForms.look levels v =
    look levels (Constraint.conj <$> form "and" (many constraint)) v := by
  obtain ⟨g, hg, hwords⟩ := exists_modalForms
  have hmodal : g.look levels v = .missing := hwords.missing_of_opensWith hv (by decide)
  have hforall : look levels (quantified "forall" constraint) v = .missing :=
    (headedBy_form _ _).missing_of_opensWith hv (by decide)
  rw [hg, look_orElse, look_orElse, look_map (g := quantified _ _), hforall, hmodal]
  cases look levels (Constraint.conj <$> form "and" (many constraint)) v <;> rfl

/-- A constraint that begins with `forall` has a quantifier, or it is none. -/
theorem look_constraintForms_of_forall (hv : v.OpensWith "forall") :
    constraintForms.look levels v = look levels
      ((fun p => Constraint.universal p.1 p.2) <$> quantified "forall" constraint) v := by
  obtain ⟨g, hg, hwords⟩ := exists_modalForms
  have hmodal : g.look levels v = .missing := hwords.missing_of_opensWith hv (by decide)
  have hand : look levels (form "and" (many constraint)) v = .missing :=
    (headedBy_form _ _).missing_of_opensWith hv (by decide)
  rw [hg, look_orElse, look_orElse, look_map (g := form _ _), hand, hmodal]
  show Finding.orElse (look levels _ v) .missing = _
  cases look levels ((fun p => Constraint.universal p.1 p.2) <$> quantified "forall" constraint) v
    <;> rfl

/-- No constraint begins with `preference`. -/
theorem look_constraintForms_of_preference (hv : v.OpensWith "preference") :
    constraintForms.look levels v = .missing := by
  obtain ⟨g, hg, hwords⟩ := exists_modalForms
  rw [hg]
  exact HeadedBy.missing_of_opensWith
    (((headedBy_form _ _).map _).orElse <| ((headedBy_form _ _).map _).orElse hwords) hv (by decide)

/-- What is missing on a number of levels is missing on fewer, unless they are used up. -/
theorem misses_of_look_succ {g : Rule α} (h : g.look (levels + 1) v = .missing) :
    (g.look levels v).Misses := by
  by_cases htoo : g.look levels v = .tooDeep
  · exact .inl htoo
  · exact .inr ((look_succ g htoo).symm.trans h)

/-- A constraint of a problem that is no preference, no conjunction and has no quantifier is one of
a domain. -/
theorem extends_required (hand : look levels (form "and" (many constraint)) v = .missing)
    (hforall : look levels (quantified "forall" constraint) v = .missing) :
    (look (levels + 1) constraint v).Extends Constraint.toPreferred
      (look levels (PreferredConstraint.required <$> constraint) v) := by
  by_cases htoo : constraint.look levels v = .tooDeep
  · exact .inl (.inr (.inl (by rw [look_map, htoo]; rfl)))
  rw [look_succ constraint htoo, look_map]
  rcases hc : constraint.look levels v with ⟨w, c⟩ | _ | _ | _ | _
  · have hread : ReadsConstraint levels v w c :=
      readsConstraint_of_look (((look_succ constraint htoo).trans hc :
        constraint.look (levels + 1) v = _))
    refine .inl (.inr (.inr ?_))
    cases c with
    | conj cs => cases hand.symm.trans hread
    | universal vs c => cases hforall.symm.trans hread
    | _ => rfl
  all_goals exact .inl (.inr (.inr rfl))

/-- A constraint of a problem that is a preference is nothing that a domain has. -/
theorem look_preference_ne_found (hv : v.OpensWith "preference") (w : View) (c : Constraint) :
    look levels ((fun (n, c) => PreferredConstraint.preferred (some n) c) <$>
        form "preference" (pair (symbol .preference) constraint) <|>
      .preferred none <$> form "preference" constraint <|> .required <$> constraint) v ≠
      .found w c.toPreferred := by
  intro h
  obtain h | ⟨-, h⟩ := look_orElse_eq_found.1 h
  · obtain ⟨_, -, heq⟩ := look_map_eq_found.1 h
    exact c.toPreferred_ne_preferred _ _ heq.symm
  obtain h | ⟨-, h⟩ := look_orElse_eq_found.1 h
  · obtain ⟨_, -, heq⟩ := look_map_eq_found.1 h
    exact c.toPreferred_ne_preferred _ _ heq.symm
  obtain ⟨d, hd, -⟩ := look_map_eq_found.1 h
  have hmissing : constraint.look (levels + 1) v = .missing := look_constraintForms_of_preference hv
  obtain htoo | hmissing := misses_of_look_succ hmissing
  · cases htoo.symm.trans hd
  · cases hmissing.symm.trans hd

/-- A constraint is a conjunction or has a quantifier, if it can, and otherwise is any constraint. -/
theorem look_constraintForms : constraintForms.look levels v =
    (look levels (Constraint.conj <$> form "and" (many constraint)) v).orElse
      ((look levels ((fun p => Constraint.universal p.1 p.2) <$> quantified "forall" constraint)
        v).orElse (constraintForms.look levels v)) := by
  obtain ⟨g, hg, -⟩ := exists_modalForms
  rw [hg, look_orElse, look_orElse]
  cases look levels (Constraint.conj <$> form "and" (many constraint)) v with
  | missing =>
    show Finding.orElse (look levels (_ <$> quantified "forall" constraint) v) _ =
      Finding.orElse (look levels (_ <$> quantified "forall" constraint) v) (Finding.orElse _ _)
    cases look levels ((fun p => Constraint.universal p.1 p.2) <$> quantified "forall" constraint) v
      <;> rfl
  | _ => rfl

/-- **Constraints of problems extend those of domains**, on every number of levels. -/
theorem extends_preferredConstraint (levels : Nat) :
    Extends levels Constraint.toPreferred constraint preferredConstraint := by
  induction levels with
  | zero => exact fun v => .inl (.inl rfl)
  | succ levels ih =>
    intro v
    have hclose (r : List Char) : Misses preferredConstraint (')' :: r) := misses_close rfl
    have hconj := (Extends.form (fun v hv => ih.closed_many hclose hv) "and").map
      (m := Constraint.conj) (k := PreferredConstraint.conj) (h := Constraint.toPreferred)
      (fun cs => congrArg _ (Constraint.allToPreferred_eq_map cs).symm) (by
        rintro ps ⟨c, hc⟩
        cases c <;> cases hc
        exact ⟨_, (Constraint.allToPreferred_eq_map _).symm⟩) v
    have hparameters : Extends levels id parameters parameters :=
      fun v => .inl (Finding.tracks_refl _)
    have huniversal := (Extends.form
      (fun v _ => hparameters.closed_pair ih.closed.closed_separated v) "forall").map
      (m := fun p => Constraint.universal p.1 p.2) (k := fun p => .universal p.1 p.2)
      (h := Constraint.toPreferred) (fun _ => rfl) (by
        rintro ⟨vs, p⟩ ⟨c, hc⟩
        cases c <;> cases hc
        exact ⟨(_, _), rfl⟩) v
    show Finding.Extends _ (constraintForms.look levels v) (preferredConstraintForms.look levels v)
    rw [look_constraintForms, preferredConstraintForms, look_orElse, look_orElse]
    refine hconj.orElse (fun hand _ => huniversal.orElse (fun hforall _ => ?_) ?_) ?_
    · by_cases hv : v.OpensWith "preference"
      · exact .inr ⟨look_constraintForms_of_preference hv, look_preference_ne_found hv⟩
      · have hmissing {α : Type} (g : Rule α) : look levels (form "preference" g) v = .missing :=
          headedBy_form _ g levels v (by simpa using hv)
        rw [look_orElse, look_map, hmissing, look_orElse, look_map, hmissing]
        exact extends_required (look_map_eq_missing.1 hand) (look_map_eq_missing.1 hforall)
    -- where only the second conjunction or the second quantifier is there, no other form is
    · intro hforall hne
      have hv := opensWith_of_look_form fun hm => hne (look_map_eq_missing.2 hm)
      exact .inr ((look_constraintForms_of_forall hv).trans hforall)
    · intro hand hne
      have hv := opensWith_of_look_form fun hm => hne (look_map_eq_missing.2 hm)
      have hforall : look levels (quantified "forall" constraint) v = .missing :=
        (headedBy_form _ _).missing_of_opensWith hv (by decide)
      rw [look_map, hforall, look_constraintForms_of_and hv, hand]
      exact .inr rfl

/-! ### Parsing constraints of problems -/

/-- **A conjunction of constraints of a domain is one of a problem**, from a place that remembers no
final mismatch ahead and under ceilings that neither parsing exceeds, up to the same offset.  The one
is empty if it constrains nothing, the other only if it has no members. -/
theorem parse_preferredConstraint {c d : Cursor} (hc : c.Calm) {ceiling ceiling' : Nat}
    {cs : List Constraint} (h : constraint.parse (c.under ceiling) = .ok (d, .conj cs))
    (hproblem : ∀ limit offset,
      preferredConstraint.parse (c.under ceiling') ≠ .error (.tooDeep limit offset)) :
    ∃ d' ps, preferredConstraint.parse (c.under ceiling') = .ok (d', .conj ps) ∧
      d'.offset = d.offset ∧ ps = cs.map Constraint.toPreferred ∧
      ((toNode (Constraint.conj cs)).isVacuous? = some true ↔
        Constraint.ConstrainsNothing (.conj cs)) ∧
      ((toNode (PreferredConstraint.conj ps)).isVacuous? = some true ↔ cs = []) := by
  have hcalm : ∀ k, (c.under k).Calm := fun _ => hc
  have hsettled : constraint.Settled := settled_of_named .constraint
  have hsettled' : preferredConstraint.Settled := settled_of_named .preferredConstraint
  obtain ⟨w, hw, hoffset⟩ := (parse_eq_ok_iff hsettled (hcalm ceiling)).1 ⟨d, h, rfl⟩
  have hne' := look_ne_tooDeep_of_parse hsettled' (hcalm ceiling') hproblem
  have hne : constraint.look ((c.under ceiling).ceiling - (c.under ceiling).depth)
      (c.under ceiling).view ≠ .tooDeep := by
    rw [hw]
    nofun
  have hextends := Extends.of_ne_tooDeep extends_preferredConstraint hne hne'
  obtain ⟨d', hd', hsame⟩ := (parse_eq_ok_iff hsettled' (hcalm ceiling')).2
    ⟨w, hextends.eq_found hw hne', hoffset⟩
  refine ⟨d', _, hd', hsame, Constraint.allToPreferred_eq_map cs, ?_, ?_⟩
  · rw [Constraint.isVacuous?_conj, Option.some.injEq, Constraint.isUnconstraining_toNode]
  · rw [PreferredConstraint.isVacuous?_conj, Option.some.injEq, List.isEmpty_iff,
      Constraint.allToPreferred_eq_map, List.map_eq_nil_iff]

/-- The two agree on a conjunction of constraints that constrain something. -/
theorem parse_preferredConstraint_always :
    let c := Cursor.ofText "(and (always (p)) (at end (q)))".toList 40
    ∃ d d' cs ps, constraint.parse (c.under 40) = .ok (d, .conj cs) ∧
      preferredConstraint.parse (c.under 40) = .ok (d', .conj ps) ∧ d'.offset = d.offset ∧
        ((toNode (PreferredConstraint.conj ps)).isVacuous? = some true ↔ cs = []) := by
  intro c
  obtain ⟨d, a, hd, ha⟩ := exists_of_parse_any (g := constraint) (c := c.under 40)
    (p := fun a => match a with
      | .conj _ => true
      | _ => false) (by decide +kernel)
  obtain ⟨cs, rfl⟩ : ∃ cs, a = .conj cs := by
    cases a with
    | conj cs => exact ⟨cs, rfl⟩
    | _ => cases ha
  have hdeep : ∀ limit offset,
      preferredConstraint.parse (c.under 40) ≠ .error (.tooDeep limit offset) :=
    parse_ne_tooDeep .preferredConstraint (by decide +kernel)
  obtain ⟨d', ps, hd', hsame, -, -, hempty⟩ :=
    parse_preferredConstraint (calm_ofText _ 40) hd hdeep
  exact ⟨d, d', cs, ps, hd, hd', hsame, hempty⟩

/-- The two disagree on a conjunction of an empty conjunction. -/
theorem parse_preferredConstraint_nested :
    let t := "(and (and))".toList
    let answer {α : Type} [ToNode α] (r : Except Failure (Cursor × α)) :=
      r.toOption.map fun p => (toNode p.2).isVacuous?
    answer (constraint.parse (Cursor.ofText t 40)) = some (some true) ∧
      answer (preferredConstraint.parse (Cursor.ofText t 40)) = some (some false) := by
  decide +kernel

end Rule

end Pddl
