import Pddl.Proofs.Parts
import Pddl.Proofs.Trajectories

/-!
# Preconditions are flattened goals

Goals and preconditions have grammars of their own, which nest on their own levels.  In a text
without preferences both read the same constructs, and the preconditions are the goal with its
conjunctions joined into one list.

* `Goal.flatten` : the preconditions that a goal stands for.
* `HasForm` : outside comments, a form with the head word begins in the text.
* `Finding.Tracks`, `Rule.Tracks` : one reading finds what another one finds, changed by a function,
  unless the levels of one are used up.
* `Rule.tracks_preconditions` : on every number of levels, preconditions track goals.
* `Rule.parse_preconditions_iff` : **preconditions are parsed where a goal is, as the flattened
  goal.**
-/

namespace Pddl

/-! ### Flattened goals -/

namespace Goal

mutual

/-- The preconditions that a goal stands for: conjunctions are joined, also within universal
quantifiers. -/
def flatten : Goal → List Precondition
  | conj gs => flattenAll gs
  | universal vs g => [.universal vs g.flatten]
  | g => [.goal (.required g)]

/-- The preconditions that several goals stand for. -/
def flattenAll : List Goal → List Precondition
  | [] => []
  | g :: gs => g.flatten ++ flattenAll gs

end

theorem flattenAll_eq_flatMap (gs : List Goal) : flattenAll gs = gs.flatMap flatten := by
  induction gs with
  | nil => rfl
  | cons g gs ih => rw [flattenAll, ih, List.flatMap_cons]

/-- The goal as preconditions. -/
def toPreconditions (g : Goal) : Preconditions := ⟨g.flatten⟩

theorem join_map_toPreconditions (gs : List Goal) :
    Preconditions.join (gs.map toPreconditions) = toPreconditions (.conj gs) := by
  rw [toPreconditions, flatten, flattenAll_eq_flatMap, Preconditions.join, List.flatMap_map]
  rfl

end Goal

/-! ### Forms in a text -/

/-- Outside comments, a form with the head word begins in the text. -/
def HasForm (x : String) (t : List Char) : Prop :=
  ∃ u z, t = u ++ '(' :: z ∧ leavesComment false u = false ∧
    (keywordLength? x (z.drop (blankLength false z))).isSome

/-- A text without a word has no form with this head word. -/
theorem isInfix_of_hasForm {x : String} (hx : IsWord x) {t : List Char} (h : HasForm x t) :
    x.toList <:+: t := by
  obtain ⟨u, z, rfl, -, hword⟩ := h
  obtain ⟨n, hn⟩ := Option.isSome_iff_exists.1 hword
  have hwords := (keywordLength?_eq_some.1 hn).1
  rw [hx.2] at hwords
  obtain ⟨r, hr, -⟩ := wordsLength?_cons.1 hwords
  have hdrop : x.toList <:+: z.drop (blankLength false z) := hr ▸ (List.prefix_append _ r).isInfix
  have hz : x.toList <:+: '(' :: z :=
    hdrop.trans ((List.drop_suffix _ z).trans (List.suffix_cons '(' z)).isInfix
  exact hz.trans (List.suffix_append u _).isInfix

namespace View

variable {v w : View} {x y : String}

theorem OpensWith.hasForm (h : v.OpensWith x) : HasForm x v.rest := by
  obtain ⟨z, hz⟩ := List.head?_eq_some_iff.1 h.1
  refine ⟨[], z, hz, rfl, ?_⟩
  have hword := h.2
  rwa [inside, hz, List.tail_cons, skipBlanks, rest_advance] at hword

/-- A form that begins behind a place begins also behind the places in front of it. -/
theorem Clear.hasForm (h : v.Clear w) (hw : HasForm x w.rest) : HasForm x v.rest := by
  obtain ⟨p, hp, hclear⟩ := h
  obtain ⟨u, z, hu, hopen, hword⟩ := hw
  refine ⟨p ++ u, z, by rw [hp, hu, List.append_assoc], ?_, hword⟩
  obtain hnil | hp' := hclear
  · rw [hu] at hnil
    simp at hnil
  · rw [leavesComment_append, hp', hopen]

/-- A form has one head word only, where the words are names. -/
theorem OpensWith.eq_of_isName (hx : v.OpensWith x) (hy : v.OpensWith y) (hwx : IsWord x)
    (hwy : IsWord y) (hnx : isName x.toList = true) (hny : isName y.toList = true) : x = y := by
  obtain ⟨n, hn⟩ := Option.isSome_iff_exists.1 hx.2
  obtain ⟨m, hm⟩ := Option.isSome_iff_exists.1 hy.2
  have hsx : Terminal.symbolLexeme? .name v.inside.rest = some (n, ⟨x, hnx⟩) :=
    Terminal.symbolLexeme?_of_keywordLength? rfl hwx hnx hn
  have hsy : Terminal.symbolLexeme? .name v.inside.rest = some (m, ⟨y, hny⟩) :=
    Terminal.symbolLexeme?_of_keywordLength? rfl hwy hny hm
  simpa using congrArg (Option.map fun s => s.2.text) (hsx.symm.trans hsy)

/-- The property is kept behind everything that is read. -/
def Kept (Q : View → Prop) : Prop := ∀ v w : View, v.Clear w → Q v → Q w

theorem kept_not_hasForm (x : String) : Kept fun v => ¬HasForm x v.rest :=
  fun _ _ h hv hw => hv (h.hasForm hw)

end View

/-! ### Readings that track others -/

namespace Finding

variable {α β γ δ : Type} {f : α → β} {o o' : Finding α} {p p' : Finding β}

/-- The second finding is the first one, changed by the function, unless the levels of one of them
are used up. -/
def Tracks (f : α → β) (o : Finding α) (p : Finding β) : Prop :=
  o = .tooDeep ∨ p = .tooDeep ∨ p = o.andThen fun w a => .found w (f a)

theorem tracks_found (w : View) (a : α) : Tracks f (.found w a) (.found w (f a)) := .inr (.inr rfl)

theorem tracks_refl (o : Finding α) : Tracks id o o := by
  cases o <;> exact .inr (.inr rfl)

theorem Tracks.andThen {h : γ → δ} {k : View → α → Finding γ} {k' : View → β → Finding δ}
    (hop : Tracks f o p) (hk : ∀ w a, o = .found w a → Tracks h (k w a) (k' w (f a))) :
    Tracks h (o.andThen k) (p.andThen k') := by
  obtain rfl | rfl | rfl := hop
  · exact .inl rfl
  · exact .inr (.inl rfl)
  · rcases o with ⟨w, a⟩ | _ | _ | _ | _
    · exact hk w a rfl
    all_goals exact .inr (.inr rfl)

theorem Tracks.orElse (hop : Tracks f o p) (h : o = .missing → Tracks f o' p') :
    Tracks f (o.orElse o') (p.orElse p') := by
  obtain rfl | rfl | rfl := hop
  · exact .inl rfl
  · exact .inr (.inl rfl)
  · cases o with
    | missing => exact h rfl
    | _ => exact .inr (.inr rfl)

theorem orElse_of_ne_missing (h : o ≠ .missing) : o.orElse o' = o := by
  cases o with
  | missing => exact absurd rfl h
  | _ => rfl

end Finding

namespace Rule

open Grammar

variable {α β γ δ : Type} {Q : View → Prop} {levels : Nat} {f : α → β} {g : Rule α} {g' : Rule β}

/-- Where the property holds, what the second rule finds tracks what the first one finds. -/
def Tracks (Q : View → Prop) (levels : Nat) (f : α → β) (g : Rule α) (g' : Rule β) : Prop :=
  ∀ v, Q v → (g.look levels v).Tracks f (g'.look levels v)

namespace Tracks

theorem map {m : α → γ} {k : β → δ} {h : γ → δ} (hg : Tracks Q levels f g g')
    (hm : ∀ a, k (f a) = h (m a)) : Tracks Q levels h (m <$> g) (k <$> g') := fun v hv => by
  rw [look_map, look_map]
  refine (hg v hv).andThen fun w a _ => ?_
  rw [hm]
  exact Finding.tracks_found w (m a)

theorem opt (hg : Tracks Q levels f g g') : Tracks Q levels (Option.map f) (.opt g) (.opt g') :=
  fun v hv => ((hg v hv).andThen fun w a _ => Finding.tracks_found w (some a)).orElse fun _ =>
    Finding.tracks_found v none

theorem before (hg : Tracks Q levels f g g') (r : Rule γ) :
    Tracks Q levels f (g <* r) (g' <* r) := fun v hv => by
  rw [look_seqLeft, look_seqLeft]
  exact (hg v hv).andThen fun w a _ => (Finding.tracks_refl _).andThen fun w' _ _ =>
    Finding.tracks_found w' a

theorem behind (hQ : View.Kept Q) {r : Rule γ} {φ ψ : Phase} (hr : r.next φ = some ψ)
    (hg : Tracks Q levels f g g') : Tracks Q levels f (r *> g) (r *> g') := fun v hv => by
  rw [look_seqRight, look_seqRight]
  exact (Finding.tracks_refl _).andThen fun w _ hw => hg w (hQ v w (clear_look hr hw) hv)

theorem separated (hQ : View.Kept Q) (hg : Tracks Q levels f g g') :
    Tracks Q levels f (Grammar.separated g) (Grammar.separated g') :=
  hg.behind hQ (r := separator) (φ := .within 0) rfl

theorem pair (hQ : View.Kept Q) {r : Rule γ} {φ ψ : Phase} (hr : r.next φ = some ψ)
    (hg : Tracks Q levels f g g') :
    Tracks Q levels (Prod.map id f) (Grammar.pair r g) (Grammar.pair r g') := fun v hv =>
  (Finding.tracks_refl (r.look levels v)).andThen fun w a hw =>
    (hg.separated hQ w (hQ v w (clear_look hr hw) hv)).andThen fun w' b _ =>
      Finding.tracks_found w' (a, b)

theorem parens (hQ : View.Kept Q) (hg : Tracks Q levels f g g') :
    Tracks Q levels f (Grammar.parens g) (Grammar.parens g') :=
  (((hg.behind hQ (r := blanks) (φ := .within 0) rfl).before blanks).behind hQ
    (r := terminal (.char '(')) (φ := .before) rfl).before _

theorem form (hQ : View.Kept Q) {x : String}
    (hx : (word x : Rule Unit).next (.within 0) = some (.within 0)) (hg : Tracks Q levels f g g') :
    Tracks Q levels f (Grammar.form x g) (Grammar.form x g') := by
  have hhead : (word x *> blanks : Rule Unit).next (.within 0) = some (.within 0) := by
    show ((word x : Rule Unit).next (.within 0)).bind (blanks : Rule Unit).next = _
    rw [hx]
    rfl
  exact (hg.behind hQ hhead).parens hQ

/-- The further elements of a list track one by one. -/
theorem more (hQ : View.Kept Q) (hnext : g.next (.within 0) = some (.within 0))
    (hg : Tracks Q levels f g g') : Tracks Q levels (List.map f) (.more g) (.more g') := by
  intro v hv
  show Finding.Tracks _ (Reader.more (g.look levels) v) (Reader.more (g'.look levels) v)
  induction hn : v.rest.length using Nat.strong_induction_on generalizing v with
  | _ n ih =>
  subst hn
  rw [Reader.more_eq (forward_look g levels), Reader.more_eq (forward_look g' levels),
    ← look_optional, ← look_optional]
  have hoptional : (Grammar.optional g).next (.within 0) = some (.within 0) := if_pos hnext
  refine ((hg.separated hQ).opt v hv).andThen fun w a? hw => ?_
  rcases a? with _ | a
  · exact Finding.tracks_found v []
  · simp only [Option.map_some]
    split
    · exact Finding.tracks_found v []
    · have hkept : Q w := hQ v w (clear_look hoptional hw) hv
      have hle := (forward_look (Grammar.optional g) levels hw).length_le
      exact (ih w.rest.length (by omega) w hkept rfl).andThen fun w' as _ =>
        Finding.tracks_found w' (a :: as)

theorem many (hQ : View.Kept Q) (hnext : g.next (.within 0) = some (.within 0))
    (hg : Tracks Q levels f g g') :
    Tracks Q levels (List.map f) (Grammar.many g) (Grammar.many g') := by
  have hmany1 : Tracks Q levels (List.map f) (many1 g) (many1 g') := by
    intro v hv
    rw [look_many1, look_many1]
    refine (hg v hv).andThen fun w a hw => ?_
    exact (hg.more hQ hnext w (hQ v w (clear_look hnext hw) hv)).andThen fun w' as _ =>
      Finding.tracks_found w' (a :: as)
  refine hmany1.opt.map fun as? => ?_
  cases as? <;> rfl

end Tracks

/-! ### Goals and preconditions -/

variable {v : View}

/-- Where no form with the head word begins, the form is missing. -/
theorem look_form_missing {x : String} {g : Rule α} (hv : ¬HasForm x v.rest) :
    look levels (Grammar.form x g) v = .missing :=
  headedBy_form x g levels v fun _ hy hopens => hv (List.mem_singleton.1 hy ▸ hopens.hasForm)

/-- Without preferences, a goal is read as what it is. -/
theorem look_preferredGoal (hv : ¬HasForm "preference" v.rest) :
    preferredGoal.look levels v = look levels (.required <$> goal) v := by
  rw [preferredGoal, look_orElse, look_map, look_form_missing hv, look_orElse, look_map,
    look_form_missing hv]
  rfl

/-- A form with another head word is passed over. -/
theorem look_form_orElse {x y : String} {m : α → β} {h : Rule β} (hv : v.OpensWith y)
    (hx : IsWord x) (hy : IsWord y) (hnx : isName x.toList = true) (hny : isName y.toList = true)
    (hne : x ≠ y) : look levels (m <$> Grammar.form x g <|> h) v = h.look levels v := by
  have hmissing : look levels (Grammar.form x g) v = .missing :=
    headedBy_form x g levels v fun _ hz hopens =>
      hne ((List.mem_singleton.1 hz ▸ hopens).eq_of_isName hv hx hy hnx hny)
  rw [look_orElse, look_map, hmissing]
  rfl

/-- A goal that opens with a universal quantifier is one, or it is none. -/
theorem look_goalForms_of_forall (h : look levels (quantified "forall" goal) v ≠ .missing) :
    goalForms.look levels v =
      look levels ((fun p => Goal.universal p.1 p.2) <$> quantified "forall" goal) v := by
  have hv : v.OpensWith "forall" := by
    by_contra hv
    exact h (headedBy_form "forall" _ levels v (by simpa using hv))
  rw [goalForms, look_form_orElse hv, look_form_orElse hv, look_form_orElse hv,
    look_form_orElse hv, quantified, look_form_orElse hv, look_orElse,
    Finding.orElse_of_ne_missing]
  · exact fun hm => h (look_map_eq_missing.1 hm)
  all_goals decide

/-- A goal is a conjunction or universal, if it can be, and otherwise any goal. -/
theorem look_goalForms : goalForms.look levels v =
    (look levels (Goal.conj <$> Grammar.form "and" (Grammar.many goal)) v).orElse
      ((look levels ((fun p => Goal.universal p.1 p.2) <$> quantified "forall" goal) v).orElse
        (goalForms.look levels v)) := by
  by_cases hand : look levels (Goal.conj <$> Grammar.form "and" (Grammar.many goal)) v = .missing
  · rw [hand]
    by_cases hforall : look levels (quantified "forall" goal) v = .missing
    · rw [look_map, hforall]
      rfl
    · rw [look_goalForms_of_forall hforall]
      exact (Finding.orElse_of_ne_missing fun hm => hforall (look_map_eq_missing.1 hm)).symm
  · rw [Finding.orElse_of_ne_missing hand, goalForms, look_orElse,
      Finding.orElse_of_ne_missing hand]

/-- A goal that is neither a conjunction nor universal is a precondition of its own, and the levels
below the preconditions suffice for it unless they are used up. -/
theorem tracks_single (hand : look levels (Grammar.form "and" (Grammar.many goal)) v = .missing)
    (hforall : look levels (quantified "forall" goal) v = .missing) :
    (look (levels + 1) goal v).Tracks Goal.toPreconditions
      (look levels ((fun g => ⟨[.goal g]⟩) <$> (PreferredGoal.required <$> goal)) v) := by
  by_cases htoo : goal.look levels v = .tooDeep
  · exact .inr (.inl (by rw [look_map, look_map, htoo]; rfl))
  rw [look_succ goal htoo, look_map, look_map]
  rcases hg : goal.look levels v with ⟨w, g⟩ | _ | _ | _ | _
  · have hread := readsGoal_of_look_goal hg
    cases g with
    | conj gs => cases hand.symm.trans hread
    | universal vs g => cases hforall.symm.trans hread
    | _ => exact .inr (.inr rfl)
  all_goals exact .inr (.inr rfl)

/-- **Preconditions track goals**, on every number of levels: without preferences, they are the
flattened goal. -/
theorem tracks_preconditions (levels : Nat) :
    Tracks (fun v => ¬HasForm "preference" v.rest) levels Goal.toPreconditions goal
      preconditions := by
  have hQ := View.kept_not_hasForm "preference"
  induction levels with
  | zero => exact fun v hv => .inl rfl
  | succ levels ih =>
    intro v hv
    have hconj := ((ih.many hQ rfl).form hQ (x := "and") rfl).map (m := Goal.conj)
      Goal.join_map_toPreconditions v hv
    have huniversal := ((ih.pair hQ (r := parameters) (φ := .within 0) rfl).form hQ
      (x := "forall") rfl).map (m := fun p => Goal.universal p.1 p.2)
      (k := fun p => ⟨[.universal p.1 p.2.goals]⟩) (h := Goal.toPreconditions) (fun _ => rfl) v hv
    show Finding.Tracks _ (goalForms.look levels v) (preconditionsForms.look levels v)
    rw [look_goalForms, preconditionsForms, look_orElse, look_orElse,
      look_map (g := preferredGoal), look_preferredGoal hv]
    refine hconj.orElse fun hand => huniversal.orElse fun hforall => ?_
    exact tracks_single (look_map_eq_missing.1 hand) (look_map_eq_missing.1 hforall)

/-- On numbers of levels that suffice, preconditions are found where a goal is. -/
theorem look_preconditions {j k : Nat} (hv : ¬HasForm "preference" v.rest)
    (hj : goal.look j v ≠ .tooDeep) (hk : preconditions.look k v ≠ .tooDeep) :
    preconditions.look k v = (goal.look j v).andThen fun w g => .found w g.toPreconditions := by
  -- both are found as on the larger number of levels
  have htracks := tracks_preconditions (max j k) v hv
  rw [look_eq_of_le (le_max_left j k) hj, look_eq_of_le (le_max_right j k) hk] at htracks
  exact (htracks.resolve_left hj).resolve_left hk

/-! ### Parsing goals and preconditions -/

/-- **Preconditions are parsed where a goal is, as the flattened goal.**  In a text without forms
of preference, from the same place on and under ceilings that neither parsing exceeds, exactly the
same texts are accepted, up to the same offset. -/
theorem parse_preconditions_iff {u t : List Char} (ht : ¬HasForm "preference" t)
    {depth depth' ceiling ceiling' : Nat}
    (hgoal : ∀ limit offset, goal.parse (Cursor.ofOffset (u ++ t) u.length depth ceiling) ≠
      .error (.tooDeep limit offset))
    (hpre : ∀ limit offset,
      preconditions.parse (Cursor.ofOffset (u ++ t) u.length depth' ceiling') ≠
        .error (.tooDeep limit offset)) (n : Nat) (ps : Preconditions) :
    (∃ d, preconditions.parse (Cursor.ofOffset (u ++ t) u.length depth' ceiling') = .ok (d, ps) ∧
      d.offset = n) ↔
      ∃ g : Goal, (∃ d, goal.parse (Cursor.ofOffset (u ++ t) u.length depth ceiling) = .ok (d, g) ∧
        d.offset = n) ∧ ps = ⟨g.flatten⟩ := by
  have hcalm := Cursor.calm_ofOffset (u ++ t) u.length
  have hview (depth ceiling : Nat) : (Cursor.ofOffset (u ++ t) u.length depth ceiling).view =
      ⟨charBefore (u ++ t) u.length, t⟩ := by simp [Cursor.ofOffset, Cursor.view]
  have hsettled : goal.Settled := settled_of_named .goal
  have hsettled' : preconditions.Settled := settled_of_named .preconditions
  have hlook := look_ne_tooDeep_of_parse hsettled (hcalm _ _) hgoal
  have hlook' := look_ne_tooDeep_of_parse hsettled' (hcalm _ _) hpre
  rw [hview] at hlook hlook'
  have hsame := look_preconditions ht hlook hlook'
  rw [parse_eq_ok_iff hsettled' (hcalm _ _)]
  simp only [parse_eq_ok_iff hsettled (hcalm _ _), hview, hsame]
  simp only [Finding.andThen_eq_found, Finding.found.injEq]
  constructor
  · rintro ⟨w, ⟨w', g, hg, rfl, rfl⟩, hn⟩
    exact ⟨g, ⟨w', hg, hn⟩, rfl⟩
  · rintro ⟨g, ⟨w, hg, hn⟩, rfl⟩
    exact ⟨w, ⟨w, g, hg, rfl, rfl⟩, hn⟩

/-- The conjunction in the conjunction is dissolved, and the quantified one is a list of its own. -/
theorem parse_preconditions_iff_nested :
    let t := "(and (p) (and (and) (forall (?x) (and))))".toList
    ∃ g : Goal, g.flatten.length = 2 ∧
      (∃ d, goal.parse (Cursor.ofOffset t 0 0 40) = .ok (d, g) ∧ d.offset = 41) ∧
      ∃ d, preconditions.parse (Cursor.ofOffset t 0 0 40) = .ok (d, ⟨g.flatten⟩) ∧
        d.offset = 41 := by
  intro t
  have hform : ¬HasForm "preference" t := fun h =>
    absurd (isInfix_of_hasForm (by decide) h) (by decide +kernel)
  have hnesting : 2 * nesting false t + 1 < 40 := by decide +kernel
  have hgoal : (match goal.parse (Cursor.ofOffset t 0 0 40) with
      | .ok (d, g) => d.offset == 41 && g.flatten.length == 2
      | .error _ => false) = true := by decide +kernel
  clear_value t
  rcases hg : goal.parse (Cursor.ofOffset t 0 0 40) with e | ⟨d, g⟩
  · rw [hg] at hgoal
    cases hgoal
  · rw [hg] at hgoal
    simp only [Bool.and_eq_true, beq_iff_eq] at hgoal
    have hiff := parse_preconditions_iff (u := []) hform (parse_ne_tooDeep .goal hnesting)
      (parse_ne_tooDeep .preconditions hnesting) 41 ⟨g.flatten⟩
    exact ⟨g, hgoal.2, ⟨d, rfl, hgoal.1⟩, hiff.2 ⟨g, ⟨d, hg, hgoal.1⟩, rfl⟩⟩

end Rule

end Pddl
