import Pddl.Proofs.Choice
import Pddl.Proofs.Effects
import Pddl.Proofs.Preconditions

/-!
# Keyword forms and formulas

No name is reserved: a keyword may also be the name of a predicate.  A form that begins with a
keyword is a formula only where what follows is not what the keyword takes in its place.

* `Goal.formulas`, `Preconditions.formulas` : the formulas that stand as goals, at any depth.
* `Effects.leaves` : the effects behind all quantifiers.
* `Rule.not_fits_of_parse` : **a formula with a keyword for a predicate is read only where its
  arguments are no operands of that keyword.**
* `Rule.parse_keyword_as_predicate` : elsewhere a keyword is the name of a predicate.
-/

namespace Pddl

/-! ### The formulas of goals -/

/-- The formula is one of the predicate with the given name. -/
def AtomicFormula.isNamed (x : String) : AtomicFormula Term → Bool
  | predicate p _ => p.text == x
  | equality _ _ => false

theorem AtomicFormula.isNamed_iff {x : String} {f : AtomicFormula Term} :
    f.isNamed x = true ↔ ∃ p ts, f = predicate p ts ∧ p.text = x := by
  cases f <;> simp [isNamed]

namespace Goal

mutual

/-- The formulas that stand in the goal. -/
def formulas : Goal → List (AtomicFormula Term)
  | atom f => [f]
  | literal l => [l.formula]
  | conj gs => formulasOfAll gs
  | disj gs => formulasOfAll gs
  | neg g => g.formulas
  | imply p c => p.formulas ++ c.formulas
  | existential _ g => g.formulas
  | universal _ g => g.formulas
  | compare _ => []

/-- The formulas that stand in the goals. -/
def formulasOfAll : List Goal → List (AtomicFormula Term)
  | [] => []
  | g :: gs => g.formulas ++ formulasOfAll gs

end

theorem mem_formulasOfAll {f : AtomicFormula Term} {gs : List Goal} :
    f ∈ formulasOfAll gs ↔ ∃ g ∈ gs, f ∈ g.formulas := by
  induction gs with
  | nil => simp [formulasOfAll]
  | cons g gs ih => simp [formulasOfAll, ih]

/-- No formula of a regular goal looks like a keyword form. -/
theorem IsRegular.not_fitsKeyword {g : Goal} (hg : g.IsRegular) {p : Predicate} {ts : List Term}
    (h : .predicate p ts ∈ g.formulas) : ¬FitsKeyword p.text ts := by
  induction hg with
  | equality l r => simp [formulas] at h
  | predicate hp =>
    simp only [formulas, List.mem_singleton, AtomicFormula.predicate.injEq] at h
    obtain ⟨rfl, rfl⟩ := h
    exact hp
  | conj _ ih =>
    obtain ⟨g, hg, hf⟩ := mem_formulasOfAll.1 h
    exact ih g hg hf
  | disj _ ih =>
    obtain ⟨g, hg, hf⟩ := mem_formulasOfAll.1 h
    exact ih g hg hf
  | neg _ ih => exact ih h
  | imply _ _ ihp ihc => exact (List.mem_append.1 h).elim ihp ihc
  | existential _ _ ih => exact ih h
  | universal _ _ ih => exact ih h
  | compare _ => simp [formulas] at h

end Goal

/-- The goal that must or should hold. -/
def PreferredGoal.target : PreferredGoal → Goal
  | required g => g
  | preferred _ g => g

namespace Precondition

mutual

/-- The formulas that stand in the precondition. -/
def formulas : Precondition → List (AtomicFormula Term)
  | goal g => g.target.formulas
  | universal _ qs => formulasOfAll qs

/-- The formulas that stand in the preconditions. -/
def formulasOfAll : List Precondition → List (AtomicFormula Term)
  | [] => []
  | q :: qs => q.formulas ++ formulasOfAll qs

end

theorem mem_formulasOfAll {f : AtomicFormula Term} {qs : List Precondition} :
    f ∈ formulasOfAll qs ↔ ∃ q ∈ qs, f ∈ q.formulas := by
  induction qs with
  | nil => simp [formulasOfAll]
  | cons q qs ih => simp [formulasOfAll, ih]

/-- No formula of a regular precondition looks like a keyword form. -/
theorem IsRegular.not_fitsKeyword {q : Precondition} (hq : q.IsRegular) {p : Predicate}
    {ts : List Term} (h : .predicate p ts ∈ q.formulas) : ¬FitsKeyword p.text ts := by
  induction hq with
  | required hg _ => exact hg.not_fitsKeyword h
  | preferred _ hg => exact hg.not_fitsKeyword h
  | universal _ _ ih =>
    obtain ⟨q, hq, hf⟩ := mem_formulasOfAll.1 h
    exact ih q hq hf

end Precondition

/-- The formulas that stand in the preconditions. -/
def Preconditions.formulas (ps : Preconditions) : List (AtomicFormula Term) :=
  Precondition.formulasOfAll ps.goals

/-! ### The leaves of effects -/

namespace Effect

mutual

/-- The effects behind the quantifiers of the effect. -/
def leaves : Effect → List Effect
  | universal _ es => leavesOfAll es
  | primitive e => [.primitive e]
  | conditional g c => [.conditional g c]

/-- The effects behind the quantifiers of the effects. -/
def leavesOfAll : List Effect → List Effect
  | [] => []
  | e :: es => e.leaves ++ leavesOfAll es

end

theorem mem_leavesOfAll {l : Effect} {es : List Effect} :
    l ∈ leavesOfAll es ↔ ∃ e ∈ es, l ∈ e.leaves := by
  induction es with
  | nil => simp [leavesOfAll]
  | cons e es ih => simp [leavesOfAll, ih]

/-- The leaves of a regular effect are regular. -/
theorem IsRegular.leaf {e l : Effect} (he : e.IsRegular) (h : l ∈ e.leaves) : l.IsRegular := by
  induction he with
  | primitive he hu =>
    obtain rfl := List.mem_singleton.1 h
    exact .primitive he hu
  | universal _ _ ih =>
    obtain ⟨e, he, hl⟩ := mem_leavesOfAll.1 h
    exact ih e he hl
  | conditional hg hc =>
    obtain rfl := List.mem_singleton.1 h
    exact .conditional hg hc

end Effect

/-- The effects behind all quantifiers. -/
def Effects.leaves (es : Effects) : List Effect := Effect.leavesOfAll es.effects

namespace Rule

open Grammar

variable {levels : Nat} {v w : View}

/-! ### Conjunctions of effects -/

/-- An effect is there wherever an applied term is found. -/
theorem shadows_effect (levels : Nat) :
    Shadows text (effect.look levels) (term.look levels) Term.IsApplied := by
  intro v w t hv h ht
  obtain ⟨p, ts, hp⟩ := look_predicate_of_term h ht
  refine attains_of_ne_missing (by decide) (by decide) hp (head?_of_applied h ht) fun hm => ?_
  cases levels with
  | zero => cases hm
  | succ k =>
    -- no formula was missing with fewer levels
    have hm : effectForms.look k v = .missing := hm
    have hm := (look_orElse_eq_missing.1 (look_orElse_eq_missing.1 hm).2).2
    have hm := look_atomicFormula_eq_missing_of_primitiveEffect (look_map_eq_missing.1 hm)
    have hatom := (shadows_atomicFormula (k + 1) v w t hv h ht).ne_missing
    rw [look_succ atomicFormula (by rw [hm]; exact Finding.missing_ne_tooDeep), hm] at hatom
    exact hatom rfl

/-- Applied terms behind the keyword are read as effects. -/
theorem look_and_of_fits {es : Effects} {f : Predicate} {ts : List Term}
    (h : effects.look levels v = .found w es) {u : View}
    (hf : atomicFormula.look levels v = .found u (.predicate f ts)) (hand : f.text = "and")
    (hts : ∀ t ∈ ts, t.IsApplied) :
    ∃ k, levels = k + 1 ∧ look k (form "and" (many effect)) v = .found w es.effects := by
  obtain ⟨k, rfl, h⟩ := look_call_eq_found.1 h
  obtain h | ⟨hm, -⟩ := look_orElse_eq_found.1 h
  · obtain ⟨es, hes, rfl⟩ := look_map_eq_found.1 h
    exact ⟨k, rfl, hes⟩
  · have hm := look_map_eq_missing.1 hm
    have hthere := attains_form (g := many effect) rfl hand (by decide)
      (look_predicate_of_atomicFormula hf) fun u u' hu h hc =>
        attains_many (shadows_effect (k + 1)) (fun _ => misses_close rfl) (List.suffix_refl _) h hts hu hc
    rw [look_succ _ (by rw [hm]; exact Finding.missing_ne_tooDeep), hm] at hthere
    exact hthere.elim

/-! ### What is parsed -/

/-- **A formula with a keyword for a predicate is read only where its arguments are no operands of
that keyword.**  This holds of all formulas that stand as goals, also in preconditions and in the
conditions of effects; of formulas that become true, where the keyword negates them or, unless they
follow a condition, is the one of conditional effects; and of conjunctions where effects are
expected. -/
theorem not_fits_of_parse {c : Cursor} (hc : c.Calm) :
    (∀ d g, goal.parse c = .ok (d, g) →
      ∀ p ts, .predicate p ts ∈ g.formulas → ¬FitsKeyword p.text ts) ∧
    (∀ d ps, preconditions.parse c = .ok (d, ps) →
      ∀ p ts, .predicate p ts ∈ ps.formulas → ¬FitsKeyword p.text ts) ∧
    ∀ d es, effects.parse c = .ok (d, es) →
      (∀ g e, .conditional g e ∈ es.leaves →
        (∀ p ts, .predicate p ts ∈ g.formulas → ¬FitsKeyword p.text ts) ∧
        ∀ p ts, .add (.predicate p ts) ∈ e.effects → p.text = "not" → ¬FitsEffect p.text ts) ∧
      (∀ p ts, .primitive (.add (.predicate p ts)) ∈ es.leaves → p.text ≠ "and" →
        ¬FitsEffect p.text ts) ∧
      ∀ d' p ts, atomicFormula.parse c = .ok (d', .predicate p ts) → p.text = "and" →
        (∀ t ∈ ts, t.IsApplied) →
        ∃ e, parse (form "and" (many effect)) (c.withDepth (c.depth + 1)) = .ok (e, es.effects) := by
  have hcall : ∀ {α : Type} {n : Nonterminal α}, Grammar.Settled (.call n) := trivial
  refine ⟨fun d g h p ts hp => ?_, fun d ps h p ts hp => ?_, fun d es h => ?_⟩
  · have hg : g.IsRegular := (finds_of_parse hcall hc h).goal
    exact hg.not_fitsKeyword hp
  · have hps : ps.IsRegular := (finds_of_parse hcall hc h).preconditions
    obtain ⟨q, hq, hf⟩ := Precondition.mem_formulasOfAll.1 hp
    exact (hps q hq).not_fitsKeyword hf
  have hes : es.IsRegular := (finds_of_parse hcall hc h).effects
  have hleaf : ∀ l ∈ es.leaves, l.IsRegular := fun l hl => by
    obtain ⟨e, he, hl⟩ := Effect.mem_leavesOfAll.1 hl
    exact (hes e he).leaf hl
  refine ⟨fun g e hge => ?_, fun p ts hp hne hfits => ?_, fun d' p ts hf hand hts => ?_⟩
  · obtain _ | _ | ⟨hg, he⟩ := hleaf _ hge
    exact ⟨fun p ts hp => hg.not_fitsKeyword hp, fun p ts hp => he _ hp⟩
  · obtain ⟨hnot, hwhen⟩ | _ | _ := hleaf _ hp
    generalize hx : p.text = x at hfits hne
    cases hfits with
    | and _ => exact hne rfl
    | not ht => exact hnot hx (hx ▸ .not ht)
    | when hs ht => exact hwhen hx (hx ▸ .when hs ht)
  · obtain ⟨-, hlook⟩ := look_of_parse (g := effects) hcall hc h
    obtain ⟨-, hatom⟩ := look_of_parse
      (Grammar.settled_of_flagFree (g := atomicFormula) (by simp [atomicFormula])) hc hf
    obtain ⟨k, hk, hconj⟩ := look_and_of_fits hlook hatom hand hts
    have hlevels : c.ceiling - (c.depth + 1) = k := by omega
    obtain ⟨e, he, -⟩ := parse_of_look (g := form "and" (many effect))
      (Grammar.settled_of_flagFree (by simp [effect]))
      (c := c.withDepth (c.depth + 1)) hc (hlevels ▸ hconj)
    exact ⟨e, he⟩

/-- In a disjunction, `and` is the name of a predicate where one of its arguments is a name. -/
theorem not_fits_of_parse_disjunction :
    (Cursor.ofText "(or (and x (p)) (q))".toList defaultCeiling).Calm ∧
      ∃ d g p ts, goal.parse (.ofText "(or (and x (p)) (q))".toList defaultCeiling) = .ok (d, g) ∧
        .predicate p ts ∈ g.formulas ∧ p.text = "and" ∧ ¬FitsKeyword p.text ts := by
  have hc : (Cursor.ofText "(or (and x (p)) (q))".toList defaultCeiling).Calm := nofun
  obtain ⟨d, g, hg, hf⟩ := exists_of_parse_any (g := goal)
    (p := fun g => g.formulas.any (AtomicFormula.isNamed "and"))
    (c := .ofText "(or (and x (p)) (q))".toList defaultCeiling) (by decide +kernel)
  obtain ⟨f, hf, hnamed⟩ := List.any_eq_true.1 hf
  obtain ⟨p, ts, rfl, hand⟩ := AtomicFormula.isNamed_iff.1 hnamed
  exact ⟨hc, d, g, p, ts, hg, hf, hand, (not_fits_of_parse hc).1 d g hg p ts hf⟩

/-- A form that begins with a keyword may be a formula: no name is reserved. -/
theorem parse_keyword_as_predicate :
    ¬∀ (c d : Cursor) (g : Goal), goal.parse c = .ok (d, g) → ∀ p ts, .predicate p ts ∈ g.formulas →
      p.text ∉ ["and", "or", "not", "imply", "exists", "forall", "when"] := by
  intro h
  obtain ⟨d, g, hg, hf⟩ := exists_of_parse_any (g := goal)
    (p := fun g => g.formulas.any (AtomicFormula.isNamed "and"))
    (c := .ofText "(and x)".toList defaultCeiling) (by decide +kernel)
  obtain ⟨f, hf, hnamed⟩ := List.any_eq_true.1 hf
  obtain ⟨p, ts, rfl, hand⟩ := AtomicFormula.isNamed_iff.1 hnamed
  exact h _ d g hg p ts hf (by simp [hand])

end Rule

end Pddl
