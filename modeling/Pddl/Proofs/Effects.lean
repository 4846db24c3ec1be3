import Pddl.Proofs.Goals

/-!
# Effects as a text can hold them

Negations are tried before formulas, and conditional effects before both; so formulas that look like
either are read only where that keyword means nothing.

* `FitsEffect` : some arguments look like the parts of an effect.
* `PrimitiveEffect.IsRegular`, `Effect.IsRegular` : effects that are read as nothing else.
* `Rule.Finds.effects` : **all effects that are found are regular.**
-/

namespace Pddl

/-! ### Regular effects -/

/-- The terms look like the parts of an effect with the keyword. -/
inductive FitsEffect : String → List Term → Prop where
  | and {ts : List Term} (h : ∀ t ∈ ts, t.IsApplied) : FitsEffect "and" ts
  | not {t : Term} (h : t.IsApplied) : FitsEffect "not" [t]
  | when {s t : Term} (hs : s.IsApplied) (ht : t.IsApplied) : FitsEffect "when" [s, t]

/-- A primitive effect as a text can hold it: what becomes true does not look like a negation. -/
def PrimitiveEffect.IsRegular : PrimitiveEffect → Prop
  | add (.predicate p ts) => p.text = "not" → ¬FitsEffect p.text ts
  | assignNumeric _ _ e => e.IsRegular
  | _ => True

/-- The primitive effect does not look like a conditional one. -/
def PrimitiveEffect.IsUnconditional : PrimitiveEffect → Prop
  | add (.predicate p ts) => p.text = "when" → ¬FitsEffect p.text ts
  | _ => True

/-- An effect as a text can hold it. -/
inductive Effect.IsRegular : Effect → Prop where
  | primitive {e : PrimitiveEffect} (he : e.IsRegular) (hu : e.IsUnconditional) :
    IsRegular (.primitive e)
  | universal {vs : TypedList Variable} {es : List Effect} (hvs : vs.IsWritable)
    (h : ∀ e ∈ es, IsRegular e) : IsRegular (.universal vs es)
  | conditional {g : Goal} {c : Consequent} (hg : g.IsRegular) (hc : ∀ e ∈ c.effects, e.IsRegular) :
    IsRegular (.conditional g c)

/-- Effects as a text can hold them. -/
def Effects.IsRegular (es : Effects) : Prop := ∀ e ∈ es.effects, e.IsRegular

namespace Rule

open Grammar

variable {text : List Char} {levels : Nat} {u v w : View}

/-! ### Terms that look like effects -/

/-- An applied term may also be a formula. -/
theorem look_predicate_of_term {t : Term} (h : term.look levels v = .found w t) (ht : t.IsApplied) :
    ∃ p ts, look levels (parens (headed (symbol .predicate) (many term))) v = .found w (p, ts) := by
  obtain ⟨k, f, rfl, hf, -⟩ := look_functionTerm_of_term h ht
  obtain ⟨⟨x, ts⟩, hx, -⟩ := look_map_eq_found.1 hf
  exact ⟨_, _, look_of_le (Nat.le_succ k) (look_headed_of_kind (by rfl) hx)⟩

theorem head?_of_applied {t : Term} (h : term.look levels v = .found w t) (ht : t.IsApplied) :
    v.rest.head? = some '(' := by
  obtain ⟨k, f, -, hf, -⟩ := look_functionTerm_of_term h ht
  exact head?_of_functionTerm hf

/-- A formula is there wherever an applied term is found. -/
theorem shadows_atomicFormula (levels : Nat) :
    Shadows text (atomicFormula.look levels) (term.look levels) Term.IsApplied := by
  intro v w t hv h ht
  obtain ⟨p, ts, hp⟩ := look_predicate_of_term h ht
  refine attains_of_ne_missing (by decide) (by decide) hp (head?_of_applied h ht) fun hm => ?_
  have hm := look_map_eq_missing.1 (look_orElse_eq_missing.1 hm).2
  rw [hp] at hm
  cases hm

/-- What is no primitive effect is no formula. -/
theorem look_atomicFormula_eq_missing_of_primitiveEffect
    (h : primitiveEffect.look levels v = .missing) : atomicFormula.look levels v = .missing := by
  have h := (look_orElse_eq_missing.1 h).2
  have h := (look_orElse_eq_missing.1 h).2
  have h := (look_orElse_eq_missing.1 h).2
  exact look_map_eq_missing.1 (look_orElse_eq_missing.1 h).2

/-- A primitive effect is there wherever an applied term is found. -/
theorem shadows_primitiveEffect (levels : Nat) :
    Shadows text (primitiveEffect.look levels) (term.look levels) Term.IsApplied := by
  intro v w t hv h ht
  obtain ⟨p, ts, hp⟩ := look_predicate_of_term h ht
  refine attains_of_ne_missing (by decide) (by decide) hp (head?_of_applied h ht) fun hm => ?_
  exact (shadows_atomicFormula levels v w t hv h ht).ne_missing
    (look_atomicFormula_eq_missing_of_primitiveEffect hm)

/-- A consequent is there wherever an applied term is found. -/
theorem shadows_consequent (levels : Nat) :
    Shadows text (consequent.look levels) (term.look levels) Term.IsApplied := by
  intro v w t hv h ht
  obtain ⟨p, ts, hp⟩ := look_predicate_of_term h ht
  refine attains_of_ne_missing (by decide) (by decide) hp (head?_of_applied h ht) fun hm => ?_
  exact (shadows_primitiveEffect levels v w t hv h ht).ne_missing
    (look_map_eq_missing.1 (look_orElse_eq_missing.1 hm).2)

/-- What is negated is read as such. -/
theorem not_fitsEffect_not {p : Predicate} {ts : List Term}
    (h : look levels (parens (headed (symbol .predicate) (many term))) v = .found w (p, ts))
    (hnot : look levels (form "not" atomicFormula) v = .missing) (hp : p.text = "not") :
    ¬FitsEffect p.text ts := by
  intro hfits
  generalize hx : p.text = x at hfits
  cases hfits with
  | and _ => exact absurd (hp.symm.trans hx) (by decide)
  | when _ _ => exact absurd (hp.symm.trans hx) (by decide)
  | not ht =>
    refine (attains_form rfl hp (by decide) h fun u u' _ hu _ => ?_).ne_missing hnot
    exact shadows_atomicFormula levels _ _ _ (List.suffix_refl _) (look_of_many_singleton hu) ht

/-- What has a condition is read as such. -/
theorem not_fitsEffect_when {p : Predicate} {ts : List Term}
    (h : look levels (parens (headed (symbol .predicate) (many term))) v = .found w (p, ts))
    (hwhen : look levels (form "when" (pair goal consequent)) v = .missing) (hp : p.text = "when") :
    ¬FitsEffect p.text ts := by
  intro hfits
  generalize hx : p.text = x at hfits
  cases hfits with
  | and _ => exact absurd (hp.symm.trans hx) (by decide)
  | not _ => exact absurd (hp.symm.trans hx) (by decide)
  | when hs ht =>
    refine (attains_form rfl hp (by decide) h fun u u' _ hu _ => ?_).ne_missing hwhen
    obtain ⟨x, hx, hy⟩ := look_pair_eq_found.1 (look_pair_of_many hu)
    exact attains_pair (shadows_goal levels _ _ _ (List.suffix_refl _) hx hs)
      (attains_separated (shadows_consequent levels) (List.suffix_refl _) hy ht)

/-! ### Primitive effects -/

/-- How a primitive effect is read, by what it is. -/
def ReadsPrimitive (levels : Nat) (v w : View) : PrimitiveEffect → Prop
  | .add f => atomicFormula.look levels v = .found w f ∧
      look levels (form "not" atomicFormula) v = .missing
  | .delete f => look levels (form "not" atomicFormula) v = .found w f
  | .assignNumeric op f e =>
    look levels (parens (pair (keyword AssignOp) (pair fluent expression))) v = .found w (op, f, e)
  | .assignObject f (some t) => look levels (form "assign" (pair functionTerm term)) v = .found w (f, t)
  | .assignObject f none =>
    look levels (form "assign" (pair functionTerm (word "undefined"))) v = .found w (f, ())

theorem readsPrimitive_of_look {e : PrimitiveEffect} (h : primitiveEffect.look levels v = .found w e) :
    ReadsPrimitive levels v w e := by
  obtain h | ⟨-, h⟩ := look_orElse_eq_found.1 h
  · obtain ⟨f, hf, rfl⟩ := look_map_eq_found.1 h
    exact hf
  obtain h | ⟨-, h⟩ := look_orElse_eq_found.1 h
  · obtain ⟨⟨op, f, e⟩, hf, rfl⟩ := look_map_eq_found.1 h
    exact hf
  obtain h | ⟨-, h⟩ := look_orElse_eq_found.1 h
  · obtain ⟨⟨f, t⟩, hf, rfl⟩ := look_map_eq_found.1 h
    exact hf
  obtain h | ⟨hnot, h⟩ := look_orElse_eq_found.1 h
  · obtain ⟨f, hf, rfl⟩ := look_map_eq_found.1 h
    exact hf
  · obtain ⟨f, hf, rfl⟩ := look_map_eq_found.1 h
    exact ⟨hf, look_map_eq_missing.1 hnot⟩

/-- How a formula of a predicate is read. -/
theorem look_predicate_of_atomicFormula {p : Predicate} {ts : List Term}
    (h : atomicFormula.look levels v = .found w (.predicate p ts)) :
    look levels (parens (headed (symbol .predicate) (many term))) v = .found w (p, ts) := by
  obtain h | ⟨-, h⟩ := look_orElse_eq_found.1 h
  · obtain ⟨lr, -, hlr⟩ := look_map_eq_found.1 h
    cases hlr
  · obtain ⟨⟨p, ts⟩, hp, heq⟩ := look_map_eq_found.1 h
    cases heq
    exact hp

theorem isRegular_of_look_primitiveEffect {e : PrimitiveEffect} (hv : v.rest <:+ text)
    (h : primitiveEffect.look levels v = .found w e) : e.IsRegular := by
  have h := readsPrimitive_of_look h
  cases e with
  | add f =>
    obtain ⟨hf, hnot⟩ := h
    cases f with
    | equality l r => exact trivial
    | predicate p ts => exact not_fitsEffect_not (look_predicate_of_atomicFormula hf) hnot
  | delete f => exact trivial
  | assignNumeric op f e => exact (Finds.parens ⟨v, w, hv, h⟩).pair.2.pair.2.expression
  | assignObject f t => exact trivial

theorem Finds.primitiveEffect {e : PrimitiveEffect}
    (h : Finds Rule.primitiveEffect text levels e) : e.IsRegular := by
  obtain ⟨v, w, hv, h⟩ := h
  exact isRegular_of_look_primitiveEffect hv h

theorem Finds.consequent {c : Consequent} (h : Finds Rule.consequent text levels c) :
    ∀ e ∈ c.effects, e.IsRegular := by
  obtain h | h := h.orElse
  · obtain ⟨es, hes, rfl⟩ := h.map
    exact fun e he => (hes.form.many e he).primitiveEffect
  · obtain ⟨e, he, rfl⟩ := h.map
    exact List.forall_mem_singleton.2 he.primitiveEffect

/-! ### Effects -/

/-- A primitive effect that is not read as a conditional one. -/
theorem isUnconditional_of_look {e : PrimitiveEffect} (h : primitiveEffect.look levels v = .found w e)
    (hwhen : look levels (form "when" (pair goal consequent)) v = .missing) : e.IsUnconditional := by
  have h := readsPrimitive_of_look h
  cases e with
  | add f =>
    cases f with
    | equality l r => exact trivial
    | predicate p ts => exact not_fitsEffect_when (look_predicate_of_atomicFormula h.1) hwhen
  | delete f => exact trivial
  | assignNumeric op f e => exact trivial
  | assignObject f t => exact trivial

/-- Effects and single effects that are found are regular. -/
theorem isRegular_of_finds :
    (∀ e, Finds Rule.effect text levels e → e.IsRegular) ∧
      ∀ es, Finds Rule.effects text levels es → es.IsRegular := by
  induction levels with
  | zero =>
    constructor <;>
    · intro e h
      obtain ⟨k, hk, -⟩ := h.call
      omega
  | succ levels ih =>
    obtain ⟨ihe, ihes⟩ := ih
    constructor
    · intro e h
      obtain ⟨k, hk, v, w, hv, h⟩ := h.call
      obtain rfl : levels = k := by omega
      obtain h | ⟨-, h⟩ := look_orElse_eq_found.1 h
      · obtain ⟨⟨vs, es⟩, hes, rfl⟩ := look_map_eq_found.1 h
        obtain ⟨hvs, hes⟩ := Finds.quantified ⟨v, w, hv, hes⟩
        exact .universal hvs.parameters (ihes es hes)
      obtain h | ⟨hwhen, h⟩ := look_orElse_eq_found.1 h
      · obtain ⟨⟨g, c⟩, hgc, rfl⟩ := look_map_eq_found.1 h
        obtain ⟨hg, hc⟩ := (Finds.form ⟨v, w, hv, hgc⟩).pair
        exact .conditional hg.goal hc.consequent
      · obtain ⟨e, he, rfl⟩ := look_map_eq_found.1 h
        exact .primitive (isRegular_of_look_primitiveEffect hv he)
          (isUnconditional_of_look he (look_map_eq_missing.1 hwhen))
    · intro es h
      obtain ⟨k, hk, h⟩ := h.call
      obtain rfl : levels = k := by omega
      obtain h | h := h.orElse
      · obtain ⟨es, hes, rfl⟩ := h.map
        exact fun e he => ihe e (hes.form.many e he)
      · obtain ⟨e, he, rfl⟩ := h.map
        exact List.forall_mem_singleton.2 (ihe e he)

/-- **All effects that are found are regular.** -/
theorem Finds.effects {es : Effects} (h : Finds Rule.effects text levels es) : es.IsRegular :=
  isRegular_of_finds.2 es h

end Rule

end Pddl
