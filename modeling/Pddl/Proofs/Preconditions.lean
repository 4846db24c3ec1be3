import Pddl.Proofs.Goals

/-!
# Preconditions as a text can hold them

Conjunctions and universal goals are read as preconditions of their own, and what looks like a
preference is one.

* `FitsPreference` : some arguments look like the parts of a preference.
* `Precondition.IsRegular` : a precondition that is read as nothing else.
* `Rule.Finds.preconditions` : **all preconditions that are found are regular.**
-/

namespace Pddl

/-! ### Regular preconditions -/

/-- The terms look like what stands in a preference. -/
inductive FitsPreference : String → List Term → Prop where
  | named {n : Name} {t : Term} (h : t.IsApplied) : FitsPreference "preference" [.name n, t]
  | unnamed {t : Term} (h : t.IsApplied) : FitsPreference "preference" [t]

/-- A goal that looks neither like several preconditions nor like a preference. -/
def Goal.IsSingle : Goal → Prop
  | conj _ => False
  | universal _ _ => False
  | atom (.predicate p ts) => ¬FitsPreference p.text ts
  | _ => True

/-- A precondition as a text can hold it. -/
inductive Precondition.IsRegular : Precondition → Prop where
  | required {g : Goal} (hg : g.IsRegular) (hs : g.IsSingle) : IsRegular (.goal (.required g))
  | preferred (n : Option PreferenceName) {g : Goal} (hg : g.IsRegular) :
    IsRegular (.goal (.preferred n g))
  | universal {vs : TypedList Variable} {qs : List Precondition} (hvs : vs.IsWritable)
    (h : ∀ q ∈ qs, IsRegular q) : IsRegular (.universal vs qs)

/-- Preconditions as a text can hold them. -/
def Preconditions.IsRegular (ps : Preconditions) : Prop := ∀ q ∈ ps.goals, q.IsRegular

namespace Rule

open Grammar

variable {text : List Char} {levels : Nat} {u v w : View}

/-! ### Goals that look like preconditions -/

/-- How a goal is read, by what it is. -/
def ReadsGoal (levels : Nat) (v w : View) : Goal → Prop
  | .atom f => atomicFormula.look levels v = .found w f
  | .literal l => literal.look levels v = .found w l
  | .conj gs => look levels (form "and" (many goal)) v = .found w gs
  | .disj gs => look levels (form "or" (many goal)) v = .found w gs
  | .neg g => look levels (form "not" goal) v = .found w g
  | .imply p c => look levels (form "imply" (pair goal goal)) v = .found w (p, c)
  | .existential vs g => look levels (quantified "exists" goal) v = .found w (vs, g)
  | .universal vs g => look levels (quantified "forall" goal) v = .found w (vs, g)
  | .compare c => comparison.look levels v = .found w c

theorem readsGoal_of_look {g : Goal} (h : goalForms.look levels v = .found w g) :
    ReadsGoal levels v w g := by
  obtain h | ⟨-, h⟩ := look_orElse_eq_found.1 h
  · obtain ⟨gs, hfound, rfl⟩ := look_map_eq_found.1 h
    exact hfound
  obtain h | ⟨-, h⟩ := look_orElse_eq_found.1 h
  · obtain ⟨gs, hfound, rfl⟩ := look_map_eq_found.1 h
    exact hfound
  obtain h | ⟨-, h⟩ := look_orElse_eq_found.1 h
  · obtain ⟨g, hfound, rfl⟩ := look_map_eq_found.1 h
    exact hfound
  obtain h | ⟨-, h⟩ := look_orElse_eq_found.1 h
  · obtain ⟨pc, hfound, rfl⟩ := look_map_eq_found.1 h
    exact hfound
  obtain h | ⟨-, h⟩ := look_orElse_eq_found.1 h
  · obtain ⟨vg, hfound, rfl⟩ := look_map_eq_found.1 h
    exact hfound
  obtain h | ⟨-, h⟩ := look_orElse_eq_found.1 h
  · obtain ⟨vg, hfound, rfl⟩ := look_map_eq_found.1 h
    exact hfound
  obtain h | ⟨-, h⟩ := look_orElse_eq_found.1 h
  · obtain ⟨f, hfound, rfl⟩ := look_map_eq_found.1 h
    exact hfound
  obtain h | ⟨-, h⟩ := look_orElse_eq_found.1 h
  · obtain ⟨l, hfound, rfl⟩ := look_map_eq_found.1 h
    exact hfound
  · obtain ⟨c, hfound, rfl⟩ := look_map_eq_found.1 h
    exact hfound

theorem ReadsGoal.of_le {j k : Nat} (hjk : j ≤ k) {g : Goal} (h : ReadsGoal j v w g) :
    ReadsGoal k v w g := by
  cases g <;> exact look_of_le hjk h

/-- How a goal is read where it is found. -/
theorem readsGoal_of_look_goal {g : Goal} (h : goal.look levels v = .found w g) :
    ReadsGoal levels v w g := by
  obtain ⟨k, rfl, h⟩ := look_call_eq_found.1 h
  exact (readsGoal_of_look h).of_le (Nat.le_succ k)

/-- A rule that begins with a parenthesis finds one. -/
theorem head?_of_opens {α : Type} {g : Rule α} {a : α} (hg : g.opens = true)
    (h : g.look levels v = .found w a) : v.rest.head? = some '(' := by
  by_contra hv
  have hm : (g.look levels v).Misses := misses_of_opens hg hv levels v.before
  rw [h] at hm
  obtain hm | hm := hm <;> cases hm

/-- Preconditions are there wherever a goal is found. -/
theorem shadows_preconditions (levels : Nat) :
    Shadows text (preconditions.look levels) (goal.look levels) fun _ => True := by
  intro v w g _ h _
  refine attains_of_ne_missing (h := goal) rfl rfl h (head?_of_opens rfl h) fun hm => ?_
  cases levels with
  | zero => cases hm
  | succ k =>
    -- no goal was missing with fewer levels
    have hm := (look_orElse_eq_missing.1 (look_orElse_eq_missing.1 hm).2).2
    have hm := (look_orElse_eq_missing.1 (look_map_eq_missing.1 hm)).2
    have hm := look_map_eq_missing.1 (look_orElse_eq_missing.1 hm).2
    rw [look_succ goal (by rw [hm]; exact Finding.missing_ne_tooDeep), hm] at h
    cases h

/-- A name that is read as a term is a name of any kind. -/
theorem look_symbol_of_term {kind : SymbolKind} (hk : kind.sigil = "") {n : Name}
    (h : term.look levels v = .found w (.name n)) :
    look levels (symbol kind) v = .found w ⟨n.text, n.valid⟩ := by
  obtain ⟨k, rfl, h⟩ := look_call_eq_found.1 h
  obtain h | ⟨-, h⟩ := look_orElse_eq_found.1 h
  · obtain ⟨x, -, hx⟩ := look_map_eq_found.1 h
    cases hx
  obtain h | ⟨-, h⟩ := look_orElse_eq_found.1 h
  · obtain ⟨f, -, hf⟩ := look_map_eq_found.1 h
    cases hf
  · obtain ⟨x, hx, hn⟩ := look_map_eq_found.1 h
    cases hn
    exact look_symbol_of_kind hk hx

/-- The parts of a preference are read as such. -/
theorem not_fitsPreference {p : Predicate} {ts : List Term}
    (h : look levels (parens (headed (symbol .predicate) (many term))) v = .found w (p, ts))
    (hnamed : look levels (form "preference" (pair (symbol .preference) goal)) v = .missing)
    (hunnamed : look levels (form "preference" goal) v = .missing) :
    ¬FitsPreference p.text ts := by
  intro hfits
  generalize hp : p.text = x at hfits
  cases hfits with
  | named ht =>
    refine (attains_form rfl hp (by decide) h fun u u' _ hu _ => ?_).ne_missing hnamed
    obtain ⟨x, hx, hy⟩ := look_pair_eq_found.1 (look_pair_of_many hu)
    exact attains_pair (Finding.attains_of_found (look_symbol_of_term rfl hx))
      (attains_separated (shadows_goal levels) (List.suffix_refl _) hy ht)
  | unnamed ht =>
    refine (attains_form rfl hp (by decide) h fun u u' _ hu _ => ?_).ne_missing hunnamed
    exact shadows_goal levels _ _ _ (List.suffix_refl _) (look_of_many_singleton hu) ht

/-- A goal that is not read as preconditions is single. -/
theorem isSingle_of_look {g : Goal} (h : goal.look levels v = .found w g)
    (hand : look levels (form "and" (many preconditions)) v = .missing)
    (hforall : look levels (quantified "forall" preconditions) v = .missing)
    (hnamed : look levels (form "preference" (pair (symbol .preference) goal)) v = .missing)
    (hunnamed : look levels (form "preference" goal) v = .missing) : g.IsSingle := by
  have h := readsGoal_of_look_goal h
  cases g with
  | conj gs =>
    obtain ⟨hopen, n, u, hn, hgs, hclose⟩ := look_form_eq_found.1 h
    have hmany := attains_many (shadows_preconditions levels) (fun _ => misses_close rfl)
      (List.suffix_refl _) hgs
      (fun _ _ => trivial) (View.skipBlanks_skipBlanks _) hclose.head?
    exact (attains_form_of_word hopen hn hmany hclose).ne_missing hand
  | universal vs g =>
    obtain ⟨hopen, n, u, hn, hvg, hclose⟩ := look_form_eq_found.1 h
    obtain ⟨x, hx, hg⟩ := look_pair_eq_found.1 hvg
    have hpair := attains_pair (Finding.attains_of_found hx)
      (attains_separated (shadows_preconditions levels) (List.suffix_refl _) hg trivial)
    exact (attains_form_of_word hopen hn hpair hclose).ne_missing hforall
  | atom f =>
    cases f with
    | equality l r => exact trivial
    | predicate p ts =>
      obtain h | ⟨-, h⟩ := look_orElse_eq_found.1 h
      · obtain ⟨lr, -, hlr⟩ := look_map_eq_found.1 h
        cases hlr
      · obtain ⟨⟨p, ts⟩, hp, heq⟩ := look_map_eq_found.1 h
        cases heq
        exact not_fitsPreference hp hnamed hunnamed
  | literal l => exact trivial
  | disj gs => exact trivial
  | neg g => exact trivial
  | imply p c => exact trivial
  | existential vs g => exact trivial
  | compare c => exact trivial

/-- **All preconditions that are found are regular.** -/
theorem Finds.preconditions {ps : Preconditions}
    (h : Finds Rule.preconditions text levels ps) : ps.IsRegular := by
  refine Finds.call_induction (fun levels ih ps h => ?_) h
  obtain ⟨v, w, hv, h⟩ := h
  obtain h | ⟨hand, h⟩ := look_orElse_eq_found.1 h
  · obtain ⟨pss, hpss, rfl⟩ := look_map_eq_found.1 h
    intro q hq
    obtain ⟨ps, hps, hq⟩ := List.mem_flatMap.1 hq
    exact ih (Finds.many (Finds.form ⟨v, w, hv, hpss⟩) ps hps) q hq
  obtain h | ⟨hforall, h⟩ := look_orElse_eq_found.1 h
  · obtain ⟨⟨vs, ps⟩, hps, rfl⟩ := look_map_eq_found.1 h
    obtain ⟨hvs, hps⟩ := Finds.quantified ⟨v, w, hv, hps⟩
    exact List.forall_mem_singleton.2 (.universal hvs.parameters (ih hps))
  have hforall := look_map_eq_missing.1 hforall
  obtain ⟨p, hp, rfl⟩ := look_map_eq_found.1 h
  refine List.forall_mem_singleton.2 ?_
  obtain h | ⟨hnamed, h⟩ := look_orElse_eq_found.1 hp
  · obtain ⟨⟨n, g⟩, hng, rfl⟩ := look_map_eq_found.1 h
    exact .preferred _ (Finds.form ⟨v, w, hv, hng⟩).pair.2.goal
  obtain h | ⟨hunnamed, h⟩ := look_orElse_eq_found.1 h
  · obtain ⟨g, hg, rfl⟩ := look_map_eq_found.1 h
    exact .preferred _ (Finds.form ⟨v, w, hv, hg⟩).goal
  · obtain ⟨g, hg, rfl⟩ := look_map_eq_found.1 h
    exact .required (Finds.goal ⟨v, w, hv, hg⟩)
      (isSingle_of_look hg (look_map_eq_missing.1 hand) hforall (look_map_eq_missing.1 hnamed)
        (look_map_eq_missing.1 hunnamed))

end Rule

end Pddl
