import Mathlib.Data.List.Basic
import Pddl.Proofs.DeclaredFlags

/-!
# Declared flags as closed sets

Flags are declared in a list, but all that counts is which flags stand in it.  What is in force is
a set: it is united where lists are put together, and it is closed under shorthands, although a
shorthand is expanded only once, because no flag that a shorthand stands for is a shorthand itself.

* `pairwise_idxOf_firstOccurrences` : what is kept of a list follows the order of first occurrence.
* `Requirement.contains_of_mem_expand` : what a flag puts in force, it puts in force with all that
  it stands for.
* `Requirements.isEffective_of_mem_expand` : **what is in force is closed under shorthands.**
* `Requirements.isEffective_ofList_append` : **lists of flags put together have in force what either
  of them has.**
* `Requirements.ofList_closed` : the laws of declared flags together.
-/

namespace Pddl

/-- What is kept of a list follows the order of first occurrence. -/
theorem pairwise_idxOf_firstOccurrences {α : Type} [DecidableEq α] (as : List α) :
    (firstOccurrences as).Pairwise fun a b => as.idxOf a < as.idxOf b := by
  induction as with
  | nil => exact .nil
  | cons a as ih =>
    have hne {b : α} (hb : b ∈ (firstOccurrences as).filter (· ≠ a)) : a ≠ b :=
      Ne.symm (of_decide_eq_true (List.mem_filter.1 hb).2)
    rw [firstOccurrences, List.pairwise_cons]
    constructor
    · intro b hb
      rw [List.idxOf_cons_self, List.idxOf_cons_ne as (hne hb)]
      exact Nat.succ_pos _
    · refine List.Pairwise.imp_of_mem (fun hb hc h => ?_) (ih.filter _)
      rw [List.idxOf_cons_ne as (hne hb), List.idxOf_cons_ne as (hne hc)]
      exact Nat.succ_lt_succ h

namespace Requirement

variable {d r s : Requirement}

/-- No flag that a flag stands for is a shorthand. -/
theorem expand_of_mem_expand (h : r ∈ d.expand) : r.expand = [r] := by
  have hall : ∀ r ∈ d.expand, r.expand = [r] := by cases d <;> decide
  exact hall r h

/-- What a flag puts in force, it puts in force with all that it stands for. -/
theorem contains_of_mem_expand (h : d.contains r = true) (hs : s ∈ r.expand) :
    d.contains s = true := by
  obtain (rfl | hr) | ⟨rfl, rfl⟩ := contains_iff.1 h
  · exact contains_iff.2 (.inl (.inr hs))
  · rw [expand_of_mem_expand hr, List.mem_singleton] at hs
    exact hs ▸ h
  · have hall : ∀ s ∈ expand quantifiedPreconditions, adl.contains s = true := by decide
    exact hall s hs

end Requirement

namespace Requirements

variable {rs rs' : Requirements} {xs ys : List Requirement} {r s : Requirement}

/-- What is in force is closed under shorthands. -/
theorem isEffective_of_mem_expand (h : rs.isEffective r = true) (hs : s ∈ r.expand) :
    rs.isEffective s = true := by
  by_cases hnil : rs.declared = []
  · obtain rfl := (isEffective_iff_of_eq_nil hnil).1 h
    obtain rfl : s = .strips := List.mem_singleton.1 hs
    exact h
  · rw [isEffective_iff_of_ne_nil hnil] at h ⊢
    obtain ⟨d, hd, hdr⟩ := h
    exact ⟨d, hd, Requirement.contains_of_mem_expand hdr hs⟩

/-- What is in force depends only on the set of flags that are declared. -/
theorem isEffective_congr (h : ∀ d, d ∈ rs.declared ↔ d ∈ rs'.declared) :
    rs.isEffective r = rs'.isEffective r := by
  have hnil : rs.declared = [] ↔ rs'.declared = [] := by
    simp only [List.eq_nil_iff_forall_not_mem, h]
  rw [Bool.eq_iff_iff]
  by_cases hempty : rs.declared = []
  · rw [isEffective_iff_of_eq_nil hempty, isEffective_iff_of_eq_nil (hnil.1 hempty)]
  · rw [isEffective_iff_of_ne_nil hempty, isEffective_iff_of_ne_nil (mt hnil.2 hempty)]
    simp only [h]

theorem effective_congr (h : ∀ d, d ∈ rs.declared ↔ d ∈ rs'.declared) :
    rs.effective = rs'.effective :=
  List.filter_congr fun _ _ => isEffective_congr h

theorem mem_declared_ofList : r ∈ (ofList xs).declared ↔ r ∈ xs := mem_firstOccurrences

theorem declared_ofList_ne_nil (hxs : xs ≠ []) : (ofList xs).declared ≠ [] := by
  obtain ⟨x, xs, rfl⟩ := List.exists_cons_of_ne_nil hxs
  exact List.ne_nil_of_mem (mem_declared_ofList.2 List.mem_cons_self)

/-- Of flags that are listed, one alone puts in force what is in force. -/
theorem isEffective_ofList (hxs : xs ≠ []) :
    (ofList xs).isEffective r = true ↔ ∃ x ∈ xs, x.contains r = true := by
  simp only [isEffective_iff_of_ne_nil (declared_ofList_ne_nil hxs), mem_declared_ofList]

/-- Lists of flags put together have in force what either of them has. -/
theorem isEffective_ofList_append (hxs : xs ≠ []) (hys : ys ≠ []) :
    (ofList (xs ++ ys)).isEffective r = true ↔
      (ofList xs).isEffective r = true ∨ (ofList ys).isEffective r = true := by
  rw [isEffective_ofList hxs, isEffective_ofList hys,
    isEffective_ofList (List.append_ne_nil_of_left_ne_nil hxs ys)]
  simp only [List.mem_append, or_and_right, exists_or]

/-- Declared flags behave as a set that is closed under shorthands.  Each flag is kept once, in the
order of first occurrence, and nothing is left to remove; what is in force depends only on the set
of flags; it is united where two lists that are not empty are put together; it is closed under
shorthands; and if any flags are listed, a flag is in force exactly if one of them alone puts it in
force. -/
theorem ofList_closed (xs ys : List Requirement) :
    ((ofList xs).declared.Nodup ∧ (∀ r, r ∈ (ofList xs).declared ↔ r ∈ xs) ∧
      ((ofList xs).declared.Pairwise fun a b => xs.idxOf a < xs.idxOf b) ∧
      ofList (ofList xs).declared = ofList xs) ∧
    ((∀ r, r ∈ xs ↔ r ∈ ys) → (ofList xs).effective = (ofList ys).effective) ∧
    (xs ≠ [] → ys ≠ [] → ∀ r, r ∈ (ofList (xs ++ ys)).effective ↔
      r ∈ (ofList xs).effective ∨ r ∈ (ofList ys).effective) ∧
    (∀ r ∈ (ofList xs).effective, ∀ s ∈ r.expand, s ∈ (ofList xs).effective) ∧
    (xs ≠ [] → ∀ r, (ofList xs).isEffective r = true ↔ ∃ x ∈ xs, x.contains r = true) := by
  refine ⟨⟨(ofList xs).nodup, fun _ => mem_declared_ofList, pairwise_idxOf_firstOccurrences xs,
    ofList_declared _⟩, fun h => ?_, fun hxs hys r => ?_, fun r hr s hs => ?_, fun hxs r => ?_⟩
  · refine effective_congr fun r => ?_
    rw [mem_declared_ofList, mem_declared_ofList, h]
  · simp only [mem_effective]
    exact isEffective_ofList_append hxs hys
  · rw [mem_effective] at hr ⊢
    exact isEffective_of_mem_expand hr hs
  · exact isEffective_ofList hxs

/-- A shorthand that is listed twice, and one that is implied by another. -/
theorem ofList_closed_adl :
    (ofList [.adl, .fluents, .adl]).effective = (ofList [.fluents, .adl]).effective ∧
    (∀ r, r ∈ (ofList ([.adl, .fluents, .adl] ++ [.fluents, .adl])).effective ↔
      r ∈ (ofList [.adl, .fluents, .adl]).effective ∨ r ∈ (ofList [.fluents, .adl]).effective) ∧
    (∀ s ∈ Requirement.expand .quantifiedPreconditions,
      s ∈ (ofList [.adl, .fluents, .adl]).effective) ∧
    ∀ r, (ofList [.adl, .fluents, .adl]).isEffective r = true ↔
      ∃ x ∈ [Requirement.adl, .fluents, .adl], x.contains r = true := by
  obtain ⟨-, hset, hunion, hexpand, hcontains⟩ :=
    ofList_closed [.adl, .fluents, .adl] [.fluents, .adl]
  refine ⟨hset fun r => ?_, hunion (by simp) (by simp), hexpand _ (by decide), hcontains (by simp)⟩
  simp only [List.mem_cons, List.not_mem_nil, or_false]
  exact ⟨fun h => h.elim .inr id, .inr⟩

end Requirements

end Pddl
