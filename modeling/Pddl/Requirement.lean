import Pddl.Vocabulary

/-!
# Requirement flags

A domain or problem declares the parts of the language that it uses by requirement flags.  Some
flags are shorthands for several others.

* `Requirement` : the flags; `Requirement.expand` lists what a shorthand stands for.
* `Requirements` : declared flags without repeats, in the order of their first occurrence.
* `Requirements.isEffective` : the flag is declared, directly or through a shorthand; where
  nothing is declared, `:strips` is understood.
-/

namespace Pddl

/-- A requirement flag. -/
inductive Requirement where
  | strips | typing | negativePreconditions | disjunctivePreconditions | equality
  | existentialPreconditions | universalPreconditions | quantifiedPreconditions
  | conditionalEffects | fluents | numericFluents | objectFluents | adl | durativeActions
  | durationInequalities | continuousEffects | derivedPredicates | timedInitialLiterals
  | preferences | constraints | actionCosts
  deriving DecidableEq, Repr

instance : Vocabulary Requirement where
  title := "Requirement"
  members := [.strips, .typing, .negativePreconditions, .disjunctivePreconditions, .equality,
    .existentialPreconditions, .universalPreconditions, .quantifiedPreconditions,
    .conditionalEffects, .fluents, .numericFluents, .objectFluents, .adl, .durativeActions,
    .durationInequalities, .continuousEffects, .derivedPredicates, .timedInitialLiterals,
    .preferences, .constraints, .actionCosts]
  keyword
    | .strips => ":strips"
    | .typing => ":typing"
    | .negativePreconditions => ":negative-preconditions"
    | .disjunctivePreconditions => ":disjunctive-preconditions"
    | .equality => ":equality"
    | .existentialPreconditions => ":existential-preconditions"
    | .universalPreconditions => ":universal-preconditions"
    | .quantifiedPreconditions => ":quantified-preconditions"
    | .conditionalEffects => ":conditional-effects"
    | .fluents => ":fluents"
    | .numericFluents => ":numeric-fluents"
    | .objectFluents => ":object-fluents"
    | .adl => ":adl"
    | .durativeActions => ":durative-actions"
    | .durationInequalities => ":duration-inequalities"
    | .continuousEffects => ":continuous-effects"
    | .derivedPredicates => ":derived-predicates"
    | .timedInitialLiterals => ":timed-initial-literals"
    | .preferences => ":preferences"
    | .constraints => ":constraints"
    | .actionCosts => ":action-costs"
  complete a := by cases a <;> simp

namespace Requirement

/-- The keyword of the flag. -/
def keyword (r : Requirement) : String := Vocabulary.keyword r

/-- Every flag, in the order in which lists of flags are reported. -/
def all : List Requirement := Vocabulary.members

/-- The flag in capitals, with underscores for hyphens. -/
def identifier (r : Requirement) : String :=
  String.ofList <| (r.keyword.toList.drop 1).map fun c => if c == '-' then '_' else c.toUpper

/-- The flags that a shorthand stands for; any other flag stands for itself. -/
def expand : Requirement → List Requirement
  | quantifiedPreconditions => [existentialPreconditions, universalPreconditions]
  | fluents => [numericFluents, objectFluents]
  | adl => [strips, typing, negativePreconditions, disjunctivePreconditions, equality,
      existentialPreconditions, universalPreconditions, conditionalEffects]
  | r => [r]

end Requirement

/-- The list with only the first occurrence of each element. -/
def firstOccurrences {α : Type} [DecidableEq α] : List α → List α
  | [] => []
  | a :: as => a :: (firstOccurrences as).filter (· ≠ a)

theorem nodup_firstOccurrences {α : Type} [DecidableEq α] (as : List α) :
    (firstOccurrences as).Nodup := by
  induction as with
  | nil => simp [firstOccurrences]
  | cons a as ih =>
    rw [firstOccurrences, List.nodup_cons]
    exact ⟨by simp, ih.sublist List.filter_sublist⟩

theorem mem_firstOccurrences {α : Type} [DecidableEq α] {as : List α} {a : α} :
    a ∈ firstOccurrences as ↔ a ∈ as := by
  induction as with
  | nil => simp [firstOccurrences]
  | cons b as ih =>
    by_cases h : a = b <;> simp [firstOccurrences, ih, h]

theorem firstOccurrences_of_nodup {α : Type} [DecidableEq α] {as : List α} (h : as.Nodup) :
    firstOccurrences as = as := by
  induction as with
  | nil => rfl
  | cons a as ih =>
    rw [List.nodup_cons] at h
    have hne : ∀ b ∈ as, decide (b ≠ a) = true := fun b hb =>
      decide_eq_true fun hba => h.1 (hba ▸ hb)
    rw [firstOccurrences, ih h.2, List.filter_eq_self.2 hne]

/-- Declared requirement flags, without repeats. -/
structure Requirements where
  /-- The flags in declared order. -/
  declared : List Requirement
  nodup : declared.Nodup
  deriving DecidableEq

namespace Requirements

/-- The flags of a list, each at its first occurrence. -/
def ofList (rs : List Requirement) : Requirements := ⟨firstOccurrences rs, nodup_firstOccurrences rs⟩

theorem ofList_declared (rs : Requirements) : ofList rs.declared = rs := by
  obtain ⟨declared, h⟩ := rs
  simp only [ofList, firstOccurrences_of_nodup h]

/-- No flags. -/
def none : Requirements := ⟨[], List.nodup_nil⟩

/-- No flag is declared. -/
def isEmpty (rs : Requirements) : Bool := rs.declared.isEmpty

/-- The flag is in force: it is declared or part of a declared shorthand; `:adl` also brings
`:quantified-preconditions`, and no declaration at all means `:strips`. -/
def isEffective (rs : Requirements) (r : Requirement) : Bool :=
  if rs.isEmpty then r = .strips
  else rs.declared.any (fun d => r = d || d.expand.contains r) ||
    (r = .quantifiedPreconditions && rs.declared.contains .adl)

/-- The flags in force. -/
def effective (rs : Requirements) : List Requirement := Requirement.all.filter rs.isEffective

theorem mem_effective {rs : Requirements} {r : Requirement} :
    r ∈ rs.effective ↔ rs.isEffective r = true := by
  simp [effective, Requirement.all, Vocabulary.complete]

end Requirements

/-- Declaring the first flag alone puts the second one in force. -/
def Requirement.contains (r other : Requirement) : Bool :=
  (Requirements.ofList [r]).isEffective other

end Pddl
