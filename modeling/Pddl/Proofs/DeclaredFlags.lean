import Pddl.Description

/-!
# Declaring what is reported

The report on a description lists the requirement flags that its tree needs and its declarations do
not put in force.  The declarations are a part of the tree, and a description that declares nothing
has `:strips` in force, which it loses with the first flag that is declared.  Neither of the two
disturbs the report: flags need no flag, and nothing needs `:strips`.

* `Requirement.IsShorthand` : the flag stands for others.
* `Requirements.isEffective_append` : **apart from `:strips`, what further flags put in force is
  added to what is in force already.**
* `Node.not_isShorthand_of_requirement?` : nothing needs `:strips` or a shorthand.
* `Description.uses_declaring` : what a description needs does not depend on what it declares.
* `Description.undeclared_declaring` : **declaring flags removes from the report what they put in
  force, and nothing else.**
* `Description.undeclared_settles` : **declaring what is reported settles the report.**
-/

namespace Pddl

/-! ### Flags in force -/

namespace Requirement

/-- The flag is a shorthand for others. -/
def IsShorthand (r : Requirement) : Prop := r.expand ≠ [r]

instance (r : Requirement) : Decidable r.IsShorthand := inferInstanceAs (Decidable (_ ≠ _))

theorem isShorthand_iff {r : Requirement} :
    r.IsShorthand ↔ r = .quantifiedPreconditions ∨ r = .fluents ∨ r = .adl := by
  cases r <;> decide

theorem contains_self (r : Requirement) : r.contains r = true := by cases r <;> decide

/-- A flag alone puts itself in force and what it stands for; `:adl` also brings
`:quantified-preconditions`. -/
theorem contains_iff {d r : Requirement} : d.contains r = true ↔
    (r = d ∨ r ∈ d.expand) ∨ r = .quantifiedPreconditions ∧ d = .adl := by
  simp [contains, Requirements.isEffective, Requirements.isEmpty, Requirements.ofList,
    firstOccurrences, eq_comm (a := d)]

theorem ofKeyword?_keyword (r : Requirement) :
    Vocabulary.ofKeyword? (Vocabulary.keyword r) = some r := by
  cases r <;> decide

end Requirement

namespace Requirements

variable {rs : Requirements} {flags : List Requirement} {r : Requirement}

/-- The declared flags, followed by further ones. -/
def append (rs : Requirements) (flags : List Requirement) : Requirements :=
  .ofList (rs.declared ++ flags)

/-- Where flags are declared, a flag is in force if one of them alone puts it in force. -/
theorem isEffective_iff_of_ne_nil (hne : rs.declared ≠ []) :
    rs.isEffective r = true ↔ ∃ d ∈ rs.declared, d.contains r = true := by
  simp only [isEffective, isEmpty, List.isEmpty_iff, hne, if_false, Bool.or_eq_true,
    List.any_eq_true, Requirement.contains_iff]
  simp only [Bool.and_eq_true, decide_eq_true_eq, List.contains_iff_mem]
  constructor
  · rintro (⟨d, hd, h⟩ | ⟨h, hd⟩)
    · exact ⟨d, hd, .inl h⟩
    · exact ⟨.adl, hd, .inr ⟨h, rfl⟩⟩
  · rintro ⟨d, hd, h | ⟨h, rfl⟩⟩
    · exact .inl ⟨d, hd, h⟩
    · exact .inr ⟨h, hd⟩

/-- Where nothing is declared, only `:strips` is in force. -/
theorem isEffective_iff_of_eq_nil (hnil : rs.declared = []) :
    rs.isEffective r = true ↔ r = .strips := by
  simp [isEffective, isEmpty, hnil]

/-- Apart from `:strips`, a flag is in force if a declared flag alone puts it in force. -/
theorem isEffective_iff (hr : r ≠ .strips) :
    rs.isEffective r = true ↔ ∃ d ∈ rs.declared, d.contains r = true := by
  by_cases hempty : rs.declared = []
  · simp [isEffective_iff_of_eq_nil hempty, hempty, hr]
  · exact isEffective_iff_of_ne_nil hempty

/-- Apart from `:strips`, what further flags put in force is added to what is in force already. -/
theorem isEffective_append (hr : r ≠ .strips) : (rs.append flags).isEffective r = true ↔
    rs.isEffective r = true ∨ ∃ d ∈ flags, d.contains r = true := by
  simp only [isEffective_iff hr, append, ofList, mem_firstOccurrences, List.mem_append, or_and_right,
    exists_or]

end Requirements

/-! ### What nodes need -/

/-- No construct needs `:strips` or a shorthand. -/
theorem Kind.not_isShorthand_of_requirement? {k : Kind} {r : Requirement}
    (h : k.requirement? = some r) : r ≠ .strips ∧ ¬r.IsShorthand := by
  cases k <;> cases h <;> decide

namespace Node

/-- Nothing needs `:strips` or a shorthand. -/
theorem not_isShorthand_of_requirement? {n : Node} {r : Requirement}
    (h : n.requirement? = some r) : r ≠ .strips ∧ ¬r.IsShorthand := by
  unfold requirement? at h
  split at h
  · cases h; decide
  -- fluents and declared functions, with the fluent of action costs set apart
  · cases h; split <;> decide
  · cases h; split <;> decide
  -- changes, bounds and the two kinds of conjunction, each with a case that needs nothing
  · split at h <;> cases h; decide
  · split at h <;> cases h; decide
  · cases h; decide
  · cases h; decide
  · split at h <;> cases h; decide
  · exact Kind.not_isShorthand_of_requirement? h
  · cases h

theorem not_isShorthand_of_uses {n : Node} {r : Requirement} (h : n.uses r = true) :
    r ≠ .strips ∧ ¬r.IsShorthand := by
  rw [uses, Bool.or_eq_true, List.any_eq_true, Bool.and_eq_true, beq_iff_eq] at h
  obtain ⟨m, -, hm⟩ | ⟨rfl, -⟩ := h
  · exact not_isShorthand_of_requirement? (by simpa using hm)
  · decide

/-! ### Declared flags in the tree -/

/-- Words need no flag. -/
theorem requirement?_of_mem_words {α : Type} [Vocabulary α] {as : List α} {n : Node}
    (h : n ∈ allSubnodes (as.map toNode)) : n.requirement? = none := by
  induction as with
  | nil => cases h
  | cons a as ih =>
    obtain rfl | h := List.mem_cons.1 h
    · rfl
    · exact ih h

/-- Declared flags need no flag. -/
theorem requirement?_of_mem_declared {rs : Requirements} {n : Node} (h : n ∈ (toNode rs).subnodes) :
    n.requirement? = none := by
  have h : n ∈ form .requirements [toNode rs.declared] :: tuple (rs.declared.map toNode) ::
      (allSubnodes (rs.declared.map toNode) ++ []) := h
  rw [List.append_nil] at h
  obtain rfl | h := List.mem_cons.1 h
  · rfl
  obtain rfl | h := List.mem_cons.1 h
  · rfl
  · exact requirement?_of_mem_words h

/-- A construct whose third field holds declared flags needs the same with any others there. -/
theorem exists_subnode_congr {kind : Kind} {a b : Node} {fields : List Node} (rs rs' : Requirements)
    {r : Requirement} (hk : ∀ fields, (form kind fields).requirement? = none)
    (h : ∃ n ∈ (form kind (a :: b :: toNode rs :: fields)).subnodes, n.requirement? = some r) :
    ∃ n ∈ (form kind (a :: b :: toNode rs' :: fields)).subnodes, n.requirement? = some r := by
  obtain ⟨n, hn, hr⟩ := h
  simp only [subnodes, allSubnodes, List.mem_cons, List.mem_append] at hn ⊢
  obtain rfl | hn | hn | hn | hn := hn
  · rw [hk] at hr; cases hr
  · exact ⟨n, .inr (.inl hn), hr⟩
  · exact ⟨n, .inr (.inr (.inl hn)), hr⟩
  · rw [requirement?_of_mem_declared hn] at hr; cases hr
  · exact ⟨n, .inr (.inr (.inr (.inr hn))), hr⟩

/-- The flags that a form declares are read off its field. -/
theorem declaredRequirements_of_field? {n : Node} {rs : Requirements}
    (h : n.field? "requirements" = some (toNode rs)) : n.declaredRequirements = rs := by
  have hmembers : (toNode rs).memberNodes = rs.declared.map toNode := rfl
  have hword (r : Requirement) : (toNode r).word?.bind Vocabulary.ofKeyword? = some r :=
    Requirement.ofKeyword?_keyword r
  simp only [declaredRequirements, h, hmembers, List.filterMap_map, Function.comp_def, hword,
    List.filterMap_some, Requirements.ofList_declared]

end Node

/-! ### Reports -/

namespace Description

variable {d : Description} {flags : List Requirement} {r : Requirement}

/-- The flags that the description declares. -/
def requirements : Description → Requirements
  | domain d => d.requirements
  | problem p => p.requirements

/-- The description, with further flags declared behind its own. -/
def declaring (d : Description) (flags : List Requirement) : Description :=
  match d with
  | domain d => domain { d with requirements := d.requirements.append flags }
  | problem p => problem { p with requirements := p.requirements.append flags }

@[simp] theorem requirements_declaring :
    (d.declaring flags).requirements = d.requirements.append flags := by
  cases d <;> rfl

theorem declaredRequirements_eq : (toNode d).declaredRequirements = d.requirements := by
  cases d <;> exact Node.declaredRequirements_of_field? rfl

theorem undeclared_eq : d.undeclared = Requirement.all.filter fun r =>
    (toNode d).uses r && !d.requirements.isEffective r := by
  simp only [undeclared, Node.undeclaredRequirements, Node.usedRequirements, declaredRequirements_eq,
    List.filter_filter, Bool.and_comm]

/-- What a description needs does not depend on what it declares. -/
theorem uses_declaring : (toNode (d.declaring flags)).uses r = (toNode d).uses r := by
  have hnode (n m : Node) (htypes : n.declaresTypes = m.declaresTypes)
      (h : (∃ k ∈ n.subnodes, k.requirement? = some r) ↔ ∃ k ∈ m.subnodes, k.requirement? = some r) :
      n.uses r = m.uses r := by
    have hany : n.subnodes.any (fun k => k.requirement? == some r) =
        m.subnodes.any fun k => k.requirement? == some r := by
      rw [Bool.eq_iff_iff, List.any_eq_true, List.any_eq_true]
      simpa only [beq_iff_eq] using h
    rw [Node.uses, Node.uses, htypes, hany]
  cases d with
  | domain d =>
    exact hnode _ _ rfl ⟨Node.exists_subnode_congr _ _ fun _ => rfl,
      Node.exists_subnode_congr _ _ fun _ => rfl⟩
  | problem p =>
    exact hnode _ _ rfl ⟨Node.exists_subnode_congr _ _ fun _ => rfl,
      Node.exists_subnode_congr _ _ fun _ => rfl⟩

/-- Declaring flags removes from the report what they put in force, and nothing else. -/
theorem undeclared_declaring : (d.declaring flags).undeclared =
    d.undeclared.filter fun r => !flags.any fun f => f.contains r := by
  rw [undeclared_eq, undeclared_eq, List.filter_filter]
  refine List.filter_congr fun r _ => ?_
  rw [uses_declaring, requirements_declaring]
  cases huses : (toNode d).uses r with
  | false => rw [Bool.false_and, Bool.false_and, Bool.and_false]
  | true =>
    have hr := (Node.not_isShorthand_of_uses huses).1
    rw [Bool.eq_iff_iff]
    simp only [Bool.true_and, Bool.and_eq_true, Bool.not_eq_true', ← Bool.not_eq_true,
      Requirements.isEffective_append hr, List.any_eq_true, not_or]
    exact and_comm

/-- Declaring what is reported settles the report: it lists flags in their order, without repeats,
and never `:strips` or a shorthand; declaring more adds nothing to it, and declaring exactly what
it lists makes it empty. -/
theorem undeclared_settles (d : Description) :
    (d.undeclared.Sublist Requirement.all ∧ d.undeclared.Nodup) ∧
    (∀ r ∈ d.undeclared, r ≠ .strips ∧ ¬r.IsShorthand) ∧
    (∀ flags, (d.declaring flags).undeclared ⊆ d.undeclared) ∧
    (d.declaring d.undeclared).undeclared = [] := by
  have hsublist : d.undeclared.Sublist Requirement.all := undeclared_eq ▸ List.filter_sublist
  refine ⟨⟨hsublist, hsublist.nodup (by decide)⟩, fun r hr => ?_, fun flags => ?_, ?_⟩
  · rw [undeclared_eq, List.mem_filter, Bool.and_eq_true] at hr
    exact Node.not_isShorthand_of_uses hr.2.1
  · rw [undeclared_declaring]
    exact List.filter_sublist.subset
  · rw [undeclared_declaring, List.filter_eq_nil_iff]
    intro r hr
    simpa using ⟨r, hr, r.contains_self⟩

end Description

end Pddl
