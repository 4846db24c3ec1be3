import Pddl.Proofs.ConstructTrees

/-!
# What a tree needs is put together from its parts

Whether a node needs a flag is decided by the node alone, so the flags that a tree needs are those
of its root and of the trees just below.  Only declared types are an exception: they count for a
domain whose flags are asked for, and they would not count for a domain below another node.  No tree
of the language holds such a domain, so that nothing is lost where a construct becomes part of a
larger one.

* `Node.Needs` : some node of the tree needs the flag.
* `Node.needs_iff` : **the root needs the flag, or one of the trees just below does.**
* `Node.usedRequirements_subset_of_mem` : **a tree needs what the trees inside it need.**
* `Node.usedRequirements_of_parts` : the flags of a tree from the flags of its parts.
-/

namespace Pddl

namespace Node

variable {m n : Node} {r : Requirement}

/-- Some node of the tree needs the flag. -/
def Needs (n : Node) (r : Requirement) : Prop := ∃ m ∈ n.subnodes, m.requirement? = some r

/-- The root needs the flag, or one of the trees just below does. -/
theorem needs_iff : n.Needs r ↔ n.requirement? = some r ∨ ∃ p ∈ n.parts, p.Needs r := by
  constructor
  · rintro ⟨m, hm, hr⟩
    obtain rfl | ⟨p, hp, hmp⟩ := mem_subnodes_iff.1 hm
    · exact .inl hr
    · exact .inr ⟨p, hp, m, hmp, hr⟩
  · rintro (hr | ⟨p, hp, m, hm, hr⟩)
    · exact ⟨n, mem_subnodes_self n, hr⟩
    · exact ⟨m, mem_subnodes_iff.2 (.inr ⟨p, hp, hm⟩), hr⟩

theorem Needs.of_mem (h : m.Needs r) (hm : m ∈ n.subnodes) : n.Needs r := by
  obtain ⟨l, hl, hr⟩ := h
  exact ⟨l, subnodes_trans hl hm, hr⟩

theorem mem_usedRequirements :
    r ∈ n.usedRequirements ↔ n.Needs r ∨ r = .typing ∧ n.declaresTypes = true := by
  simp [usedRequirements, uses, Needs, Requirement.all, Vocabulary.complete]

/-- Only domains declare types. -/
theorem isForm_of_declaresTypes (h : n.declaresTypes = true) : n.IsForm .domain := by
  unfold declaresTypes at h
  split at h
  · rfl
  · cases h

theorem declaresTypes_toNode {d : Domain} :
    (toNode d).declaresTypes = true ↔ d.types.items ≠ [] := by
  have htypes : (toNode d).declaresTypes = !(d.types.items.map toNode).isEmpty := rfl
  rw [htypes, List.isEmpty_map]
  simp

theorem mem_usedRequirements_of_not_isForm (hn : ¬n.IsForm .domain) :
    r ∈ n.usedRequirements ↔ n.Needs r := by
  rw [mem_usedRequirements]
  exact or_iff_left fun h => hn (isForm_of_declaresTypes h.2)

/-- Just below the top, a tree needs what its nodes need. -/
theorem IsTopped.mem_usedRequirements (hn : n.IsTopped) {p : Node} (hp : p ∈ n.parts) :
    r ∈ p.usedRequirements ↔ p.Needs r :=
  mem_usedRequirements_of_not_isForm (hn p hp p (mem_subnodes_self p))

theorem IsTopped.needs_iff (hn : n.IsTopped) :
    n.Needs r ↔ n.requirement? = some r ∨ ∃ p ∈ n.parts, r ∈ p.usedRequirements := by
  rw [Node.needs_iff]
  exact or_congr_right (exists_congr fun p => and_congr_right fun hp =>
    (hn.mem_usedRequirements hp).symm)

/-- A tree needs what the trees inside it need. -/
theorem usedRequirements_subset_of_mem (hn : n.IsTopped) (hm : m ∈ n.subnodes) :
    m.usedRequirements ⊆ n.usedRequirements := by
  intro r hr
  obtain rfl | ⟨p, hp, hmp⟩ := mem_subnodes_iff.1 hm
  · exact hr
  -- below the top there is no domain whose declared types could count
  · have hneeds := (mem_usedRequirements_of_not_isForm (hn p hp m hmp)).1 hr
    exact Node.mem_usedRequirements.2 (.inl (hneeds.of_mem hm))

/-- The flags that a tree needs are put together from its parts.  If no domain stands below a node,
it needs the flag of the node itself and the flags of its fields, members and contents; a domain
needs `:typing` besides, exactly if it declares types; and a tree needs what the trees inside it
need, so that no flag is lost where it becomes part of a larger one.  All this holds of every node
in the tree of a domain or a problem, because no domain stands below such a node. -/
theorem usedRequirements_of_parts :
    (∀ n : Node, n.IsTopped → ¬n.IsForm .domain → ∀ r, r ∈ n.usedRequirements ↔
      n.requirement? = some r ∨ ∃ p ∈ n.parts, r ∈ p.usedRequirements) ∧
    (∀ n : Node, n.IsTopped → n.IsForm .domain → ∀ r, r ∈ n.usedRequirements ↔
      (n.requirement? = some r ∨ ∃ p ∈ n.parts, r ∈ p.usedRequirements) ∨
        r = .typing ∧ n.declaresTypes = true) ∧
    (∀ d : Domain, (toNode d).declaresTypes = true ↔ d.types.items ≠ []) ∧
    (∀ n : Node, n.IsTopped → ∀ m ∈ n.subnodes, m.usedRequirements ⊆ n.usedRequirements) ∧
    ∀ d : Description, ∀ n ∈ (toNode d).subnodes, n.IsTopped := by
  refine ⟨fun n hn hdomain r => ?_, fun n hn _ r => ?_, fun _ => declaresTypes_toNode,
    fun n hn m => usedRequirements_subset_of_mem hn, fun d n => d.isTopped⟩
  · rw [mem_usedRequirements_of_not_isForm hdomain, hn.needs_iff]
  · rw [Node.mem_usedRequirements, hn.needs_iff]

/-- A domain that declares a type, and whose derived predicate negates its goal: the negation is
kept by the goal, by the domain around it, and the type counts for the domain. -/
theorem usedRequirements_of_parts_domain :
    let goal : Goal := .neg (.conj [])
    let d : Domain := {
      name := ⟨"d", by decide⟩
      types := ⟨[⟨⟨"t", by decide⟩, .object⟩]⟩
      definitions := [.derivedPredicate ⟨⟨⟨"p", by decide⟩, {}⟩, goal⟩] }
    (toNode goal).usedRequirements = [.negativePreconditions] ∧
    (∀ r, r ∈ (toNode goal).usedRequirements ↔ (toNode goal).requirement? = some r ∨
      ∃ p ∈ (toNode goal).parts, r ∈ p.usedRequirements) ∧
    (∀ r, r ∈ (toNode d).usedRequirements ↔ ((toNode d).requirement? = some r ∨
      ∃ p ∈ (toNode d).parts, r ∈ p.usedRequirements) ∨ r = .typing) ∧
    (toNode goal).usedRequirements ⊆ (toNode d).usedRequirements := by
  intro goal d
  obtain ⟨hnode, hdomain, htypes, hsub, htopped⟩ := usedRequirements_of_parts
  have hgoal : toNode goal ∈ (toNode d).subnodes := List.mem_of_getElem? (i := 29) rfl
  have hdeclares : (toNode d).declaresTypes = true := (htypes d).2 (List.cons_ne_nil _ _)
  have hself : (toNode d).IsTopped := htopped (.domain d) _ (mem_subnodes_self _)
  refine ⟨by decide +kernel, hnode _ (htopped (.domain d) _ hgoal) nofun, fun r => ?_,
    hsub _ hself _ hgoal⟩
  simpa [hdeclares] using hdomain _ hself rfl r

end Node

end Pddl
