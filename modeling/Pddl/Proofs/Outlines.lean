import Pddl.Node.Outline
import Pddl.Proofs.ConstructTrees

/-!
# What an outline shows

An outline shows the nodes of a tree in the order of the tree, each once; only the name inside a
symbol is not shown apart from the symbol.  This holds of trees whose forms hold one node for each
of their fields, as the trees of domains and problems do: the outline of a form pairs fields with
names, and would leave out what has no name.

* `Outline.entries` : an outline and everything below it, in the order of its labels.
* `Node.caption`, `Node.inner` : how a node is labelled, and the nodes shown just below it.
* `Outline.Shows` : an entry is labelled for a node and has one child for each node shown below it.
* `Node.outline_shows` : **the entries of an outline show the nodes of the tree, one by one.**
-/

namespace Pddl

/-! ### The entries of an outline -/

namespace Outline

mutual

/-- The outline and everything below it, each outline before those below it. -/
def entries : Outline → List Outline
  | mk label children => mk label children :: allEntries children

/-- The outlines and everything below them. -/
def allEntries : List Outline → List Outline
  | [] => []
  | o :: os => entries o ++ allEntries os

end

theorem entries_eq (o : Outline) : o.entries = o :: o.children.flatMap entries := by
  have hall (os : List Outline) : allEntries os = os.flatMap entries := by
    induction os with
    | nil => rfl
    | cons o os ih => rw [allEntries, ih, List.flatMap_cons]
  cases o
  rw [entries, hall]
  rfl

mutual

/-- The labels of an outline are those of its entries, in their order. -/
theorem labels_eq : ∀ o : Outline, o.labels = o.entries.map label
  | mk _ children => by rw [labels, entries, List.map_cons, allLabels_eq children, label]

theorem allLabels_eq : ∀ os : List Outline, allLabels os = (allEntries os).map label
  | [] => rfl
  | o :: os => by rw [allLabels, allEntries, List.map_append, labels_eq o, allLabels_eq os]

end

end Outline

/-! ### What is shown of a node -/

namespace Node

/-- How the node is labelled: a construct by the name of its class, a sequence by the number of its
members, a leaf by its text. -/
def caption : Node → String
  | form kind _ => kind.title
  | tuple members => toString members.length ++ " item(s)"
  | number x => (number x).typeName
  | n => n.display

/-- The nodes that are shown just below the node: symbols are shown as leaves. -/
def inner : Node → List Node
  | symbol _ => []
  | n => n.parts

/-- The names under which they are shown: fields have one, members have none. -/
def innerNames : Node → List (Option String)
  | form kind _ => kind.fieldNames.map some
  | tuple members => members.map fun _ => none
  | number _ => [some "value"]
  | _ => []

/-- A node together with the name inside it, if it is a symbol. -/
def withName : Node → List Node
  | symbol s => [symbol s, text s.text]
  | n => [n]

variable {m n : Node} {name : Option String}

theorem mem_parts_of_mem_inner (h : m ∈ n.inner) : m ∈ n.parts := by
  cases n with
  | symbol s => cases h
  | _ => exact h

theorem subnodes_eq_withName (n : Node) :
    n.subnodes = n.withName ++ n.inner.flatMap subnodes := by
  cases n with
  | symbol s => rfl
  | _ => exact subnodes_eq _

theorem IsComplete.length_innerNames (h : n.IsComplete) : n.innerNames.length = n.inner.length := by
  cases n with
  | form kind fields =>
    simpa [innerNames, inner, parts, Kind.fieldNames] using Eq.symm h
  | tuple members => simp [innerNames, inner, parts]
  | _ => rfl

theorem label_outline (n : Node) : (n.outline name).label = labelled name n.caption := by
  cases n <;> rfl

theorem fieldOutlines_eq (names : List String) (fields : List Node) :
    fieldOutlines names fields = List.zipWith outline (names.map some) fields := by
  induction names generalizing fields with
  | nil => cases fields <;> rfl
  | cons name names ih =>
    cases fields with
    | nil => rfl
    | cons n ns => rw [fieldOutlines, ih, List.map_cons, List.zipWith_cons_cons]

theorem memberOutlines_eq (members : List Node) :
    memberOutlines members = List.zipWith outline (members.map fun _ => none) members := by
  induction members with
  | nil => rfl
  | cons n ns ih => rw [memberOutlines, ih, List.map_cons, List.zipWith_cons_cons]

/-- Just below the outline of a node are the outlines of the nodes shown below it. -/
theorem children_outline (n : Node) :
    (n.outline name).children = List.zipWith outline n.innerNames n.inner := by
  cases n with
  | form kind fields => exact fieldOutlines_eq _ _
  | tuple members => exact memberOutlines_eq _
  | _ => rfl

end Node

/-! ### The entries show the nodes -/

/-- The entry shows the node: it is labelled for the node, perhaps under the name of a field; its
children are labelled for the nodes just below, each under its own name; and there is one child for
each of them. -/
structure Outline.Shows (o : Outline) (n : Node) : Prop where
  label : ∃ name, o.label = Node.labelled name n.caption
  childLabels : o.children.map Outline.label =
    List.zipWith Node.labelled n.innerNames (n.inner.map Node.caption)
  length_children : o.children.length = n.inner.length

namespace Node

variable {n : Node} {name : Option String}

theorem IsComplete.shows_outline (h : n.IsComplete) : (n.outline name).Shows n := by
  refine ⟨⟨name, label_outline n⟩, ?_, ?_⟩
  · rw [children_outline, List.map_zipWith, List.zipWith_map_right]
    simp only [label_outline]
  · rw [children_outline, List.length_zipWith, h.length_innerNames, min_self]

/-- The nodes that the outlines of several nodes show, from those that each of them shows. -/
theorem exists_shown_of_zipWith {names : List (Option String)} {ns : List Node}
    (hlength : names.length = ns.length)
    (h : ∀ n ∈ ns, ∀ name, ∃ shown, n.subnodes = shown.flatMap withName ∧
      List.Forall₂ Outline.Shows (n.outline name).entries shown) :
    ∃ shown, ns.flatMap subnodes = shown.flatMap withName ∧
      List.Forall₂ Outline.Shows ((List.zipWith outline names ns).flatMap Outline.entries)
        shown := by
  induction ns generalizing names with
  | nil => exact ⟨[], rfl, by simp⟩
  | cons n ns ih =>
    obtain ⟨name, names, rfl⟩ := List.exists_cons_of_length_eq_add_one hlength
    obtain ⟨hn, hns⟩ := List.forall_mem_cons.1 h
    obtain ⟨shown, hsub, hshows⟩ := hn name
    obtain ⟨rest, hsubs, hrest⟩ := ih (Nat.succ.inj hlength) hns
    refine ⟨shown ++ rest, ?_, ?_⟩
    · rw [List.flatMap_cons, List.flatMap_append, hsub, hsubs]
    · rw [List.zipWith_cons_cons, List.flatMap_cons]
      exact List.rel_append hshows hrest

/-- The entries of an outline show the nodes of the tree in their order, and all of them, if only
the names inside symbols are left out. -/
theorem exists_shown (h : n.Everywhere IsComplete) (name : Option String) :
    ∃ shown, n.subnodes = shown.flatMap withName ∧
      List.Forall₂ Outline.Shows (n.outline name).entries shown := by
  induction n using Node.induction generalizing name with
  | step n ih =>
    obtain ⟨hself, hparts⟩ := everywhere_iff.1 h
    have hinner : ∀ p ∈ n.inner, ∀ name, ∃ shown, p.subnodes = shown.flatMap withName ∧
        List.Forall₂ Outline.Shows (p.outline name).entries shown := fun p hp name =>
      ih p (mem_parts_of_mem_inner hp) (hparts p (mem_parts_of_mem_inner hp)) name
    obtain ⟨shown, hsub, hshows⟩ := exists_shown_of_zipWith hself.length_innerNames hinner
    refine ⟨n :: shown, ?_, ?_⟩
    · rw [subnodes_eq_withName, hsub, List.flatMap_cons]
    · rw [Outline.entries_eq, children_outline]
      exact .cons hself.shows_outline hshows

/-- An outline shows every node of the tree once.  The labels are those of its entries; the entries
show one by one the nodes of the tree, in the order of the tree, except that the name inside a
symbol is not shown.  All this holds of every node in the tree of a domain or a problem, because
each form in it holds one node for each field. -/
theorem outline_shows :
    (∀ n : Node, n.Everywhere IsComplete → ∀ name,
      (n.outline name).labels = (n.outline name).entries.map Outline.label ∧
      ∃ shown, n.subnodes = shown.flatMap withName ∧
        List.Forall₂ Outline.Shows (n.outline name).entries shown) ∧
    ∀ d : Description, ∀ n ∈ (toNode d).subnodes, n.Everywhere IsComplete :=
  ⟨fun _ hn name => ⟨Outline.labels_eq _, exists_shown hn name⟩,
    fun d _ hn m hm => d.everywhere_isComplete m (subnodes_trans hm hn)⟩

/-- A constraint with a number, a symbol and a sequence in it. -/
theorem outline_shows_within :
    let c : Constraint := .within .zero (.goal (.atom (.predicate ⟨"p", by decide⟩ [])))
    ((toNode c).outline none).labels =
      ["Within", "deadline: Number", "value: 0.0", "condition: PredicateFormula", "predicate: p",
        "terms: 0 item(s)"] ∧
    ((toNode c).outline none).labels = ((toNode c).outline none).entries.map Outline.label ∧
    ∃ shown, (toNode c).subnodes = shown.flatMap withName ∧
      List.Forall₂ Outline.Shows ((toNode c).outline none).entries shown := by
  intro c
  exact ⟨by decide +kernel,
    outline_shows.1 (toNode c) ((sound c).mono fun _ hm => hm.1) none⟩

end Node

end Pddl
