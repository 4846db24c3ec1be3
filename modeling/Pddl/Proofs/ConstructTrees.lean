import Pddl.Description
import Pddl.Proofs.NormalForm

/-!
# The trees of constructs

A node can be put together by hand in any way.  The trees of the constructs of the language keep two
rules: a form holds one node for each field of its kind, and a domain stands at the top, because no
construct has a field for one.

* `Node.parts` : the nodes just below a node.
* `Node.IsComplete` : a form holds one node for each field of its kind.
* `Node.IsTopped` : no domain stands below the node.
* `Sound`, `SoundType` : the tree of a construct is complete and holds no domain; so are the trees
  of all constructs of a type.
* `Description.everywhere_isComplete`, `Description.isTopped` : **the trees of domains and problems
  keep the two rules.**
-/

namespace Pddl

namespace Node

variable {P : Node → Prop} {l m n : Node}

/-! ### The nodes just below a node -/

/-- The nodes just below a node: the fields of a form, the members of a sequence, the name in a
symbol and the value in a number. -/
def parts : Node → List Node
  | form _ fields => fields
  | tuple members => members
  | symbol s => [text s.text]
  | number x => [float (.finite x)]
  | _ => []

/-- What holds of a node if it holds of the nodes just below it, holds of every node. -/
@[elab_as_elim]
theorem induction {motive : Node → Prop} (step : ∀ n, (∀ p ∈ n.parts, motive p) → motive n)
    (n : Node) : motive n := by
  have hleaf : ∀ n : Node, n.parts = [] → motive n := fun n hn => step n (by simp [hn])
  exact @Node.rec motive (fun ns => ∀ n ∈ ns, motive n) (fun k fields => step (form k fields))
    (fun members => step (tuple members))
    (fun s => step (symbol s) (List.forall_mem_singleton.2 (hleaf _ rfl)))
    (fun x => step (number x) (List.forall_mem_singleton.2 (hleaf _ rfl)))
    (fun _ _ => hleaf _ rfl) (fun _ => hleaf _ rfl) (fun _ => hleaf _ rfl) (fun _ => hleaf _ rfl)
    (fun _ => hleaf _ rfl) (hleaf _ rfl) (List.forall_mem_nil _)
    (fun _ _ hn hns => List.forall_mem_cons.2 ⟨hn, hns⟩) n

/-- A tree is its root and the trees just below. -/
theorem subnodes_eq (n : Node) : n.subnodes = n :: n.parts.flatMap subnodes := by
  cases n <;> simp [subnodes, parts, allSubnodes_eq_flatMap]

theorem mem_subnodes_iff : m ∈ n.subnodes ↔ m = n ∨ ∃ p ∈ n.parts, m ∈ p.subnodes := by
  rw [subnodes_eq, List.mem_cons, List.mem_flatMap]

theorem everywhere_iff : n.Everywhere P ↔ P n ∧ ∀ p ∈ n.parts, p.Everywhere P := by
  simp only [Everywhere, subnodes_eq n, List.forall_mem_cons, List.forall_mem_flatMap]

/-- A tree inside a tree is a part of it as a whole. -/
theorem subnodes_trans (hl : l ∈ m.subnodes) (hm : m ∈ n.subnodes) : l ∈ n.subnodes := by
  induction n using Node.induction with
  | step n ih =>
    obtain rfl | ⟨p, hp, hmp⟩ := mem_subnodes_iff.1 hm
    · exact hl
    · exact mem_subnodes_iff.2 (.inr ⟨p, hp, ih p hp hmp⟩)

/-! ### Rules for trees -/

/-- A form holds one node for each field of its kind. -/
def IsComplete : Node → Prop
  | form k fields => fields.length = k.schema.length
  | _ => True

/-- No domain stands below the node. -/
def IsTopped (n : Node) : Prop := ∀ p ∈ n.parts, p.Everywhere fun m => ¬m.IsForm .domain

/-- Below a node without domains below it there is none either. -/
theorem IsTopped.of_mem (hn : n.IsTopped) (hm : m ∈ n.subnodes) : m.IsTopped := by
  intro q hq l hl
  obtain rfl | ⟨p, hp, hmp⟩ := mem_subnodes_iff.1 hm
  · exact hn q hq l hl
  · exact hn p hp l (subnodes_trans (mem_subnodes_iff.2 (.inr ⟨q, hq, hl⟩)) hmp)

/-- The node keeps the rules for what stands below a domain or a problem. -/
def IsSound (n : Node) : Prop := n.IsComplete ∧ ¬n.IsForm .domain

end Node

/-! ### Sound constructs -/

/-- The tree of the construct is complete and holds no domain. -/
def Sound {α : Type} [ToNode α] (a : α) : Prop := (toNode a).Everywhere Node.IsSound

/-- The types whose constructs are all sound. -/
class SoundType (α : Type) [ToNode α] : Prop where
  sound (a : α) : Sound a

export SoundType (sound)

section

open Node

variable {α : Type} [ToNode α]

theorem sound_form {k : Kind} {fields : List Node} (hk : (form k fields).IsSound)
    (h : fields.Forall Sound) : Sound (form k fields) :=
  everywhere_form.2 ⟨hk, List.forall_iff_forall_mem.1 h⟩

theorem sound_list {as : List α} (h : ∀ a ∈ as, Sound a) : Sound as :=
  everywhere_tuple.2 ⟨⟨trivial, nofun⟩, List.forall_mem_map.2 h⟩

/-- A sequence of constructs that become nodes one by one is sound if they are. -/
theorem sound_nodes {toNodes : List α → List Node} {as : List α} (hnil : toNodes [] = [])
    (hcons : ∀ a as, toNodes (a :: as) = toNode a :: toNodes as) (h : ∀ a ∈ as, Sound a) :
    Sound (Node.tuple (toNodes as)) := by
  rw [eq_map_of_cons hnil hcons]
  exact sound_list h

/-- A leaf with nothing below it. -/
theorem sound_leaf {n : Node} (hs : n.subnodes = [n]) (hn : n.IsSound) : Sound n := by
  intro m hm
  have hm : m ∈ n.subnodes := hm
  rw [hs, List.mem_singleton] at hm
  exact hm ▸ hn

instance {kind : SymbolKind} : SoundType (Symbol kind) :=
  ⟨fun _ => everywhere_symbol.2 ⟨⟨trivial, nofun⟩, trivial, nofun⟩⟩

instance : SoundType Number := ⟨fun _ => everywhere_number.2 ⟨⟨trivial, nofun⟩, trivial, nofun⟩⟩

instance : SoundType Bool := ⟨fun _ => sound_leaf rfl ⟨trivial, nofun⟩⟩

instance : SoundType Nat := ⟨fun _ => sound_leaf rfl ⟨trivial, nofun⟩⟩

instance {α : Type} [Vocabulary α] : SoundType α := ⟨fun _ => sound_leaf rfl ⟨trivial, nofun⟩⟩

instance [SoundType α] : SoundType (List α) := ⟨fun _ => sound_list fun a _ => sound a⟩

instance [SoundType α] : SoundType (Option α) := by
  refine ⟨fun a? => ?_⟩
  cases a? with
  | none => exact (sound_leaf rfl ⟨trivial, nofun⟩ : Sound Node.absent)
  | some a => exact sound a

instance : SoundType Requirements := ⟨fun rs => sound_form ⟨rfl, nofun⟩ (sound rs.declared)⟩

end

/-! ### Types, terms and formulas -/

instance : SoundType TypeSpec := by
  refine ⟨fun t => ?_⟩
  cases t with
  | exact t => exact sound_form ⟨rfl, nofun⟩ (sound t)
  | either ts => exact sound_form ⟨rfl, nofun⟩ (sound ts)

section

variable {α : Type} [ToNode α] [SoundType α]

instance : SoundType (Typed α) := ⟨fun x => sound_form ⟨rfl, nofun⟩ ⟨sound x.value, sound x.type⟩⟩

instance : SoundType (TypedList α) := ⟨fun l => sound_form ⟨rfl, nofun⟩ (sound l.items)⟩

end

instance : SoundType Term := by
  refine ⟨fun t => ?_⟩
  induction t using Term.induction with
  | name n => exact sound n
  | var v => exact sound v
  | apply f ts ih => exact sound_form ⟨rfl, nofun⟩ ⟨sound f, sound_nodes rfl (fun _ _ => rfl) ih⟩

instance : SoundType FunctionTerm := ⟨fun t => sound t.toTerm⟩

instance : SoundType GroundTerm :=
  ⟨fun t => sound_form ⟨rfl, nofun⟩ ⟨sound t.symbol, sound t.arguments⟩⟩

section

variable {τ : Type} [ToNode τ] [SoundType τ]

instance : SoundType (AtomicFormula τ) := by
  refine ⟨fun f => ?_⟩
  cases f with
  | equality l r => exact sound_form ⟨rfl, nofun⟩ ⟨sound l, sound r⟩
  | predicate p ts => exact sound_form ⟨rfl, nofun⟩ ⟨sound p, sound ts⟩

instance : SoundType (Literal τ) :=
  ⟨fun l => sound_form ⟨rfl, nofun⟩ ⟨sound l.formula, sound l.negated⟩⟩

end

instance : SoundType PredicateSkeleton :=
  ⟨fun s => sound_form ⟨rfl, nofun⟩ ⟨sound s.symbol, sound s.parameters⟩⟩

instance : SoundType FunctionSkeleton :=
  ⟨fun s => sound_form ⟨rfl, nofun⟩ ⟨sound s.symbol, sound s.parameters⟩⟩

/-! ### Expressions -/

instance : SoundType Fluent :=
  ⟨fun f => sound_form ⟨rfl, nofun⟩ ⟨sound f.symbol, sound f.arguments⟩⟩

instance : SoundType DurativeReference := by
  refine ⟨fun r => ?_⟩
  cases r with
  | duration => exact (sound_form ⟨rfl, nofun⟩ trivial : Sound (Node.form .durationVariable []))
  | fluent f => exact sound f

instance : SoundType MetricReference := by
  refine ⟨fun r => ?_⟩
  cases r with
  | totalTime => exact (sound_form ⟨rfl, nofun⟩ trivial : Sound (Node.form .totalTime []))
  | violation p => exact sound_form ⟨rfl, nofun⟩ (sound p)
  | function f ns => exact sound_form ⟨rfl, nofun⟩ ⟨sound f, sound ns⟩

section

variable {ρ : Type} [ToNode ρ]

mutual

theorem Expression.isSound [SoundType ρ] : ∀ e : Expression ρ, Sound e
  | .number x => sound x
  | .reference r => sound r
  | .binary op l r => sound_form ⟨rfl, nofun⟩ ⟨sound op, l.isSound, r.isSound⟩
  | .variadic op e es => sound_form ⟨rfl, nofun⟩
      ⟨sound op, e.isSound, sound_nodes rfl (fun _ _ => rfl) (Expression.areSound es)⟩
  | .negative e => sound_form ⟨rfl, nofun⟩ e.isSound

theorem Expression.areSound [SoundType ρ] : ∀ es : List (Expression ρ), ∀ e ∈ es, Sound e
  | [] => List.forall_mem_nil _
  | e :: es => List.forall_mem_cons.2 ⟨e.isSound, Expression.areSound es⟩

end

instance [SoundType ρ] : SoundType (Expression ρ) := ⟨Expression.isSound⟩

end

instance : SoundType Comparison :=
  ⟨fun c => sound_form ⟨rfl, nofun⟩ ⟨sound c.comparator, sound c.left, sound c.right⟩⟩

instance : SoundType Rate := ⟨fun r => sound_form ⟨rfl, nofun⟩ (sound r.scale)⟩

instance : SoundType DurativeAssignment :=
  ⟨fun a => sound_form ⟨rfl, nofun⟩ ⟨sound a.op, sound a.fluent, sound a.value⟩⟩

/-! ### Goals, preconditions and conditions -/

mutual

theorem Goal.isSound : ∀ g : Goal, Sound g
  | .atom f => sound f
  | .literal l => sound l
  | .conj gs | .disj gs =>
    sound_form ⟨rfl, nofun⟩ (sound_nodes rfl (fun _ _ => rfl) (Goal.areSound gs))
  | .neg g => sound_form ⟨rfl, nofun⟩ g.isSound
  | .imply p c => sound_form ⟨rfl, nofun⟩ ⟨p.isSound, c.isSound⟩
  | .existential vs g | .universal vs g => sound_form ⟨rfl, nofun⟩ ⟨sound vs, g.isSound⟩
  | .compare c => sound c

theorem Goal.areSound : ∀ gs : List Goal, ∀ g ∈ gs, Sound g
  | [] => List.forall_mem_nil _
  | g :: gs => List.forall_mem_cons.2 ⟨g.isSound, Goal.areSound gs⟩

end

instance : SoundType Goal := ⟨Goal.isSound⟩

instance : SoundType PreferredGoal := by
  refine ⟨fun g => ?_⟩
  cases g with
  | required g => exact sound g
  | preferred n g => exact sound_form ⟨rfl, nofun⟩ ⟨sound n, sound g⟩

/-- A list of preconditions is sound if they are. -/
theorem sound_preconditions {qs : List Precondition} (h : ∀ q ∈ qs, Sound q) :
    Sound (⟨qs⟩ : Preconditions) :=
  sound_form ⟨rfl, nofun⟩ (sound_nodes rfl (fun _ _ => rfl) h)

mutual

theorem Precondition.isSound : ∀ q : Precondition, Sound q
  | .goal g => sound g
  | .universal vs qs =>
    sound_form ⟨rfl, nofun⟩ ⟨sound vs, sound_preconditions (Precondition.areSound qs)⟩

theorem Precondition.areSound : ∀ qs : List Precondition, ∀ q ∈ qs, Sound q
  | [] => List.forall_mem_nil _
  | q :: qs => List.forall_mem_cons.2 ⟨q.isSound, Precondition.areSound qs⟩

end

instance : SoundType Preconditions :=
  ⟨fun _ => sound_preconditions fun q _ => q.isSound⟩

instance : SoundType TimedGoal := by
  refine ⟨fun g => ?_⟩
  cases g with
  | «at» t g => exact sound_form ⟨rfl, nofun⟩ ⟨sound t, sound g⟩
  | «over» i g => exact sound_form ⟨rfl, nofun⟩ ⟨sound i, sound g⟩

instance : SoundType PreferredTimedGoal := by
  refine ⟨fun g => ?_⟩
  cases g with
  | required g => exact sound g
  | preferred n g => exact sound_form ⟨rfl, nofun⟩ ⟨sound n, sound g⟩

mutual

theorem Condition.isSound : ∀ c : Condition, Sound c
  | .goal g => sound g
  | .conj cs => sound_form ⟨rfl, nofun⟩ (sound_nodes rfl (fun _ _ => rfl) (Condition.areSound cs))
  | .universal vs c => sound_form ⟨rfl, nofun⟩ ⟨sound vs, c.isSound⟩

theorem Condition.areSound : ∀ cs : List Condition, ∀ c ∈ cs, Sound c
  | [] => List.forall_mem_nil _
  | c :: cs => List.forall_mem_cons.2 ⟨c.isSound, Condition.areSound cs⟩

end

instance : SoundType Condition := ⟨Condition.isSound⟩

/-! ### Effects -/

instance : SoundType PrimitiveEffect := by
  refine ⟨fun e => ?_⟩
  cases e with
  | add f => exact sound_form ⟨rfl, nofun⟩ (sound f)
  | delete f => exact sound_form ⟨rfl, nofun⟩ (sound f)
  | assignNumeric op f e => exact sound_form ⟨rfl, nofun⟩ ⟨sound op, sound f, sound e⟩
  | assignObject f t => exact sound_form ⟨rfl, nofun⟩ ⟨sound f, sound t⟩

instance : SoundType Consequent := ⟨fun c => sound_form ⟨rfl, nofun⟩ (sound c.effects)⟩

/-- A list of effects is sound if they are. -/
theorem sound_effects {es : List Effect} (h : ∀ e ∈ es, Sound e) : Sound (⟨es⟩ : Effects) :=
  sound_form ⟨rfl, nofun⟩ (sound_nodes rfl (fun _ _ => rfl) h)

mutual

theorem Effect.isSound : ∀ e : Effect, Sound e
  | .primitive e => sound e
  | .universal vs es => sound_form ⟨rfl, nofun⟩ ⟨sound vs, sound_effects (Effect.areSound es)⟩
  | .conditional g c => sound_form ⟨rfl, nofun⟩ ⟨sound g, sound c⟩

theorem Effect.areSound : ∀ es : List Effect, ∀ e ∈ es, Sound e
  | [] => List.forall_mem_nil _
  | e :: es => List.forall_mem_cons.2 ⟨e.isSound, Effect.areSound es⟩

end

instance : SoundType Effects := ⟨fun _ => sound_effects fun e _ => e.isSound⟩

instance : SoundType TimedEffect := by
  refine ⟨fun e => ?_⟩
  cases e with
  | «at» t c => exact sound_form ⟨rfl, nofun⟩ ⟨sound t, sound c⟩
  | assignAt t a => exact sound_form ⟨rfl, nofun⟩ ⟨sound t, sound a⟩
  | continuous op f r => exact sound_form ⟨rfl, nofun⟩ ⟨sound op, sound f, sound r⟩

mutual

theorem DurativeEffect.isSound : ∀ e : DurativeEffect, Sound e
  | .timed e => sound e
  | .conj es =>
    sound_form ⟨rfl, nofun⟩ (sound_nodes rfl (fun _ _ => rfl) (DurativeEffect.areSound es))
  | .universal vs e => sound_form ⟨rfl, nofun⟩ ⟨sound vs, e.isSound⟩
  | .conditional c e => sound_form ⟨rfl, nofun⟩ ⟨sound c, sound e⟩

theorem DurativeEffect.areSound : ∀ es : List DurativeEffect, ∀ e ∈ es, Sound e
  | [] => List.forall_mem_nil _
  | e :: es => List.forall_mem_cons.2 ⟨e.isSound, DurativeEffect.areSound es⟩

end

instance : SoundType DurativeEffect := ⟨DurativeEffect.isSound⟩

/-! ### Durations and trajectories -/

instance : SoundType DurationBound := by
  refine ⟨fun b => ?_⟩
  induction b with
  | compare c e => exact sound_form ⟨rfl, nofun⟩ ⟨sound c, sound e⟩
  | «at» t b ih => exact sound_form ⟨rfl, nofun⟩ ⟨sound t, ih⟩

instance : SoundType DurationConstraint := ⟨fun c => sound_form ⟨rfl, nofun⟩ (sound c.bounds)⟩

mutual

theorem Constraint.isSound : ∀ c : Constraint, Sound c
  | .conj cs => sound_form ⟨rfl, nofun⟩ (sound_nodes rfl (fun _ _ => rfl) (Constraint.areSound cs))
  | .universal vs c => sound_form ⟨rfl, nofun⟩ ⟨sound vs, c.isSound⟩
  | .atEnd g => sound_form ⟨rfl, nofun⟩ (sound g)
  | .always o | .sometime o | .atMostOnce o => sound_form ⟨rfl, nofun⟩ o.isSound
  | .sometimeAfter o p | .sometimeBefore o p => sound_form ⟨rfl, nofun⟩ ⟨o.isSound, p.isSound⟩
  | .within x o | .holdAfter x o => sound_form ⟨rfl, nofun⟩ ⟨sound x, o.isSound⟩
  | .alwaysWithin x o p => sound_form ⟨rfl, nofun⟩ ⟨sound x, o.isSound, p.isSound⟩
  | .holdDuring x y o => sound_form ⟨rfl, nofun⟩ ⟨sound x, sound y, o.isSound⟩

theorem Operand.isSound : ∀ o : Operand, Sound o
  | .goal g => sound g
  | .constraint c => c.isSound

theorem Constraint.areSound : ∀ cs : List Constraint, ∀ c ∈ cs, Sound c
  | [] => List.forall_mem_nil _
  | c :: cs => List.forall_mem_cons.2 ⟨c.isSound, Constraint.areSound cs⟩

end

instance : SoundType Constraint := ⟨Constraint.isSound⟩

mutual

theorem PreferredConstraint.isSound : ∀ c : PreferredConstraint, Sound c
  | .required c => sound c
  | .conj cs =>
    sound_form ⟨rfl, nofun⟩ (sound_nodes rfl (fun _ _ => rfl) (PreferredConstraint.areSound cs))
  | .universal vs c => sound_form ⟨rfl, nofun⟩ ⟨sound vs, c.isSound⟩
  | .preferred n c => sound_form ⟨rfl, nofun⟩ ⟨sound n, sound c⟩

theorem PreferredConstraint.areSound : ∀ cs : List PreferredConstraint, ∀ c ∈ cs, Sound c
  | [] => List.forall_mem_nil _
  | c :: cs => List.forall_mem_cons.2 ⟨c.isSound, PreferredConstraint.areSound cs⟩

end

instance : SoundType PreferredConstraint := ⟨PreferredConstraint.isSound⟩

/-! ### Definitions, domains and problems -/

instance : SoundType Action := ⟨fun a => sound_form ⟨rfl, nofun⟩
  ⟨sound a.symbol, sound a.parameters, sound a.precondition, sound a.effect⟩⟩

instance : SoundType DurativeAction := ⟨fun a => sound_form ⟨rfl, nofun⟩
  ⟨sound a.symbol, sound a.parameters, sound a.duration, sound a.condition, sound a.effect⟩⟩

instance : SoundType DerivedPredicate :=
  ⟨fun d => sound_form ⟨rfl, nofun⟩ ⟨sound d.predicate, sound d.goal⟩⟩

instance : SoundType Definition := by
  refine ⟨fun d => ?_⟩
  cases d with
  | action a => exact sound a
  | durativeAction a => exact sound a
  | derivedPredicate d => exact sound d

instance : SoundType InitialFact := by
  refine ⟨fun f => ?_⟩
  cases f with
  | literal l => exact sound l
  | timed x l => exact sound_form ⟨rfl, nofun⟩ ⟨sound x, sound l⟩
  | numeric t x => exact sound_form ⟨rfl, nofun⟩ ⟨sound t, sound x⟩
  | object t n => exact sound_form ⟨rfl, nofun⟩ ⟨sound t, sound n⟩

instance : SoundType Metric :=
  ⟨fun m => sound_form ⟨rfl, nofun⟩ ⟨sound m.optimization, sound m.expression⟩⟩

instance : SoundType LengthBounds :=
  ⟨fun l => sound_form ⟨rfl, nofun⟩ ⟨sound l.serial, sound l.parallel⟩⟩

instance : SoundType Problem := ⟨fun p => sound_form ⟨rfl, nofun⟩
  ⟨sound p.name, sound p.domain, sound p.requirements, sound p.objects, sound p.init, sound p.goal,
    sound p.constraints, sound p.metric, sound p.length⟩⟩

/-- The sections of a domain are sound; the domain itself is complete, but it is a domain. -/
theorem Domain.sound_parts (d : Domain) : ∀ p ∈ (toNode d).parts, p.Everywhere Node.IsSound := by
  have h : (toNode d).parts.Forall Sound :=
    ⟨sound d.name, sound d.parents, sound d.requirements, sound d.types, sound d.constants,
      sound d.predicates, sound d.timeless, sound d.functions, sound d.constraints,
      sound d.definitions⟩
  exact List.forall_iff_forall_mem.1 h

namespace Description

theorem sound_parts (d : Description) : ∀ p ∈ (toNode d).parts, p.Everywhere Node.IsSound := by
  cases d with
  | domain d => exact d.sound_parts
  | problem p => exact (Node.everywhere_iff.1 (sound p)).2

/-- Every form in the tree of a description holds one node for each field of its kind. -/
theorem everywhere_isComplete (d : Description) : (toNode d).Everywhere Node.IsComplete := by
  have hroot : (toNode d).IsComplete := by cases d <;> rfl
  exact Node.everywhere_iff.2 ⟨hroot, fun p hp => (d.sound_parts p hp).mono fun _ hm => hm.1⟩

/-- No domain stands below a node of the tree of a description. -/
theorem isTopped (d : Description) {n : Node} (hn : n ∈ (toNode d).subnodes) : n.IsTopped := by
  have hroot : (toNode d).IsTopped := fun p hp => (d.sound_parts p hp).mono fun _ hm => hm.2
  exact hroot.of_mem hn

end Description

end Pddl
