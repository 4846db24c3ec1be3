import Pddl.Node.Walk
import Pddl.Proofs.Effects
import Pddl.Proofs.Preconditions

/-!
# Trees in normal form

Some trees can be put together by hand but are never read from a text: preconditions that hold a
conjunction, sums of two numbers written as sums of many, a choice among no types.  A tree is in
normal form if there is no such node in it.  Literals stand only where facts are listed, so that the
trees of all other constructs are plain: in normal form and without a literal.

* `Node.Everywhere` : every node of a tree has a property.
* `Node.IsNormal`, `Node.IsPlain` : nodes of a tree in normal form, and those that are no literal.
* `Plain` : the tree of a construct is plain; `PlainType` : so are the trees of a type.
* `Expression.IsRegular.plain`, `Goal.IsRegular.plain`, `Preconditions.IsRegular.plain`,
  `Effects.IsRegular.plain` : **what a text can hold is plain.**
-/

namespace Pddl

namespace Node

/-! ### What holds everywhere in a tree -/

theorem allSubnodes_eq_flatMap (ns : List Node) : allSubnodes ns = ns.flatMap subnodes := by
  induction ns with
  | nil => rfl
  | cons n ns ih => rw [allSubnodes, ih, List.flatMap_cons]

/-- Every node of the tree has the property. -/
def Everywhere (P : Node → Prop) (n : Node) : Prop := ∀ m ∈ n.subnodes, P m

variable {P Q : Node → Prop} {n : Node}

theorem Everywhere.mono (h : n.Everywhere P) (hPQ : ∀ m, P m → Q m) : n.Everywhere Q :=
  fun m hm => hPQ m (h m hm)

@[simp] theorem everywhere_form {k : Kind} {fields : List Node} :
    (form k fields).Everywhere P ↔ P (form k fields) ∧ ∀ f ∈ fields, f.Everywhere P := by
  simp only [Everywhere, subnodes, allSubnodes_eq_flatMap, List.forall_mem_cons,
    List.forall_mem_flatMap]

@[simp] theorem everywhere_tuple {members : List Node} :
    (tuple members).Everywhere P ↔ P (tuple members) ∧ ∀ m ∈ members, m.Everywhere P := by
  simp only [Everywhere, subnodes, allSubnodes_eq_flatMap, List.forall_mem_cons,
    List.forall_mem_flatMap]

@[simp] theorem everywhere_symbol {kind : SymbolKind} {s : Symbol kind} :
    (symbol s).Everywhere P ↔ P (symbol s) ∧ P (text s.text) := by
  simp [Everywhere, subnodes]

@[simp] theorem everywhere_number {x : Number} :
    (number x).Everywhere P ↔ P (number x) ∧ P (float (.finite x)) := by
  simp [Everywhere, subnodes]

/-! ### Normal form -/

/-- The node is a form of the kind. -/
def IsForm (k : Kind) : Node → Prop
  | form l _ => l = k
  | _ => False

/-- A node of a tree in normal form.  Preconditions hold neither conjunctions nor universal goals,
because these are preconditions of their own; an operation on many operands is a sum or a product of
at least three; a choice among types and the bounds of a duration are not empty; numbers are finite
and not negative; and symbols are names. -/
def IsNormal : Node → Prop
  | form .preconditions fields =>
    ∃ goals, fields = [tuple goals] ∧ ∀ g ∈ goals, ¬g.IsForm .conjunction ∧ ¬g.IsForm .universal
  | form .variadicExpression fields =>
    ∃ title op first rest, fields = [keyword title op, first, tuple rest] ∧
      (op = "+" ∨ op = "*") ∧ 2 ≤ rest.length
  | form .eitherType fields => ∃ types, fields = [tuple types] ∧ types ≠ []
  | form .durationConstraint fields => ∃ bounds, fields = [tuple bounds] ∧ bounds ≠ []
  | number x => x.negative = false
  | float x => ∃ y : Number, x = .finite y ∧ y.negative = false
  | symbol s => isName s.text.toList = true
  | _ => True

/-- A node of a tree in normal form that is no literal. -/
def IsPlain (n : Node) : Prop := n.IsNormal ∧ ¬n.IsForm .literal

end Node

/-- Nothing is asked of forms of this kind themselves. -/
def Kind.isOrdinary : Kind → Bool
  | literal | preconditions | variadicExpression | eitherType | durationConstraint => false
  | _ => true

theorem Node.isPlain_form {k : Kind} (hk : k.isOrdinary = true) (fields : List Node) :
    (form k fields).IsPlain := by
  cases k <;> cases hk <;> exact ⟨trivial, nofun⟩

/-! ### Plain constructs -/

/-- The tree of the construct is plain. -/
def Plain {α : Type} [ToNode α] (a : α) : Prop := (toNode a).Everywhere Node.IsPlain

theorem Plain.normal {α : Type} [ToNode α] {a : α} (h : Plain a) :
    (toNode a).Everywhere Node.IsNormal := h.mono fun _ hn => hn.1

/-- The types whose constructs are all plain. -/
class PlainType (α : Type) [ToNode α] : Prop where
  plain (a : α) : Plain a

export PlainType (plain)

section

open Node

variable {α : Type} [ToNode α]

/-- Forms of ordinary kinds are plain if their fields are. -/
theorem plain_form {k : Kind} {fields : List Node} (hk : k.isOrdinary = true)
    (h : fields.Forall Plain) : Plain (form k fields) :=
  everywhere_form.2 ⟨isPlain_form hk fields, List.forall_iff_forall_mem.1 h⟩

theorem plain_tuple {members : List Node} (h : ∀ m ∈ members, Plain m) : Plain (tuple members) :=
  everywhere_tuple.2 ⟨⟨trivial, nofun⟩, h⟩

theorem plain_list {as : List α} (h : ∀ a ∈ as, Plain a) : Plain as :=
  plain_tuple (List.forall_mem_map.2 h)

theorem plain_nil : Plain ([] : List α) := plain_list (by simp)

/-- A leaf with nothing below it. -/
theorem plain_leaf {n : Node} (hs : n.subnodes = [n]) (hn : n.IsPlain) : Plain n := by
  intro m hm
  have hm : m ∈ n.subnodes := hm
  rw [hs, List.mem_singleton] at hm
  exact hm ▸ hn

theorem plain_absent : Plain Node.absent := plain_leaf rfl ⟨trivial, nofun⟩

theorem plain_some {a : α} (h : Plain a) : Plain (some a) := h

theorem plain_option {a? : Option α} (h : ∀ a ∈ a?, Plain a) : Plain a? := by
  cases a? with
  | none => exact plain_absent
  | some a => exact plain_some (h a rfl)

/-- A part with a default is plain if it is there and plain, or else the default is. -/
theorem plain_getD {a? : Option α} {d : α} (hd : Plain d) (h : ∀ a ∈ a?, Plain a) :
    Plain (a?.getD d) := by
  cases a? with
  | none => exact hd
  | some a => exact h a rfl

theorem plain_number {x : Number} (h : x.negative = false) : Plain x :=
  everywhere_number.2 ⟨⟨h, nofun⟩, ⟨x, rfl, h⟩, nofun⟩

instance {kind : SymbolKind} : PlainType (Symbol kind) :=
  ⟨fun s => everywhere_symbol.2 ⟨⟨s.valid, nofun⟩, trivial, nofun⟩⟩

instance {α : Type} [Vocabulary α] : PlainType α := ⟨fun _ => plain_leaf rfl ⟨trivial, nofun⟩⟩

instance : PlainType Nat := ⟨fun _ => plain_leaf rfl ⟨trivial, nofun⟩⟩

instance [PlainType α] : PlainType (List α) := ⟨fun _ => plain_list fun a _ => plain a⟩

instance [PlainType α] : PlainType (Option α) := ⟨fun _ => plain_option fun a _ => plain a⟩

end

/-! ### Terms and formulas -/

/-- What is done element by element is a map. -/
theorem eq_map_of_cons {α β : Type} {f : List α → List β} {g : α → β} (hnil : f [] = [])
    (hcons : ∀ a as, f (a :: as) = g a :: f as) (as : List α) : f as = as.map g := by
  induction as with
  | nil => exact hnil
  | cons a as ih => rw [hcons, ih, List.map_cons]

/-- A sequence of constructs that become nodes one by one is plain if they are. -/
theorem plain_nodes {α : Type} [ToNode α] {toNodes : List α → List Node} {as : List α}
    (hnil : toNodes [] = []) (hcons : ∀ a as, toNodes (a :: as) = toNode a :: toNodes as)
    (h : ∀ a ∈ as, Plain a) : Plain (Node.tuple (toNodes as)) := by
  rw [eq_map_of_cons hnil hcons]
  exact plain_list h

instance : PlainType Term := by
  refine ⟨fun t => ?_⟩
  induction t using Term.induction with
  | name n => exact plain n
  | var v => exact plain v
  | apply f ts ih => exact plain_form rfl ⟨plain f, plain_nodes rfl (fun _ _ => rfl) ih⟩

instance : PlainType FunctionTerm := ⟨fun t => plain t.toTerm⟩

instance : PlainType GroundTerm := ⟨fun t => plain_form rfl ⟨plain t.symbol, plain t.arguments⟩⟩

instance {τ : Type} [ToNode τ] [PlainType τ] : PlainType (AtomicFormula τ) := by
  refine ⟨fun f => ?_⟩
  cases f with
  | equality l r => exact plain_form rfl ⟨plain l, plain r⟩
  | predicate p ts => exact plain_form rfl ⟨plain p, plain ts⟩

/-- A literal is in normal form. -/
theorem normal_literal (l : Literal Name) : (toNode l).Everywhere Node.IsNormal := by
  refine Node.everywhere_form.2 ⟨trivial, List.forall_mem_cons.2 ⟨(plain l.formula).normal, ?_⟩⟩
  exact List.forall_mem_singleton.2 (Plain.normal (plain_leaf rfl ⟨trivial, nofun⟩))

theorem normal_literals (ls : List (Literal Name)) : (toNode ls).Everywhere Node.IsNormal :=
  Node.everywhere_tuple.2 ⟨trivial, List.forall_mem_map.2 fun l _ => normal_literal l⟩

instance : PlainType Requirements := ⟨fun rs => plain_form rfl (plain rs.declared)⟩

/-! ### Typed lists -/

theorem TypeSpec.IsWritable.plain {t : TypeSpec} (h : t.IsWritable) : Plain t := by
  cases t with
  | exact t => exact plain_form rfl (PlainType.plain t)
  | either ts =>
    refine Node.everywhere_form.2 ⟨⟨⟨_, rfl, ?_⟩, nofun⟩, ?_⟩
    · exact fun hnil => h (List.map_eq_nil_iff.1 hnil)
    · exact List.forall_mem_singleton.2 (PlainType.plain ts)

/-- A writable list of plain values is plain. -/
theorem TypedList.IsWritable.plain_of_values {α : Type} [ToNode α] {l : TypedList α}
    (h : l.IsWritable) (hvalues : ∀ x ∈ l.items, Plain x.value) : Plain l :=
  plain_form rfl <| plain_list fun x hx => plain_form rfl ⟨hvalues x hx, (h x hx).plain⟩

theorem TypedList.IsWritable.plain {α : Type} [ToNode α] [PlainType α] {l : TypedList α}
    (h : l.IsWritable) : Plain l := h.plain_of_values fun x _ => PlainType.plain x.value

theorem plain_noItems {α : Type} [ToNode α] : Plain ({} : TypedList α) :=
  plain_form rfl (plain_nil (α := Typed α))

/-! ### Expressions -/

instance : PlainType Fluent := ⟨fun f => plain_form rfl ⟨plain f.symbol, plain f.arguments⟩⟩

instance : PlainType DurativeReference := by
  refine ⟨fun r => ?_⟩
  cases r with
  | duration => exact (plain_form rfl trivial : Plain (Node.form .durationVariable []))
  | fluent f => exact plain f

instance : PlainType MetricReference := by
  refine ⟨fun r => ?_⟩
  cases r with
  | totalTime => exact (plain_form rfl trivial : Plain (Node.form .totalTime []))
  | violation p => exact plain_form rfl (plain p)
  | function f ns => exact plain_form rfl ⟨plain f, plain ns⟩

section

variable {ρ : Type} [ToNode ρ] {R : ρ → Prop}

/-- The node of an operation on many operands is normal if there are enough of them. -/
theorem Expression.isPlain_variadic (op : VariadicOp) (e : Expression ρ)
    {es : List (Expression ρ)} (hlen : 2 ≤ es.length) : (toNode (variadic op e es)).IsPlain := by
  refine ⟨⟨_, _, _, _, rfl, ?_, ?_⟩, nofun⟩
  · cases op with
    | times => exact .inr rfl
    | plus => exact .inl rfl
  · rwa [Expression.toNodes_eq_map, List.length_map]

/-- **Regular expressions are plain.** -/
theorem Expression.IsRegular.plain [PlainType ρ] {e : Expression ρ} (h : e.IsRegular R) :
    Plain e := by
  induction h with
  | number h => exact plain_number h
  | @reference r _ => exact PlainType.plain r
  | binary op _ _ ihl ihr => exact plain_form rfl ⟨PlainType.plain op, ihl, ihr⟩
  | @variadic op e es _ _ hlen ih ihs =>
    have hfields : [toNode op, toNode e, .tuple (Expression.toNodes es)].Forall Plain :=
      ⟨PlainType.plain op, ih, plain_nodes rfl (fun _ _ => rfl) ihs⟩
    exact Node.everywhere_form.2
      ⟨isPlain_variadic op e hlen, List.forall_iff_forall_mem.1 hfields⟩
  | negative _ ih => exact plain_form rfl ih

end

/-! ### Goals and preconditions -/

theorem Comparison.IsRegular.plain {c : Comparison} (h : c.IsRegular) : Plain c :=
  plain_form rfl ⟨PlainType.plain c.comparator, Expression.IsRegular.plain h.left,
    Expression.IsRegular.plain h.right⟩

/-- **Regular goals are plain.** -/
theorem Goal.IsRegular.plain {g : Goal} (h : g.IsRegular) : Plain g := by
  induction h with
  | equality l r => exact PlainType.plain (AtomicFormula.equality l r)
  | @predicate p ts _ => exact PlainType.plain (AtomicFormula.predicate p ts)
  | conj _ ih => exact plain_form rfl (plain_nodes rfl (fun _ _ => rfl) ih)
  | disj _ ih => exact plain_form rfl (plain_nodes rfl (fun _ _ => rfl) ih)
  | neg _ ih => exact plain_form rfl ih
  | imply _ _ ihp ihc => exact plain_form rfl ⟨ihp, ihc⟩
  | existential hvs _ ih => exact plain_form rfl ⟨hvs.plain, ih⟩
  | universal hvs _ ih => exact plain_form rfl ⟨hvs.plain, ih⟩
  | compare h => exact h.plain

theorem Precondition.toNodes_eq_map (qs : List Precondition) :
    Precondition.toNodes qs = qs.map toNode := eq_map_of_cons rfl (fun _ _ => rfl) qs

/-- A regular precondition is neither a conjunction nor a universal goal. -/
theorem Precondition.IsRegular.not_isForm {q : Precondition} (h : q.IsRegular) :
    ¬(toNode q).IsForm .conjunction ∧ ¬(toNode q).IsForm .universal := by
  cases h with
  | @required g hg hs =>
    cases g with
    | conj gs => exact hs.elim
    | universal vs g => exact hs.elim
    | atom f => cases f <;> exact ⟨nofun, nofun⟩
    | literal l => exact ⟨nofun, nofun⟩
    | _ => exact ⟨nofun, nofun⟩
  | preferred n hg => exact ⟨nofun, nofun⟩
  | universal hvs h => exact ⟨nofun, nofun⟩

/-- A list of regular preconditions is plain if they are. -/
theorem plain_preconditions {qs : List Precondition} (hqs : ∀ q ∈ qs, q.IsRegular)
    (h : ∀ q ∈ qs, Plain q) : Plain (⟨qs⟩ : Preconditions) := by
  refine Node.everywhere_form.2 ⟨⟨⟨_, rfl, ?_⟩, nofun⟩, ?_⟩
  · rw [Precondition.toNodes_eq_map]
    exact List.forall_mem_map.2 fun q hq => (hqs q hq).not_isForm
  · exact List.forall_mem_singleton.2 (plain_nodes rfl (fun _ _ => rfl) h)

theorem Precondition.IsRegular.plain {q : Precondition} (h : q.IsRegular) : Plain q := by
  induction h with
  | required hg _ => exact hg.plain
  | preferred n hg => exact plain_form rfl ⟨PlainType.plain n, hg.plain⟩
  | universal hvs h ih => exact plain_form rfl ⟨hvs.plain, plain_preconditions h ih⟩

/-- **Regular preconditions are plain.** -/
theorem Preconditions.IsRegular.plain {ps : Preconditions} (h : ps.IsRegular) : Plain ps :=
  plain_preconditions h fun q hq => (h q hq).plain

/-! ### Effects -/

theorem PrimitiveEffect.IsRegular.plain {e : PrimitiveEffect} (h : e.IsRegular) : Plain e := by
  cases e with
  | add f => exact plain_form rfl (PlainType.plain f)
  | delete f => exact plain_form rfl (PlainType.plain f)
  | assignNumeric op f e =>
    exact plain_form rfl ⟨PlainType.plain op, PlainType.plain f, Expression.IsRegular.plain h⟩
  | assignObject f t => exact plain_form rfl ⟨PlainType.plain f, PlainType.plain t⟩

theorem Consequent.plain {c : Consequent} (h : ∀ e ∈ c.effects, e.IsRegular) : Plain c :=
  plain_form rfl <| plain_list fun e he => (h e he).plain

theorem plain_effects {es : List Effect} (h : ∀ e ∈ es, Plain e) : Plain (⟨es⟩ : Effects) :=
  plain_form rfl (plain_nodes rfl (fun _ _ => rfl) h)

theorem Effect.IsRegular.plain {e : Effect} (h : e.IsRegular) : Plain e := by
  induction h with
  | primitive he _ => exact he.plain
  | universal hvs _ ih => exact plain_form rfl ⟨hvs.plain, plain_effects ih⟩
  | conditional hg hc => exact plain_form rfl ⟨hg.plain, Consequent.plain hc⟩

/-- **Regular effects are plain.** -/
theorem Effects.IsRegular.plain {es : Effects} (h : es.IsRegular) : Plain es :=
  plain_effects fun e he => (h e he).plain

end Pddl
