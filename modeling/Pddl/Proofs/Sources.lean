import Pddl.Proofs.Presence

/-!
# What stands in a text

What a rule finds is made of what its parts find in the same text.

* `Rule.Finds` : somewhere in a text, a rule finds a construct.
* `Rule.Finds.map`, `Rule.Finds.form`, `Rule.Finds.many`, … : the parts of what is found.
* `Rule.Finds.call_induction` : what nonterminals find, level by level.
* `Rule.finds_of_parse` : what is parsed is found.
-/

namespace Pddl

namespace Rule

variable {α β : Type} {text : List Char} {levels : Nat} {g : Rule α} {h : Rule β} {a : α} {b : β}

/-- Somewhere in the text, the rule finds the construct. -/
def Finds (g : Rule α) (text : List Char) (levels : Nat) (a : α) : Prop :=
  ∃ v w : View, v.rest <:+ text ∧ g.look levels v = .found w a

namespace Finds

theorem map {f : α → β} (hb : Finds (f <$> g) text levels b) :
    ∃ a, g.Finds text levels a ∧ f a = b := by
  obtain ⟨v, w, hv, hb⟩ := hb
  obtain ⟨a, ha, rfl⟩ := look_map_eq_found.1 hb
  exact ⟨a, ⟨v, w, hv, ha⟩, rfl⟩

theorem refine {f : α → Except Complaint β} (hb : Finds (.refine f g) text levels b) :
    ∃ a, g.Finds text levels a ∧ f a = .ok b := by
  obtain ⟨v, w, hv, hb⟩ := hb
  obtain ⟨a, ha, hf⟩ := Reader.refine_eq_found.1 hb
  exact ⟨a, ⟨v, w, hv, ha⟩, hf⟩

theorem orElse {g h : Rule α} (ha : Finds (g <|> h) text levels a) :
    g.Finds text levels a ∨ h.Finds text levels a := by
  obtain ⟨v, w, hv, ha⟩ := ha
  exact (look_orElse_eq_found.1 ha).imp (fun ha => ⟨v, w, hv, ha⟩) fun ha => ⟨v, w, hv, ha.2⟩

theorem call {n : Nonterminal α} (ha : Finds (.call n) text levels a) :
    ∃ k, levels = k + 1 ∧ n.production.Finds text k a := by
  obtain ⟨v, w, hv, ha⟩ := ha
  obtain ⟨k, hk, ha⟩ := look_call_eq_found.1 ha
  exact ⟨k, hk, v, w, hv, ha⟩

/-- What a nonterminal finds has a property if what its production finds has it, where all that the
nonterminal finds one level deeper does. -/
theorem call_induction {n : Nonterminal α} {P : α → Prop}
    (step : ∀ levels, (∀ {a}, Finds (.call n) text levels a → P a) →
      ∀ a, n.production.Finds text levels a → P a)
    (ha : Finds (.call n) text levels a) : P a := by
  induction levels generalizing a with
  | zero =>
    obtain ⟨k, hk, -⟩ := ha.call
    omega
  | succ levels ih =>
    obtain ⟨k, hk, ha⟩ := ha.call
    obtain rfl : levels = k := by omega
    exact step levels ih a ha

theorem seq {a : α × β} (h' : Finds (.seq g h) text levels a) :
    g.Finds text levels a.1 ∧ h.Finds text levels a.2 := by
  obtain ⟨v, w, hv, h'⟩ := h'
  obtain ⟨u, ha, hb⟩ := Reader.seq_eq_found.1 h'
  exact ⟨⟨v, u, hv, ha⟩, ⟨u, w, (forward_look g levels ha).trans hv, hb⟩⟩

theorem seqRight (hb : Finds (g *> h) text levels b) : h.Finds text levels b := by
  obtain ⟨ab, hab, rfl⟩ := hb.map
  exact hab.seq.2

theorem seqLeft (ha : Finds (g <* h) text levels a) : g.Finds text levels a := by
  obtain ⟨ab, hab, rfl⟩ := ha.map
  exact hab.seq.1

theorem padded (ha : Finds (Grammar.padded g) text levels a) : g.Finds text levels a :=
  ha.seqLeft.seqRight

theorem parens (ha : Finds (Grammar.parens g) text levels a) : g.Finds text levels a :=
  ha.seqLeft.seqRight.padded

theorem form {w : String} (ha : Finds (Grammar.form w g) text levels a) : g.Finds text levels a :=
  ha.parens.seqRight

theorem separated (ha : Finds (Grammar.separated g) text levels a) : g.Finds text levels a :=
  ha.seqRight

theorem labelled {w : String} (ha : Finds (Grammar.labelled w g) text levels a) :
    g.Finds text levels a := ha.seqRight

theorem pair {ab : α × β} (h' : Finds (Grammar.pair g h) text levels ab) :
    g.Finds text levels ab.1 ∧ h.Finds text levels ab.2 := h'.seq.imp_right separated

theorem headed {ab : α × β} (h' : Finds (Grammar.headed g h) text levels ab) :
    g.Finds text levels ab.1 ∧ h.Finds text levels ab.2 := h'.seq.imp_right seqRight

theorem opt {a? : Option α} (h' : Finds (.opt g) text levels a?) :
    ∀ a ∈ a?, g.Finds text levels a := by
  rintro a rfl
  obtain ⟨v, w, hv, h'⟩ := h'
  obtain ⟨b, hb, hab⟩ | ⟨-, -, hab⟩ := Reader.opt_eq_found.1 h'
  · obtain rfl : a = b := by simpa using hab
    exact ⟨v, w, hv, hb⟩
  · simp at hab

theorem optional {a? : Option α} (h' : Finds (Grammar.optional g) text levels a?) :
    ∀ a ∈ a?, g.Finds text levels a := fun a ha => (h'.opt a ha).separated

theorem emptyOr {a? : Option α} (h' : Finds (.emptyOr g) text levels a?) :
    ∀ a ∈ a?, g.Finds text levels a := by
  rintro a rfl
  obtain ⟨v, w, hv, h'⟩ := h'
  simp only [look, Grammar.denote, Reader.emptyOr] at h'
  split at h'
  · simp at h'
  · obtain ⟨u, b, hb, hab⟩ := Finding.andThen_eq_found.1 h'
    obtain ⟨rfl, rfl⟩ : u = w ∧ b = a := by simpa using hab
    exact ⟨v, u, hv, hb⟩

/-- The elements of what a reader of lists finds. -/
theorem of_more {as : List α} {v w : View} (hv : v.rest <:+ text)
    (h' : Reader.more (g.look levels) v = .found w as) : ∀ a ∈ as, g.Finds text levels a := by
  induction as generalizing v with
  | nil => simp
  | cons a as ih =>
    obtain ⟨h, -⟩ | ⟨b, bs, u, hcons, hb, hmore⟩ := more_eq_found (forward_look g levels) h'
    · simp at h
    · obtain ⟨rfl, rfl⟩ := List.cons.inj hcons
      have hu := (Reader.forward_separated (forward_look g levels) hb).trans hv
      obtain ⟨-, hb⟩ := Reader.separated_eq_found.1 hb
      have ha : g.Finds text levels a := ⟨_, u, v.rest_skipBlanks_suffix.trans hv, hb⟩
      exact List.forall_mem_cons.2 ⟨ha, ih hu hmore⟩

theorem many1 {as : List α} (h' : Finds (Grammar.many1 g) text levels as) :
    as ≠ [] ∧ ∀ a ∈ as, g.Finds text levels a := by
  obtain ⟨⟨a, as⟩, hseq, rfl⟩ := h'.map
  obtain ⟨ha, v, w, hv, hmore⟩ := hseq.seq
  exact ⟨by simp, List.forall_mem_cons.2 ⟨ha, of_more hv hmore⟩⟩

theorem many {as : List α} (h' : Finds (Grammar.many g) text levels as) :
    ∀ a ∈ as, g.Finds text levels a := by
  obtain ⟨as?, hopt, rfl⟩ := h'.map
  rcases as? with _ | as
  · simp
  · exact (hopt.opt as rfl).many1.2

theorem quantified {x : String} {p : TypedList Variable × α}
    (h' : Finds (Grammar.quantified x g) text levels p) :
    Finds Grammar.parameters text levels p.1 ∧ g.Finds text levels p.2 := h'.form.pair

end Finds

/-! ### Typed lists -/

theorem Finds.of_groupsWithin {r : Rule (List α)} {fuel : List Char} {first : Bool} {as : List α}
    {v w : View} (hv : v.rest <:+ text)
    (h' : Reader.groupsWithin (r.look levels) first fuel v = .found w as) :
    ∀ a ∈ as, ∃ bs, r.Finds text levels bs ∧ a ∈ bs := by
  have hgroup : ∀ {first : Bool} {v w : View} {as? : Option (List α)}, v.rest <:+ text →
      Reader.opt (Reader.separatedUnless first (r.look levels)) v = .found w as? →
      w.rest <:+ text ∧ ∀ as ∈ as?, r.Finds text levels as := by
    intro first v w as? hv ho
    have hf : (Reader.separatedUnless first (r.look levels)).Forward :=
      Reader.forward_separatedUnless (forward_look r levels) first
    refine ⟨(Reader.forward_opt hf ho).trans hv, ?_⟩
    rintro as rfl
    have ho : Reader.separatedUnless first (r.look levels) v = .found w as := by
      simpa using Reader.opt_eq_found.1 ho
    cases first with
    | true => exact ⟨v, w, hv, ho⟩
    | false =>
      obtain ⟨-, ho⟩ := Reader.separated_eq_found.1 ho
      exact ⟨_, w, v.rest_skipBlanks_suffix.trans hv, ho⟩
  induction fuel generalizing first v as with
  | nil =>
    obtain ⟨u, as?, hu, hrest⟩ := Finding.andThen_eq_found.1 h'
    obtain ⟨rfl, rfl⟩ := Finding.found.inj hrest
    rcases as? with _ | as
    · simp
    · exact fun a ha => ⟨as, (hgroup hv hu).2 as rfl, ha⟩
  | cons c fuel ih =>
    obtain ⟨u, as?, hu, hrest⟩ := Finding.andThen_eq_found.1 h'
    rcases as? with _ | bs
    · obtain ⟨rfl, rfl⟩ := Finding.found.inj hrest
      simp
    · obtain ⟨x, cs, hx, hrest⟩ := Finding.andThen_eq_found.1 hrest
      obtain ⟨rfl, rfl⟩ := Finding.found.inj hrest
      obtain ⟨hut, hbs⟩ := hgroup hv hu
      intro a ha
      rcases List.mem_append.1 ha with ha | ha
      · exact ⟨bs, hbs bs rfl, ha⟩
      · exact ih hut hx a ha

theorem Finds.of_untypedTail {r : Rule (List α)} {first : Bool} {as : List α} {v w : View}
    (hv : v.rest <:+ text) (h' : Reader.untypedTail first (r.look levels) v = .found w as) :
    as = [] ∨ r.Finds text levels as := by
  obtain ⟨u, as?, hu, hrest⟩ := Finding.andThen_eq_found.1 h'
  rcases as? with _ | bs
  · exact .inl (Finding.found.inj hrest).2.symm
  · obtain ⟨-, rfl⟩ := Finding.found.inj hrest
    have hu : Reader.separatedUnless first (r.look levels) v = .found u bs := by
      simpa using Reader.opt_eq_found.1 hu
    cases first with
    | true => exact .inr ⟨v, u, hv, hu⟩
    | false =>
      obtain ⟨-, hu⟩ := Reader.separated_eq_found.1 hu
      exact .inr ⟨_, u, v.rest_skipBlanks_suffix.trans hv, hu⟩

/-- Every item of a typed list comes from a group or has the type that closes the list. -/
theorem Finds.typedList {d : TypeSpec} {group : Rule (List (Typed α))} {values : Rule (List α)}
    {l : TypedList α} (h' : Finds (.typedList d group values) text levels l) :
    ∀ x ∈ l.items, (∃ xs, group.Finds text levels xs ∧ x ∈ xs) ∨
      x.type = d ∧ ∃ as, values.Finds text levels as ∧ x.value ∈ as := by
  obtain ⟨v, w, hv, h'⟩ := h'
  obtain ⟨u, typed, htyped, hrest⟩ := Finding.andThen_eq_found.1 h'
  obtain ⟨u', untyped, huntyped, hrest⟩ := Finding.andThen_eq_found.1 hrest
  obtain ⟨rfl, rfl⟩ := Finding.found.inj hrest
  have hu : u.rest <:+ text :=
    (Reader.forward_groupsWithin (forward_look group levels) _ _ htyped).trans hv
  intro x hx
  rcases List.mem_append.1 hx with hx | hx
  · exact .inl (of_groupsWithin hv htyped x hx)
  · obtain ⟨a, ha, rfl⟩ := List.mem_map.1 hx
    rcases of_untypedTail hu huntyped with rfl | hvalues
    · simp at ha
    · exact .inr ⟨rfl, untyped, hvalues, ha⟩

/-! ### What is parsed -/

/-- What is parsed stands in the text. -/
theorem finds_of_parse (hg : g.Settled) {c d : Cursor} (hc : c.Calm) (h : g.parse c = .ok (d, a)) :
    g.Finds c.rest (c.ceiling - c.depth) a :=
  ⟨c.view, d.view, List.suffix_refl _, (look_of_parse hg hc h).2⟩

end Rule

end Pddl
