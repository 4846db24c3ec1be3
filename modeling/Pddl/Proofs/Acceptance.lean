import Pddl.Proofs.Groups
import Pddl.Proofs.LongestWords
import Pddl.Proofs.TimedEffects
import Pddl.Proofs.TrajectoryTexts

/-!
# Rules that take what is written

A node that is written as one whole text, and a rule that takes that text wherever it stands.  The rule
may read something else than what was written: a goal that is a conjunction of nothing and a formula
without arguments may share their text.  What is said here is only that the rule takes all of it.

* `Rule.Rereads`, `Rule.RereadsParts` : a rule takes the text of a node, or of several nodes in a row.
* `Rule.rereads_plain`, `Rule.rereads_all`, `Rule.rereads_quantified`, … : how forms are taken, by the
  layouts by which they are written.
* `Rule.Rereads.alternative` : **a rule of forms takes what any of its alternatives takes**, because the
  alternatives in front of it take whole forms or nothing.
-/

namespace Pddl

/-- The alternatives of a rule, by number. -/
def Grammar.alternative? {α : Type} : Rule α → Nat → Option (Rule α)
  | orElse g _, 0 => some g
  | orElse _ h, i + 1 => h.alternative? i
  | g, 0 => some g
  | _, _ => none

namespace Rule

open Grammar

variable {α β : Type} {g : Rule α} {h : Rule β} {n : Node} {ns : List Node} {P : α → Prop}

/-- A word that may stand at the head of a form. -/
structure IsTitle (w : String) : Prop where
  head : IsHead w
  clean : IsClean w.toList

theorem isTitle {w : String}
    (h : IsWord w ∧ (w.toList.all fun c => isPlain c && c != '\r' && !c.isDigit) = true) :
    IsTitle w := ⟨isHead_of_isWord h.1, isClean_of_all h.2⟩

theorem TakesForms.alternative {g' : Rule α} (hg' : g'.TakesForms) {i : Nat}
    (hi : g'.alternative? i = some g) : g.TakesForms := by
  induction g' generalizing i with
  | orElse k k' _ ih =>
    obtain ⟨hk, hk'⟩ := takesForms_or.1 hg'
    cases i with
    | zero => exact Option.some.inj hi ▸ hk
    | succ i => exact ih hk' hi
  | _ =>
    cases i with
    | zero => exact Option.some.inj hi ▸ hg'
    | succ i => cases hi

/-- The node is written as one whole text, and the rule takes it wherever it stands. -/
def Rereads (g : Rule α) (n : Node) : Prop :=
  ∃ s, n.render = .ok (String.ofList s) ∧ IsWhole s ∧ g.Recovers s fun _ => True

/-- The rule takes the texts of the nodes in a row, up to the closing parenthesis. -/
def RereadsParts (g : Rule α) (ns : List Node) : Prop :=
  ∃ ws, List.Forall₂ (fun n w => n.render = .ok (String.ofList w)) ns ws ∧
    (∀ w ∈ ws, IsClean w) ∧ g.ReadsParts [' '] ws fun _ => True

theorem rereads_of_recovers {γ : Type} [ToNode γ] [Spelled γ] {a : γ}
    (hg : g.Recovers (spelling a) P) (hs : IsWhole (spelling a)) : g.Rereads (toNode a) :=
  ⟨_, Spelled.render_toNode a, hs, hg.mono fun _ _ => trivial⟩

namespace Rereads

/-- What is written is the text of the construct. -/
theorem spelling {γ : Type} [ToNode γ] [Spelled γ] {a : γ} (h : g.Rereads (toNode a)) :
    IsWhole (Pddl.spelling a) ∧ g.Recovers (Pddl.spelling a) fun _ => True := by
  obtain ⟨s, ha, hs, hread⟩ := h
  rw [Spelled.render_toNode, Except.ok.injEq, String.ofList_inj] at ha
  exact ha ▸ ⟨hs, hread⟩

theorem map {f : α → β} : g.Rereads n → Rereads (f <$> g) n := fun ⟨s, hn, hs, hg⟩ =>
  ⟨s, hn, hs, hg.map fun _ _ => trivial⟩

theorem call {m : Nonterminal α} : m.production.Rereads n → Rereads (.call m) n :=
  fun ⟨s, hn, hs, hg⟩ => ⟨s, hn, hs, recovers_call hg⟩

theorem left {g' : Rule α} : g.Rereads n → Rereads (g <|> g') n := fun ⟨s, hn, hs, hg⟩ =>
  ⟨s, hn, hs, hg.left⟩

theorem behind {g' : Rule α} (hg' : g'.TakesForms) : g.Rereads n → Rereads (g' <|> g) n :=
  fun ⟨s, hn, hs, hg⟩ => ⟨s, hn, hs, hg'.behind hs hg⟩

/-- **A rule of forms takes what any of its alternatives takes.** -/
theorem alternative {g' : Rule α} (hg' : g'.TakesForms) {i : Nat} (hi : g'.alternative? i = some g)
    (hg : g.Rereads n) : g'.Rereads n := by
  -- what stands in front is of forms too: it takes the whole form or passes it on
  induction g' generalizing i with
  | orElse k k' _ ih =>
    obtain ⟨hk, hk'⟩ := takesForms_or.1 hg'
    cases i with
    | zero =>
      obtain rfl := Option.some.inj hi
      exact hg.left
    | succ i => exact (ih hk' hi hg).behind hk
  | _ =>
    cases i with
    | zero =>
      obtain rfl := Option.some.inj hi
      exact hg
    | succ i => cases hi

/-- A nonterminal of forms takes what any of its alternatives takes. -/
theorem callAlternative {m : Nonterminal α} (i : Nat) (hm : m.opens = true)
    (hi : m.production.alternative? i = some g) (hg : g.Rereads n) : Rereads (.call m) n :=
  (hg.alternative (takesForms_production hm) hi).call

theorem one : g.Rereads n → g.RereadsParts [n] := fun ⟨s, hn, hs, hg⟩ =>
  ⟨[s], .cons hn .nil, by simpa using hs.toIsClean, .one isGap_blank hg⟩

theorem pair (hg : g.Rereads n) (hh : h.RereadsParts ns) :
    RereadsParts (Grammar.pair g h) (n :: ns) := by
  obtain ⟨s, hn, hs, hg⟩ := hg
  obtain ⟨ws, hns, hws, hh⟩ := hh
  exact ⟨s :: ws, .cons hn hns, List.forall_mem_cons.2 ⟨hs.toIsClean, hws⟩,
    (ReadsParts.pair hg hh).mono fun _ _ => trivial⟩

end Rereads

/-- Each of several nodes is taken. -/
theorem exists_texts (h : ∀ n ∈ ns, g.Rereads n) :
    ∃ ws, List.Forall₂ (fun n w => n.render = .ok (String.ofList w)) ns ws ∧
      ∀ w ∈ ws, IsWhole w ∧ g.Recovers w fun _ => True := by
  induction ns with
  | nil => exact ⟨[], .nil, by simp⟩
  | cons n ns ih =>
    obtain ⟨s, hn, hs⟩ := h n (by simp)
    obtain ⟨ws, hns, hws⟩ := ih fun m hm => h m (List.mem_cons_of_mem n hm)
    exact ⟨s :: ws, .cons hn hns, List.forall_mem_cons.2 ⟨hs, hws⟩⟩

/-- Texts that are taken one by one are taken in a row. -/
theorem takesParts_many {gap : List Char} (hgap : IsGap gap) {ws : List (List Char)}
    (hws : ∀ w ∈ ws, g.Recovers w fun _ => True) (hclose : ∀ r, g.Misses (')' :: r)) :
    ReadsParts (many g) gap ws fun _ => True := by
  have h : ReadsParts (many g) gap (ws.map id) fun as => List.Forall₂ (fun _ _ => True) ws as :=
    readsParts_many hgap hws hclose
  rw [List.map_id] at h
  exact h.mono fun _ _ => trivial

/-- Texts that are taken one by one are taken in a row, if there are any. -/
theorem takesParts_many1 {gap : List Char} (hgap : IsGap gap) {ws : List (List Char)} (hne : ws ≠ [])
    (hws : ∀ w ∈ ws, g.Recovers w fun _ => True) (hclose : ∀ r, g.Misses (')' :: r)) :
    ReadsParts (many1 g) gap ws fun _ => True := by
  have h : ReadsParts (many1 g) gap (ws.map id) fun as => List.Forall₂ (fun _ _ => True) ws as :=
    readsParts_many1 hgap hws hne hclose
  rw [List.map_id] at h
  exact h.mono fun _ _ => trivial

theorem rereadsParts_many (h : ∀ n ∈ ns, g.Rereads n) (hclose : ∀ r, g.Misses (')' :: r)) :
    RereadsParts (many g) ns := by
  obtain ⟨ws, hns, hws⟩ := exists_texts h
  exact ⟨ws, hns, fun w hw => (hws w hw).1.toIsClean,
    takesParts_many isGap_blank (fun w hw => (hws w hw).2) hclose⟩

theorem rereadsParts_nil (hclose : ∀ r, g.Misses (')' :: r)) : RereadsParts (many g) [] :=
  rereadsParts_many nofun hclose

theorem rereadsParts_many1 (h : ∀ n ∈ ns, g.Rereads n) (hne : ns ≠ [])
    (hclose : ∀ r, g.Misses (')' :: r)) : RereadsParts (many1 g) ns := by
  obtain ⟨ws, hns, hws⟩ := exists_texts h
  have hwne : ws ≠ [] := by
    rintro rfl
    cases hns
    exact hne rfl
  exact ⟨ws, hns, fun w hw => (hws w hw).1.toIsClean,
    takesParts_many1 isGap_blank hwne (fun w hw => (hws w hw).2) hclose⟩

/-! ### Forms -/

section

variable {k : Kind} {w : String} {fields : List Node} {pieces : List Piece}
  {words : List (List (List Char))}

/-- A form with a fixed head word. -/
theorem rereads_form (hk : k.layout = .form (.word w) pieces) (hw : IsTitle w)
    (hwords : List.Forall₂ (fun p ws =>
      Piece.words (fields.map Node.rendering) p = .ok (ws.map String.ofList)) pieces words)
    (hclean : ∀ p ∈ words.flatten, IsClean p)
    (hg : g.ReadsParts [' '] words.flatten fun _ => True) : Rereads (form w g) (.form k fields) :=
  ⟨_, Node.render_form hk hwords, isWhole_oneLine hw.clean hclean, recovers_form hw.head hg⟩

/-- A form with a fixed head word and all its fields in order. -/
theorem rereads_plain (hk : k.layout = .plain w ns.length) (hw : IsTitle w)
    (hg : g.RereadsParts ns) : Rereads (form w g) (.form k ns) := by
  obtain ⟨ws, hns, hws, hg⟩ := hg
  exact ⟨_, Node.render_plain hk hns, isWhole_oneLine hw.clean hws, recovers_form hw.head hg⟩

/-- A form with a fixed head word and the members of its field. -/
theorem rereads_all (hk : k.layout = .all w) (hw : IsTitle w) (hg : g.RereadsParts ns) :
    Rereads (form w g) (.form k [.tuple ns]) := by
  obtain ⟨ws, hns, hws, hg⟩ := hg
  exact ⟨_, Node.render_members hk hns, isWhole_oneLine hw.clean hws, recovers_form hw.head hg⟩

/-- A form that binds variables. -/
theorem rereads_quantified (hk : k.layout = .quantified w) (hw : IsTitle w)
    {vs : TypedList Variable} (hvs : vs.IsWritable) (hg : g.Rereads n) :
    Rereads (quantified w g) (.form k [toNode vs, n]) := by
  obtain ⟨s, hn, hs, hg⟩ := hg
  have hvars : IsWhole (enclosedItems vs) := isWhole_enclosedItems (fun v => (isWhole_symbol v).toIsClean) vs
  refine ⟨_, Node.render_quantified hk vs hn, isWhole_oneLine hw.clean ?_, ?_⟩
  · simpa using ⟨hvars.toIsClean, hs.toIsClean⟩
  · exact (recovers_form hw.head (.pair (recovers_parameters hvs) (.one isGap_blank hg))).mono
      fun _ _ => trivial

/-- The only node, or else a form of all of them. -/
theorem rereads_loneOr {h : Rule β} (hk : k.layout = .loneOr w)
    (hw : IsTitle w) (hone : ∀ n ∈ ns, h.Rereads n) (hg : g.RereadsParts ns)
    (hform : ∀ {m}, Rereads (form w g) m → h.Rereads m) : h.Rereads (.form k [.tuple ns]) := by
  obtain ⟨ws, hns, hws, hg⟩ := hg
  have hrender := render_loneOr hk hns
  -- only a lone node is written without the form, and then it is taken in its place
  rcases hns with _ | ⟨hn, _ | ⟨hn', hns⟩⟩
  · exact hform ⟨_, hrender, isWhole_oneLine hw.clean hws, recovers_form hw.head hg⟩
  · obtain ⟨s, hs, hwhole, hread⟩ := hone _ (List.mem_singleton_self _)
    rw [hs] at hn
    refine ⟨s, ?_, hwhole, hread⟩
    rw [hrender, hn]
    rfl
  · exact hform ⟨_, hrender, isWhole_oneLine hw.clean hws, recovers_form hw.head hg⟩

/-- What is written as its only field. -/
theorem rereads_self (hk : k.layout = .self) (hg : g.Rereads n) : g.Rereads (.form k [n]) := by
  obtain ⟨s, hn, hs, hg⟩ := hg
  refine ⟨s, ?_, hs, hg⟩
  rw [← hn, Node.render, Node.rendering, Node.renderings_eq_map, hk, Layout.rendering, text_inline]
  rfl

/-- A preference under a name. -/
theorem rereads_namedPreference
    (hk : k.layout = .form (.word "preference") [.given 0, .field 1]) (p : PreferenceName)
    (hg : g.Rereads n) :
    Rereads (form "preference" (pair (symbol .preference) g)) (.form k [toNode (some p), n]) := by
  obtain ⟨s, hn, hs, hg⟩ := hg
  have hname : ∀ n : PreferenceName, toNode n ≠ .absent := by
    rintro n ⟨⟩
  refine rereads_form hk (isTitle (by decide))
    (.cons (words_given (i := 0) rfl hname) (.cons (words_field (i := 1) rfl hn) .nil)) ?_ ?_
  · simpa using ⟨(isWhole_symbol p).toIsClean, hs.toIsClean⟩
  · exact (ReadsParts.pair (recovers_symbol p) (.one isGap_blank hg)).mono fun _ _ => trivial

/-- A preference without a name. -/
theorem rereads_preference
    (hk : k.layout = .form (.word "preference") [.given 0, .field 1]) (hg : g.Rereads n) :
    Rereads (form "preference" g) (.form k [toNode (none : Option PreferenceName), n]) := by
  obtain ⟨s, hn, hs, hg⟩ := hg
  have hname : ∀ n : PreferenceName, toNode n ≠ .absent := by
    rintro n ⟨⟩
  refine rereads_form hk (isTitle (by decide))
    (.cons (words_given (i := 0) rfl hname) (.cons (words_field (i := 1) rfl hn) .nil)) ?_ ?_
  · simpa using hs.toIsClean
  · exact .one isGap_blank hg

/-- An operator and two operands. -/
theorem rereads_operation {ω : Type} [Vocabulary ω] [PlainVocabulary ω] {op : ω} {m : Node}
    (hk : k.layout = .form (.name 0) [.field 1, .field 2])
    (hop : IsClean (Vocabulary.keyword op).toList) (hg : g.RereadsParts [m, n]) :
    Rereads (parens (pair (keyword ω) g)) (.form k [toNode op, m, n]) := by
  obtain ⟨ws, hns, hws, hg⟩ := hg
  rcases hns with _ | ⟨hm, _ | ⟨hn, _ | _⟩⟩
  have hrender := Node.render_form hk
    (.cons (words_field (f := [toNode op, m, n]) (i := 1) rfl hm)
      (.cons (words_field (i := 2) rfl hn) .nil))
  rw [head_keyword (x := op) rfl] at hrender
  exact ⟨_, hrender, isWhole_oneLine hop hws,
    (recovers_pair (recovers_keyword op) hg).mono fun _ _ => trivial⟩

end

end Rule

end Pddl
