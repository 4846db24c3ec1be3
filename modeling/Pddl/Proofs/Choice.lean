import Mathlib.Logic.Relation
import Pddl.Proofs.Presence
import Pddl.Proofs.Remembering

/-!
# Ordered choice hides no reading

Alternatives are tried in a fixed order, and the first that is there is taken.  A later one would
have ended at the same place: where a parenthesis opens, both end at the matching one, and elsewhere
both take the lexeme in front.

* `Grammar.Admits` : one way to read a grammar, whichever alternatives are taken.
* `Grammar.admits_run` : whatever is parsed, is read in one of these ways.
* `Grammar.covers_of_admits`, `Grammar.eq_advance_of_admits` : where a construct ends.
* `Rule.admits_unique` : two constructs at the same place end at the same place.
* `Rule.Choice`, `Grammar.alternatives` : the rules that are an ordered choice, and what they choose
  from.
* `Rule.alternatives_agree` : **any two alternatives that are there take the same characters**, so
  taking the first one makes nothing fail behind it.
-/

namespace Pddl

/-! ### Readings in any order -/

/-- One way to read a grammar takes the first view to the second: any alternative may be taken, any
part may be missing, and a list may end anywhere. -/
def Grammar.Admits {N : Type → Type} (admits : {α : Type} → N α → View → View → Prop) {α : Type} :
    Grammar N α → View → View → Prop
  | terminal t => fun v w => ∃ n a, t.lexeme? v = some (n, a) ∧ w = v.advance n
  | call n => admits n
  | seq g h => fun v w => ∃ u, g.Admits admits v u ∧ h.Admits admits u w
  | refine _ g => g.Admits admits
  | orElse g h => fun v w => g.Admits admits v w ∨ h.Admits admits v w
  | opt g => fun v w => v = w ∨ g.Admits admits v w
  | more g =>
    Relation.ReflTransGen fun v w => v.separates = true ∧ g.Admits admits v.skipBlanks w
  | emptyOr g => fun v w =>
    (∃ n, emptyParensLength? v.rest = some n ∧ w = v.advance n) ∨ g.Admits admits v w
  | typedList _ group values => fun v w => ∃ u,
    Relation.ReflTransGen (fun v w => group.Admits admits v w ∨
      v.separates = true ∧ group.Admits admits v.skipBlanks w) v u ∧
    (u = w ∨ values.Admits admits u w ∨ u.separates = true ∧ values.Admits admits u.skipBlanks w)

/-- One way to read a nonterminal that may be nested in itself on the given number of levels. -/
def Nonterminal.Admits : (levels : Nat) → {α : Type} → Nonterminal α → View → View → Prop
  | 0, _, _ => fun _ _ => False
  | levels + 1, _, n => n.production.Admits (Admits levels)

@[simp] theorem Cursor.view_recovered (c : Cursor) (m : Mismatch) :
    (c.recovered m).view = c.view := by
  unfold recovered
  split
  · rfl
  · split
    · split <;> rfl
    · rfl

/-- Whatever is parsed is read in one of the ways that the relation admits. -/
def Parser.Follows {α : Type} (p : Parser α) (r : View → View → Prop) : Prop :=
  ∀ {c d : Cursor} {a : α}, p c = .ok (d, a) → r c.view d.view

namespace Parser

variable {α : Type} {r s : View → View → Prop}

theorem follows_separated {p : Parser α} (h : Follows p r) :
    Follows (separated p) fun v w => v.separates = true ∧ r v.skipBlanks w := by
  intro c d a ha
  obtain ⟨hc, ha⟩ := separated_eq_ok.1 ha
  exact ⟨hc, c.view_skipBlanks ▸ h ha⟩

theorem follows_separatedUnless {p : Parser α} (h : Follows p r) (first : Bool) :
    Follows (separatedUnless first p) fun v w =>
      r v w ∨ v.separates = true ∧ r v.skipBlanks w := by
  intro c d a ha
  cases first with
  | false => exact .inr (follows_separated h ha)
  | true => exact .inl (h ha)

theorem follows_moreWithin {p : Parser α} (h : Follows p r) (fuel : List Char) :
    Follows (moreWithin p fuel)
      (Relation.ReflTransGen fun v w => v.separates = true ∧ r v.skipBlanks w) := by
  induction fuel with
  | nil =>
    intro c d as has
    obtain ⟨m, -, rfl⟩ | rfl | ⟨u, a, x, fuel, as', hf, -⟩ := moreWithin_eq_ok has
    · rw [Cursor.view_recovered]
    · exact .refl
    · simp at hf
  | cons x fuel ih =>
    intro c d as has
    obtain ⟨m, -, rfl⟩ | rfl | ⟨u, a, x', fuel', as', hf, ha, has⟩ := moreWithin_eq_ok has
    · rw [Cursor.view_recovered]
    · exact .refl
    · obtain ⟨rfl, rfl⟩ := List.cons.inj hf
      exact .head (follows_separated h ha) (ih has)

theorem follows_groupsWithin {p : Parser (List α)} (h : Follows p r) (first : Bool)
    (fuel : List Char) :
    Follows (groupsWithin p first fuel)
      (Relation.ReflTransGen fun v w => r v w ∨ v.separates = true ∧ r v.skipBlanks w) := by
  have hs := fun first => @follows_separatedUnless _ _ _ h first
  induction fuel generalizing first with
  | nil =>
    intro c d as has
    obtain ⟨m, -, rfl⟩ | ⟨bs, hbs⟩ | ⟨u, bs, x, fuel, as', hf, -⟩ := groupsWithin_eq_ok has
    · rw [Cursor.view_recovered]
    · exact .single (hs first hbs)
    · simp at hf
  | cons x fuel ih =>
    intro c d as has
    obtain ⟨m, -, rfl⟩ | ⟨bs, hbs⟩ | ⟨u, bs, x', fuel', as', hf, hbs, has⟩ :=
      groupsWithin_eq_ok has
    · rw [Cursor.view_recovered]
    · exact .single (hs first hbs)
    · obtain ⟨rfl, rfl⟩ := List.cons.inj hf
      exact .head (hs first hbs) (ih _ has)

theorem follows_untypedTail {p : Parser (List α)} (h : Follows p r) (first : Bool) :
    Follows (untypedTail first p) fun v w =>
      v = w ∨ r v w ∨ v.separates = true ∧ r v.skipBlanks w := by
  intro c d as has
  obtain ⟨m, -, rfl⟩ | rfl | has := untypedTail_eq_ok has
  · exact .inl (Cursor.view_recovered ..).symm
  · exact .inl rfl
  · exact .inr (follows_separatedUnless h first has)

end Parser

namespace Grammar

variable {N : Type → Type} {parse : {α : Type} → N α → Parser α}
  {admits : {α : Type} → N α → View → View → Prop} {α : Type}

/-- Whatever is parsed is read in one of the ways that the grammar admits. -/
theorem admits_run (hn : ∀ {α : Type} (n : N α), (parse n).Follows (admits n)) (g : Grammar N α) :
    (g.run parse).Follows (g.Admits admits) := by
  induction g with
  | terminal t =>
    intro c d a h
    obtain ⟨n, hl, rfl⟩ := Parser.terminal_eq_ok.1 h
    exact ⟨n, a, hl, c.view_advance n⟩
  | call n =>
    intro c d a h
    obtain ⟨u, hu, rfl⟩ := Parser.nested_eq_ok h
    have hv := hn n hu
    exact hv
  | seq g h ihg ihh =>
    intro c d ab hab
    obtain ⟨u, hu, hd⟩ := Parser.seq_eq_ok.1 hab
    exact ⟨u.view, ihg hu, ihh hd⟩
  | refine f g ih =>
    intro c d b hb
    obtain ⟨a, ha, -⟩ := Parser.refine_eq_ok.1 hb
    exact ih ha
  | orElse g h ihg ihh =>
    intro c d a ha
    obtain ha | ⟨m, -, -, ha⟩ := Parser.orElse_eq_ok.1 ha
    · exact .inl (ihg ha)
    · exact .inr (ihh ha)
  | opt g ih =>
    intro c d x hx
    obtain ⟨a, ha, -⟩ | ⟨m, -, -, rfl, -⟩ := Parser.opt_eq_ok.1 hx
    · exact .inr (ih ha)
    · exact .inl (Cursor.view_recovered ..).symm
  | more g ih => exact fun h => Parser.follows_moreWithin ih _ h
  | emptyOr g ih =>
    intro c d x hx
    obtain ⟨n, hl, rfl, -⟩ | ⟨-, a, ha, -⟩ := Parser.emptyOr_eq_ok.1 hx
    · exact .inl ⟨n, hl, c.view_advance n⟩
    · exact .inr (ih ha)
  | typedList default group values ihg ihv =>
    intro c d as has
    obtain ⟨u, typed, untyped, hu, hd⟩ := Parser.typedList_eq_ok has
    exact ⟨u.view, Parser.follows_groupsWithin ihg _ _ hu, Parser.follows_untypedTail ihv _ hd⟩

end Grammar

theorem Nonterminal.admits_parse (levels : Nat) {α : Type} (n : Nonterminal α) :
    (n.parse levels).Follows (n.Admits levels) := by
  induction levels generalizing α with
  | zero => exact nofun
  | succ levels ih => exact Grammar.admits_run (fun n => ih n) n.production

/-! ### Where a construct ends -/

/-- Within some open forms, one construct after another is read. -/
theorem Covers.append {outer k : Nat} {v w u : View}
    (h : Covers outer (.within k) (.within k) v w) (h' : Covers outer (.within k) (.within k) w u) :
    Covers outer (.within k) (.within k) v u := h.trans h' nofun nofun

/-- Whichever alternatives are taken, what is read from an opening parenthesis ends at the matching
one, and what is read within some open forms stays within them. -/
theorem Grammar.covers_of_admits {N : Type → Type}
    {admits : {α : Type} → N α → View → View → Prop}
    (hn : ∀ {α : Type} (n : N α) {outer : Nat} {φ ψ : Phase} {v w : View}, φ.token = some ψ →
      Phase.Fits outer φ ψ → admits n v w → Covers outer φ ψ v w)
    {α : Type} (g : Grammar N α) {outer : Nat} {φ ψ : Phase} (hg : g.next φ = some ψ)
    (hfit : Phase.Fits outer φ ψ) {v w : View} (h : g.Admits admits v w) :
    Covers outer φ ψ v w := by
  induction g generalizing φ ψ v w with
  | terminal t =>
    obtain ⟨n, a, hl, rfl⟩ := h
    exact t.covers hg hfit hl
  | call n => exact hn n hg hfit h
  | seq g h' ihg ihh =>
    obtain ⟨χ, hχ, hψ⟩ := Option.bind_eq_some_iff.1 hg
    obtain ⟨u, hu, hw⟩ := h
    have hb : χ ≠ .behind := by rintro rfl; simp [next_behind] at hψ
    have ha : χ ≠ .before := by rintro rfl; exact next_ne_before g φ hχ
    exact .trans (ihg hχ (fun h => hfit (h.imp_right fun h => absurd h hb)) hu)
      (ihh hψ (fun h => hfit (h.imp_left fun h => absurd h ha)) hw) hb ha
  | refine f g ih => exact ih hg hfit h
  | orElse g h' ihg ihh =>
    simp only [next] at hg
    split at hg
    · rename_i heq
      obtain h | h := h
      · exact ihg hg hfit h
      · exact ihh (heq ▸ hg) hfit h
    · simp at hg
  | opt g ih =>
    simp only [next] at hg
    split at hg
    · rename_i heq
      obtain ⟨k, rfl, rfl⟩ := Phase.inner_eq_some.1 hg
      obtain rfl | h := h
      · exact .refl k
      · exact ih heq hfit h
    · simp at hg
  | more g ih =>
    simp only [next] at hg
    split at hg
    · rename_i heq
      obtain ⟨k, rfl, rfl⟩ := Phase.inner_eq_some.1 hg
      induction h with
      | refl => exact .refl k
      | tail _ hu ihm =>
        exact ihm.append (.append .blanks (ih heq hfit hu.2))
    · simp at hg
  | emptyOr g ih =>
    simp only [next] at hg
    split at hg
    · rename_i heq
      obtain ⟨n, hl, rfl⟩ | h := h
      · exact Reader.covers_emptyParens hg hl
      · exact ih (heq.trans hg) hfit h
    · simp at hg
  | typedList default group values ihg ihv =>
    simp only [next] at hg
    split at hg
    · rename_i heq
      obtain ⟨k, rfl, rfl⟩ := Phase.inner_eq_some.1 hg
      obtain ⟨u, hu, hw⟩ := h
      have hgroups : Covers outer (.within k) (.within k) v u := by
        clear hw
        induction hu with
        | refl => exact .refl k
        | tail _ hu ihm =>
          obtain hu | ⟨-, hu⟩ := hu
          · exact ihm.append (ihg heq.1 hfit hu)
          · exact ihm.append (.append .blanks (ihg heq.1 hfit hu))
      obtain rfl | hw | ⟨-, hw⟩ := hw
      · exact hgroups
      · exact hgroups.append (ihv heq.2.1 hfit hw)
      · exact hgroups.append (.append .blanks (ihv heq.2.1 hfit hw))
    · simp at hg

theorem Nonterminal.covers_of_admits (levels : Nat) {α : Type} (n : Nonterminal α) {outer : Nat}
    {φ ψ : Phase} {v w : View} (ht : φ.token = some ψ) (hfit : Phase.Fits outer φ ψ)
    (h : n.Admits levels v w) : Covers outer φ ψ v w := by
  induction levels generalizing α outer φ ψ v w with
  | zero => exact h.elim
  | succ levels ih =>
    cases φ with
    | before =>
      obtain rfl := Option.some.inj ht
      exact Grammar.covers_of_admits ih _ n.next_production_before hfit h
    | within k =>
      obtain rfl := Option.some.inj ht
      exact covers_within.2
        (Grammar.covers_of_admits ih _ n.next_production_within (by simp [Phase.Fits]) h)
    | behind => simp [Phase.token] at ht

/-! ### Atoms -/

/-- The number of characters of the atom in front: a decimal number, or else a character and the
name characters behind it. -/
def atomLength (cs : List Char) : Nat :=
  match decimalParts? cs with
  | some (whole, places) => (decimalLexeme whole places).length
  | none => 1 + (cs.tail.takeWhile isNameChar).length

/-- The characters are one that begins no number, and name characters. -/
def isAtom : List Char → Bool
  | [] => false
  | c :: cs => !c.isDigit && cs.all isNameChar

theorem atomLength_append {x r : List Char} (hx : isAtom x = true)
    (hr : r.head?.any isNameChar = false) : atomLength (x ++ r) = x.length := by
  rcases x with _ | ⟨c, x⟩
  · simp [isAtom] at hx
  · simp only [isAtom, Bool.and_eq_true, Bool.not_eq_true', List.all_eq_true] at hx
    have hd : decimalParts? (c :: (x ++ r)) = none := by simp [decimalParts?, hx.1]
    rw [List.cons_append, atomLength, hd]
    simp only [List.tail_cons, takeWhile_append_of_delimited hx.2 hr, List.length_cons]
    omega

theorem isAtom_symbol {kind : SymbolKind} (s : Symbol kind) :
    isAtom (kind.sigil.toList ++ s.text.toList) = true := by
  have hchars := isNameChar_of_mem_name s.valid
  have hplain : isAtom s.text.toList = true := by
    rcases hl : s.text.toList with _ | ⟨c, cs⟩
    · have hs := s.valid
      simp [hl, isName] at hs
    · have hs := s.valid
      rw [hl] at hs hchars
      simp only [isName, Bool.and_eq_true] at hs
      simp [isAtom, isDigit_eq_false_of_isNameStart hs.1, hs.2]
  cases kind with
  | var => exact List.all_eq_true.2 hchars
  | _ => exact hplain

/-- The word is an atom that runs into no longer name. -/
def IsAtomWord (w : String) : Prop :=
  IsWord w ∧ isAtom w.toList = true ∧ w.toList.getLast?.any isNameChar = true

instance (w : String) : Decidable (IsAtomWord w) := inferInstanceAs (Decidable (_ ∧ _))

/-- Where the terminal finds something, it is the atom in front. -/
def Terminal.isAtom {α : Type} : Terminal α → Bool
  | word w => IsAtomWord w
  | symbol _ => true
  | decimal => true
  | refuse _ => true
  | _ => false

theorem Terminal.eq_atomLength {α : Type} {t : Terminal α} (ht : t.isAtom = true) {v : View}
    {n : Nat} {a : α} (h : t.lexeme? v = some (n, a)) : n = atomLength v.rest := by
  cases t with
  | word w =>
    obtain ⟨hw, hatom, hlast⟩ := of_decide_eq_true ht
    obtain ⟨m, hm, heq⟩ := Option.map_eq_some_iff.1 h
    obtain ⟨rfl, -⟩ := Prod.mk.inj heq
    obtain ⟨hlength, hends⟩ := keywordLength?_eq_some.1 hm
    rw [hw.2] at hlength
    obtain ⟨rest, hrest, ⟨-, rfl⟩ | ⟨hne, -⟩⟩ := wordsLength?_cons.1 hlength
    · rw [hrest] at hends ⊢
      rw [hlast, List.drop_left, Bool.true_and] at hends
      exact (atomLength_append hatom hends).symm
    · exact absurd rfl hne
  | symbol kind =>
    obtain ⟨rest, hrest, rfl, hends⟩ := symbolLexeme?_eq_some h
    rw [hrest, atomLength_append (isAtom_symbol a) hends]
  | decimal =>
    obtain ⟨⟨whole, places⟩, hp, heq⟩ := Option.map_eq_some_iff.1 h
    obtain ⟨rfl, -⟩ := Prod.mk.inj heq
    simp [atomLength, hp]
  | refuse e => simp [lexeme?] at h
  | _ => simp [isAtom] at ht

/-- Where no parenthesis opens, the rule finds nothing but the atom in front. -/
def Grammar.atomic {α : Type} : Rule α → Bool
  | terminal t => t.isAtom
  | call _ => true
  | seq g _ => g.opens
  | refine _ g => g.atomic
  | orElse g h => g.atomic && h.atomic
  | emptyOr g => g.atomic
  | _ => false

theorem Nonterminal.atomic_production {α : Type} (n : Nonterminal α) :
    n.production.atomic = true := by
  cases n <;> decide

/-- What begins with a parenthesis is read nowhere else. -/
theorem Grammar.head?_of_admits {admits : {α : Type} → Nonterminal α → View → View → Prop}
    (hn : ∀ {α : Type} (n : Nonterminal α) {v w : View}, n.opens = true → admits n v w →
      v.rest.head? = some '(')
    {α : Type} {g : Rule α} (hg : g.opens = true) {v w : View} (h : g.Admits admits v w) :
    v.rest.head? = some '(' := by
  induction g generalizing v w with
  | terminal t =>
    obtain ⟨n, a, hl, -⟩ := h
    cases t <;> simp [opens, Terminal.opens] at hg
    · simp [Terminal.lexeme?] at hl
    · subst hg
      simp only [Terminal.lexeme?] at hl
      split at hl
      · assumption
      · simp at hl
  | call n => exact hn n hg h
  | seq g h' ih _ =>
    obtain ⟨u, hu, -⟩ := h
    exact ih hg hu
  | refine f g ih => exact ih hg h
  | orElse g h' ihg ihh =>
    simp only [opens, Bool.and_eq_true] at hg
    exact h.elim (ihg hg.1) (ihh hg.2)
  | _ => simp [opens] at hg

theorem Nonterminal.head?_of_admits (levels : Nat) {α : Type} (n : Nonterminal α) {v w : View}
    (hn : n.opens = true) (h : n.Admits levels v w) : v.rest.head? = some '(' := by
  induction levels generalizing α v w with
  | zero => exact h.elim
  | succ levels ih => exact Grammar.head?_of_admits (fun n => ih n) (n.opens_production hn) h

/-- Where no parenthesis opens, the atom in front is read. -/
theorem Grammar.eq_advance_of_admits
    {admits : {α : Type} → Nonterminal α → View → View → Prop}
    (hopen : ∀ {α : Type} (n : Nonterminal α) {v w : View}, n.opens = true → admits n v w →
      v.rest.head? = some '(')
    (hn : ∀ {α : Type} (n : Nonterminal α) {v w : View}, v.rest.head? ≠ some '(' →
      admits n v w → w = v.advance (atomLength v.rest))
    {α : Type} {g : Rule α} (hg : g.atomic = true) {v w : View} (hv : v.rest.head? ≠ some '(')
    (h : g.Admits admits v w) : w = v.advance (atomLength v.rest) := by
  induction g with
  | terminal t =>
    obtain ⟨n, a, hl, rfl⟩ := h
    rw [Terminal.eq_atomLength hg hl]
  | call n => exact hn n hv h
  | seq g h' _ _ =>
    obtain ⟨u, hu, -⟩ := h
    exact absurd (head?_of_admits hopen hg hu) hv
  | refine f g ih => exact ih hg h
  | orElse g h' ihg ihh =>
    simp only [atomic, Bool.and_eq_true] at hg
    exact h.elim (ihg hg.1) (ihh hg.2)
  | emptyOr g ih =>
    obtain ⟨n, hl, -⟩ | h := h
    · obtain ⟨blanks, rest, hrest, -⟩ := emptyParensLength?_eq_some.1 hl
      exact absurd (by rw [hrest]; rfl) hv
    · exact ih hg h
  | _ => simp [atomic] at hg

theorem Nonterminal.eq_advance_of_admits (levels : Nat) {α : Type} (n : Nonterminal α)
    {v w : View} (hv : v.rest.head? ≠ some '(') (h : n.Admits levels v w) :
    w = v.advance (atomLength v.rest) := by
  induction levels generalizing α v w with
  | zero => exact h.elim
  | succ levels ih =>
    exact Grammar.eq_advance_of_admits (fun n => n.head?_of_admits levels) (fun n => ih n)
      n.atomic_production hv h

namespace Rule

variable {α β : Type} {levels : Nat} {v w w' : View}

/-- One way to read a rule takes the first view to the second. -/
def Admits (levels : Nat) (g : Rule α) : View → View → Prop :=
  Grammar.Admits (Nonterminal.Admits levels) g

theorem admits_of_parse {g : Rule α} {c d : Cursor} {a : α} (h : g.parse c = .ok (d, a)) :
    g.Admits (c.ceiling - c.depth) c.view d.view :=
  Grammar.admits_run (fun n => n.admits_parse _) g h

/-- **Two constructs at the same place end at the same place.** -/
theorem admits_unique {g : Rule α} {h : Rule β} (hg : g.next .before = some .behind)
    (hh : h.next .before = some .behind) (ga : g.atomic = true) (ha : h.atomic = true)
    (hw : g.Admits levels v w) (hw' : h.Admits levels v w') : w = w' := by
  by_cases hv : v.rest.head? = some '('
  · have hu := Grammar.covers_of_admits (fun n _ _ _ _ _ => n.covers_of_admits levels) g hg
      (fun _ => rfl) hw
    have hu' := Grammar.covers_of_admits (fun n _ _ _ _ _ => n.covers_of_admits levels) h hh
      (fun _ => rfl) hw'
    exact hu.eq_of_open hu' hv
  · have hopen := fun {α : Type} (n : Nonterminal α) {v w : View} =>
      n.head?_of_admits levels (v := v) (w := w)
    have hn := fun {α : Type} (n : Nonterminal α) {v w : View} =>
      n.eq_advance_of_admits levels (v := v) (w := w)
    rw [Grammar.eq_advance_of_admits hopen hn ga hv hw,
      Grammar.eq_advance_of_admits hopen hn ha hv hw']

end Rule

/-! ### Ordered choices -/

/-- What a choice chooses from, in its order. -/
def Grammar.alternatives {N : Type → Type} {α : Type} : Grammar N α → List (Grammar N α)
  | orElse g h => g :: h.alternatives
  | emptyOr g => [emptyOr (terminal (.refuse .alternative)), some <$> g]
  | g => [g]

/-- The rules that are an ordered choice. -/
inductive Rule.Choice : {α : Type} → Rule α → Prop where
  /-- What a construct that may be nested is. -/
  | production {α : Type} (n : Nonterminal α) : Choice n.production
  /-- Empty parentheses, or a construct that may be nested. -/
  | emptyOr {α : Type} (n : Nonterminal α) : Choice (Grammar.emptyOr (.call n))
  -- types and formulas
  | type : Choice Grammar.type
  | groundTerm : Choice Rule.groundTerm
  | atomicFormula : Choice Rule.atomicFormula
  | groundAtomicFormula : Choice (Rule.atomicFormulaOf (Grammar.symbol .name))
  | literal : Choice Rule.literal
  | groundLiteral : Choice Rule.groundLiteral
  -- expressions
  | fluent : Choice Rule.fluent
  | rate : Choice Rule.rate
  | scaled : Choice (Prod.snd <$> Grammar.pair Rule.elapsed Rule.expression <|>
      Prod.fst <$> Grammar.pair Rule.expression Rule.elapsed)
  -- goals and conditions
  | preferredGoal : Choice Rule.preferredGoal
  | timedGoal : Choice Rule.timedGoal
  | preferredTimedGoal : Choice Rule.preferredTimedGoal
  -- effects
  | primitiveEffect : Choice Rule.primitiveEffect
  | consequent : Choice Rule.consequent
  | timedEffect : Choice Rule.timedEffect
  -- durations
  | durationValue : Choice Rule.durationValue
  | durationConstraint : Choice Rule.durationConstraint
  | durationBounds : Choice ((fun b => (⟨[b]⟩ : DurationConstraint)) <$> Rule.durationBound <|>
      (fun bs => ⟨bs⟩) <$> Grammar.form "and" (Grammar.many1 Rule.durationBound))
  -- sections
  | initialFact : Choice Rule.initialFact
  | definition : Choice Rule.definition

namespace Rule

variable {α β : Type} {levels : Nat} {v w w' : View}

/-- What holds of a construct that is one of several alternatives. -/
theorem of_mem_alternatives {g h : Rule α} (hh : h ∈ g.alternatives)
    (hg : g.next .before = some .behind) (ga : g.atomic = true) :
    h.next .before = some .behind ∧ h.atomic = true := by
  induction g with
  | orElse g k _ ih =>
    simp only [Grammar.next, Grammar.atomic, Bool.and_eq_true] at hg ga
    split at hg
    · rename_i heq
      obtain rfl | hh := List.mem_cons.1 hh
      · exact ⟨hg, ga.1⟩
      · exact ih hh (heq ▸ hg) ga.2
    · simp at hg
  | emptyOr g _ =>
    simp only [Grammar.next] at hg
    split at hg
    · rename_i heq
      simp only [Grammar.alternatives, List.mem_cons, List.not_mem_nil, or_false] at hh
      obtain rfl | rfl := hh
      · exact ⟨rfl, rfl⟩
      · exact ⟨heq, ga⟩
    · simp at hg
  | _ =>
    obtain rfl := List.mem_singleton.1 hh
    exact ⟨hg, ga⟩

theorem flagFree_of_mem_alternatives {g h : Rule α} (hh : h ∈ g.alternatives)
    (hg : g.FlagFree) : h.FlagFree := by
  induction g with
  | orElse g k _ ih =>
    obtain rfl | hh := List.mem_cons.1 hh
    · exact hg.1
    · exact ih hh hg.2
  | emptyOr g _ =>
    simp only [Grammar.alternatives, List.mem_cons, List.not_mem_nil, or_false] at hh
    obtain rfl | rfl := hh
    · trivial
    · exact Grammar.flagFree_map.2 hg
  | _ =>
    obtain rfl := List.mem_singleton.1 hh
    exact hg

theorem Choice.flagFree {g : Rule α} (hg : Choice g) : g.FlagFree := by
  cases hg with
  | production n => exact flagFree_production n
  | definition => exact flagFree_definition
  | _ => simp [Rule.groundTerm, Rule.atomicFormula, Rule.literal, Rule.groundLiteral, Rule.rate,
      elapsed, Rule.preferredGoal, Rule.timedGoal, Rule.preferredTimedGoal, Rule.durationValue,
      Rule.durationConstraint, durationBound, Rule.initialFact]

/-- No expression begins with the mark of the elapsed time. -/
theorem head?_ne_of_admits_expression (h : expression.Admits levels v w) :
    v.rest.head? ≠ some '#' := by
  intro hv
  have hsymbol : Terminal.symbolLexeme? .function v.rest = none :=
    Terminal.symbolLexeme?_eq_none rfl (by simp [hv, isNameStart])
  have hdecimal : Terminal.decimalLexeme? v.rest = none := by
    obtain ⟨b, _ | ⟨c, cs⟩⟩ := v
    · simp at hv
    · obtain rfl : c = '#' := by simpa using hv
      rfl
  have hopens {α : Type} {g : Rule α} (hg : g.opens = true) {u : View}
      (hu : g.Admits (levels - 1) v u) : False := by
    have := Grammar.head?_of_admits (fun n => n.head?_of_admits (levels - 1)) hg hu
    simp [hv] at this
  cases levels with
  | zero => exact h.elim
  | succ levels =>
    -- a number, an operation, a function by its name, a function applied to terms
    obtain ⟨n, a, hl, -⟩ | h | ⟨n, a, hl, -⟩ | h := h
    · simp [Terminal.lexeme?, hdecimal] at hl
    · exact hopens (g := arithmetic expression) rfl h
    · simp [Terminal.lexeme?, hsymbol] at hl
    · exact hopens (g := Grammar.parens (Grammar.pair (Grammar.symbol .function)
        (Grammar.many term))) rfl h

theorem head?_of_admits_elapsed (h : elapsed.Admits levels v w) : v.rest.head? = some '#' := by
  obtain ⟨n, a, hl, -⟩ := h
  obtain ⟨m, hm, -⟩ := Option.map_eq_some_iff.1 hl
  have hw : IsWord "#t" := by decide
  obtain ⟨rest, hrest, -⟩ := wordsLength?_cons.1 (hw.2 ▸ (keywordLength?_eq_some.1 hm).1)
  rw [hrest]
  rfl

/-- Different alternatives of a choice, read at the same place, end at the same place. -/
theorem Choice.admits_unique {g : Rule α} (hg : Choice g) {h k : Rule α}
    (hh : h ∈ g.alternatives) (hk : k ∈ g.alternatives) (hne : h ≠ k)
    (hw : h.Admits levels v w) (hw' : k.Admits levels v w') : w = w' := by
  have hplain (hn : g.next .before = some .behind) (ga : g.atomic = true) : w = w' := by
    obtain ⟨hhn, hha⟩ := of_mem_alternatives hh hn ga
    obtain ⟨hkn, hka⟩ := of_mem_alternatives hk hn ga
    exact Rule.admits_unique hhn hkn hha hka hw hw'
  cases hg with
  | production n => exact hplain n.next_production_before n.atomic_production
  | emptyOr n => exact hplain rfl rfl
  | scaled =>
    -- of the two orders, one begins with the mark of the elapsed time and the other does not
    have hmark {u u' : View} (hu : elapsed.Admits levels v u)
        (hu' : expression.Admits levels v u') : w = w' :=
      absurd (head?_of_admits_elapsed hu) (head?_ne_of_admits_expression hu')
    obtain rfl | hh := List.mem_cons.1 hh <;> obtain rfl | hk := List.mem_cons.1 hk
    · exact absurd rfl hne
    · obtain rfl := List.mem_singleton.1 hk
      obtain ⟨u, hu, -⟩ := hw
      obtain ⟨u', hu', -⟩ := hw'
      exact hmark hu hu'
    · obtain rfl := List.mem_singleton.1 hh
      obtain ⟨u, hu, -⟩ := hw
      obtain ⟨u', hu', -⟩ := hw'
      exact hmark hu' hu
    · obtain rfl := List.mem_singleton.1 hh
      obtain rfl := List.mem_singleton.1 hk
      exact absurd rfl hne
  | _ => exact hplain (by decide) (by decide)

/-- Where an alternative finds something and none fails for good, the choice finds what some
alternative does. -/
theorem look_of_alternatives {g h : Rule α} (hh : h ∈ g.alternatives)
    (hall : ∀ l ∈ g.alternatives, look levels l v = .missing ∨ ∃ u b, look levels l v = .found u b)
    {a : α} (ha : h.look levels v = .found w a) :
    ∃ l ∈ g.alternatives, ∃ u b, look levels l v = .found u b ∧ g.look levels v = .found u b := by
  induction g with
  | orElse g k _ ih =>
    obtain hg | ⟨u, b, hg⟩ := hall g List.mem_cons_self
    · obtain rfl | hh := List.mem_cons.1 hh
      · simp [hg] at ha
      · obtain ⟨l, hl, u, b, hu, hk⟩ := ih hh (fun l hl => hall l (List.mem_cons_of_mem _ hl)) ha
        exact ⟨l, List.mem_cons_of_mem _ hl, u, b, hu, look_orElse_eq_found.2 (.inr ⟨hg, hk⟩)⟩
    · exact ⟨g, List.mem_cons_self, u, b, hg, look_orElse_eq_found.2 (.inl hg)⟩
  | emptyOr g _ =>
    simp only [Grammar.alternatives, List.mem_cons, List.not_mem_nil, or_false] at hh
    -- the choice does at once what the two alternatives do one after the other
    have heq : look levels (.emptyOr g) v =
        (look levels (.emptyOr (.terminal (.refuse .alternative))) v).orElse
          (look levels (some <$> g) v) := by
      simp only [look, Grammar.denote, Reader.emptyOr, Terminal.lexeme?, Finding.lexeme,
        Functor.map, Reader.refine]
      split <;> rfl
    obtain hg | ⟨u, b, hg⟩ := hall _ List.mem_cons_self
    · obtain rfl | rfl := hh
      · simp [hg] at ha
      · refine ⟨_, List.mem_cons_of_mem _ (List.mem_singleton_self _), w, a, ha, ?_⟩
        rw [heq, hg]
        exact ha
    · refine ⟨_, List.mem_cons_self, u, b, hg, ?_⟩
      rw [heq, hg]
      rfl
  | _ =>
    obtain rfl := List.mem_singleton.1 hh
    exact ⟨_, List.mem_singleton_self _, w, a, ha, ha⟩

end Rule

/-! ### What a choice takes -/

/-- The second cursor is as much further on as fewer characters are left there. -/
def Cursor.Counts (c d : Cursor) : Prop := d.offset + d.rest.length = c.offset + c.rest.length

theorem Cursor.counts_advance {c : Cursor} {n : Nat} (hn : n ≤ c.rest.length) :
    c.Counts (c.advance n) := by
  cases n with
  | zero => rfl
  | succ n =>
    simp only [Counts, advance, List.length_drop]
    omega

theorem Cursor.counts_recovered (c : Cursor) (m : Mismatch) : c.Counts (c.recovered m) := by
  unfold recovered
  split
  · rfl
  · split
    · split <;> rfl
    · rfl

/-- Offsets count the characters that are taken. -/
def Invariant.counting : Invariant where
  step := Cursor.Counts
  fails _ _ := True
  trans h k := Eq.trans k h
  advance := Cursor.counts_advance
  recovered _ := Cursor.counts_recovered _ _
  nested h := h
  behind _ _ := trivial
  inside _ := trivial
  mismatch := trivial
  complaint _ := trivial
  tooDeep := trivial

namespace Rule

variable {α : Type} {g h k : Rule α}

/-- Two cursors with the same view behind what was read at the same cursor have the same offset. -/
theorem offset_eq_of_view_eq {β γ : Type} {g : Rule β} {h : Rule γ} {c d e : Cursor} {a : β} {b : γ}
    (hd : g.parse c = .ok (d, a)) (he : h.parse c = .ok (e, b)) (hv : d.view = e.view) :
    d.offset = e.offset := by
  have h1 := (keeps_parse .counting g).found hd
  have h2 := (keeps_parse .counting h).found he
  have hr : d.rest = e.rest := congrArg View.rest hv
  simp only [Invariant.counting, Cursor.Counts, hr] at h1 h2
  omega

/-- Where a rule without checks of flags gives no other failure than a mismatch, it is missing or
finds something. -/
theorem look_of_parse_mismatch (hg : g.FlagFree) {c : Cursor} (hc : c.Calm)
    (hfail : ∀ e, g.parse c = .error e → ∃ m, e = .mismatch m) :
    g.look (c.ceiling - c.depth) c.view = .missing ∨
      ∃ w a, g.look (c.ceiling - c.depth) c.view = .found w a := by
  rcases (parse_agrees (Grammar.settled_of_flagFree hg) hc).cases with
    ⟨e, he, ho⟩ | ⟨d, a, -, -, ho⟩
  · obtain ⟨m, rfl⟩ := hfail e he
    have hflag := Grammar.flagless_denote (fun n => n.flagless_denote (c.ceiling - c.depth)) g hg
      c.view
    rw [Failure.finding] at ho
    split at ho
    · exact absurd ho hflag
    · exact .inl ho
  · exact .inr ⟨_, _, ho⟩

/-- **Any two alternatives of a choice that are there take the same characters.**  So whatever is
found behind one of them is also found behind the choice, which takes the first one that is there,
unless an alternative fails other than by a mismatch.  The cursor remembers no final mismatch ahead,
as no cursor does on the way through a text. -/
theorem alternatives_agree (hg : Choice g) (hh : h ∈ g.alternatives) (c : Cursor) :
    (∀ k ∈ g.alternatives, ∀ d e a b, h.parse c = .ok (d, a) → parse k c = .ok (e, b) →
      d.offset = e.offset) ∧
    (c.Calm → (∀ k ∈ g.alternatives, ∀ e, parse k c = .error e → ∃ m, e = .mismatch m) →
      ∀ {β : Type} (r : Rule β), r.Settled → ∀ d a b, parse (.seq h r) c = .ok (d, (a, b)) →
        ∃ d' a', parse (.seq g r) c = .ok (d', (a', b)) ∧ d'.offset = d.offset) := by
  have hsame : ∀ k ∈ g.alternatives, ∀ d e a b, h.parse c = .ok (d, a) → parse k c = .ok (e, b) →
      d.view = e.view := by
    intro k hk d e a b hd he
    by_cases hne : h = k
    · subst hne
      rw [hd] at he
      obtain ⟨rfl, -⟩ := Prod.mk.inj (Except.ok.inj he)
      rfl
    · exact hg.admits_unique hh hk hne (admits_of_parse hd) (admits_of_parse he)
  refine ⟨fun k hk d e a b hd he => offset_eq_of_view_eq hd he (hsame k hk d e a b hd he), ?_⟩
  intro hc hfail β r hr d a b hab
  have hsettled : ∀ k ∈ g.alternatives, Grammar.Settled k := fun k hk =>
    Grammar.settled_of_flagFree (flagFree_of_mem_alternatives hk hg.flagFree)
  obtain ⟨-, hlook⟩ := look_of_parse (g := .seq h r) (Grammar.settled_seq.2 ⟨hsettled h hh, hr⟩) hc hab
  obtain ⟨x, hx, hbehind⟩ := Reader.seq_eq_found.1 hlook
  obtain ⟨k, hk, y, a', hy, hgy⟩ := look_of_alternatives hh (fun k hk =>
    look_of_parse_mismatch (flagFree_of_mem_alternatives hk hg.flagFree) hc (hfail k hk)) hx
  obtain ⟨d₁, hd₁, -, rfl⟩ := parse_of_look (hsettled h hh) hc hx
  obtain ⟨d₂, hd₂, -, rfl⟩ := parse_of_look (hsettled k hk) hc hy
  rw [← hsame k hk _ _ _ _ hd₁ hd₂] at hgy
  have hchoice : look (c.ceiling - c.depth) (.seq g r) c.view = .found d.view (a', b) :=
    Reader.seq_eq_found.2 ⟨_, hgy, hbehind⟩
  obtain ⟨d', hd', -, hv⟩ := parse_of_look (g := .seq g r)
    (Grammar.settled_seq.2 ⟨Grammar.settled_of_flagFree hg.flagFree, hr⟩) hc hchoice
  exact ⟨d', a', hd', offset_eq_of_view_eq hd' hab hv⟩

/-- An empty conjunction is a goal and a constraint; as the operand of a modal operator it is read as
a goal, and what stands behind it is read all the same. -/
theorem alternatives_agree_operand :
    Choice operandForms ∧
      (Operand.constraint <$> constraint : Rule Operand) ∈ Grammar.alternatives operandForms ∧
      ∃ d e a b, parse (Operand.constraint <$> constraint) (.ofText "(and))".toList 2) = .ok (d, a) ∧
        parse (Operand.goal <$> goal) (.ofText "(and))".toList 2) = .ok (e, b) ∧
        d.offset = e.offset ∧
        ∃ d' a', parse (.seq operandForms (.terminal (.char ')'))) (.ofText "(and))".toList 2) =
          .ok (d', (a', ())) ∧ d'.offset = 6 := by
  have hg : Choice operandForms := .production .operand
  have hmem : (Operand.constraint <$> constraint : Rule Operand) ∈
      Grammar.alternatives operandForms := List.mem_cons_of_mem _ (List.mem_singleton_self _)
  obtain ⟨d, a, hd, -⟩ := endOf?_eq_some.1 (show endOf? (Operand.constraint <$> constraint)
    (.ofText "(and))".toList 2) = some 5 by decide +kernel)
  obtain ⟨e, b, he, -⟩ := endOf?_eq_some.1 (show endOf? (Operand.goal <$> goal)
    (.ofText "(and))".toList 2) = some 5 by decide +kernel)
  obtain ⟨x, ⟨a', ⟨⟩⟩, hx, hend⟩ := endOf?_eq_some.1 (show endOf?
    (.seq (Operand.constraint <$> constraint) (.terminal (.char ')')))
    (.ofText "(and))".toList 2) = some 6 by decide +kernel)
  obtain ⟨hsame, hbehind⟩ := alternatives_agree hg hmem (.ofText "(and))".toList 2)
  refine ⟨hg, hmem, d, e, a, b, hd, he, hsame _ List.mem_cons_self d e a b hd he, ?_⟩
  rw [← hend]
  refine hbehind nofun (fun k hk f hf => ?_) (.terminal (.char ')')) trivial x a' () hx
  obtain rfl | hk := List.mem_cons.1 hk
  · exact nomatch he.symm.trans hf
  · obtain rfl := List.mem_singleton.1 hk
    exact nomatch hd.symm.trans hf

end Rule

end Pddl
