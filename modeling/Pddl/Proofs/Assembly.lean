import Mathlib.Data.List.TakeWhile
import Pddl.Proofs.Parts

/-!
# How a domain is put together

A domain is made of parts, each of which a rule of its own reads completely: sections, each at most
once and in a fixed order, and then definitions.  Every section is left out where another part
stands, so the parts are read one by one, and the domain is what they hold.

* `SectionKind` : the sorts of parts, with their rules and their places.
* `DomainPart` : a text that the rule of its sort reads completely; `DomainPart.value?` is what it
  holds.
* `InOrder` : sections come at most once and in the order of their places.
* `Domain.ofParts` : the domain that parts make; among parts in order, a section is the only one of
  its sort (`findSome?_of_mem`).
* `past` : the parts that are left behind some sections.
* `Rule.parse_domain_parts` : **parts in order are read as the domain that they make, and parts
  out of order are rejected.**
-/

namespace Pddl

/-! ### Sorts of parts -/

/-- The sorts of parts of a domain; the type says what a part of the sort holds. -/
inductive SectionKind : Type → Type where
  | parents : SectionKind (List Name)
  | requirements : SectionKind Requirements
  | types : SectionKind (TypedList PrimitiveType)
  | constants : SectionKind (TypedList Name)
  | predicates : SectionKind (List PredicateSkeleton)
  | timeless : SectionKind (List (Literal Name))
  | functions : SectionKind (TypedList FunctionSkeleton)
  | constraints : SectionKind Constraint
  | definition : SectionKind Definition

namespace SectionKind

variable {α : Type}

/-- The rule that reads a part of the sort. -/
def rule : {α : Type} → SectionKind α → Rule α
  | _, parents => Rule.parents
  | _, requirements => Rule.requirements
  | _, types => Rule.types
  | _, constants => Rule.constants
  | _, predicates => Rule.predicates
  | _, timeless => Rule.timeless
  | _, functions => Rule.functions
  | _, constraints => Rule.domainConstraints
  | _, definition => Rule.definition

/-- The place of the sort in a domain. -/
def place : SectionKind α → Nat
  | parents => 0
  | requirements => 1
  | types => 2
  | constants => 3
  | predicates => 4
  | timeless => 5
  | functions => 6
  | constraints => 7
  | definition => 8

/-- The head words of the parts of the sort. -/
def heads : SectionKind α → List String
  | parents => [":extends"]
  | requirements => [":requirements"]
  | types => [":types"]
  | constants => [":constants"]
  | predicates => [":predicates"]
  | timeless => [":timeless"]
  | functions => [":functions"]
  | constraints => [":constraints"]
  | definition => [":action", ":durative-action", ":derived"]

theorem place_le (k : SectionKind α) : k.place ≤ 8 := by cases k <;> decide

theorem isFlag_heads (k : SectionKind α) : ∀ x ∈ k.heads, IsFlag x := by cases k <;> decide

/-- Parts of different sorts have different head words. -/
theorem not_mem_heads {β : Type} {j : SectionKind β} {k : SectionKind α} (h : j.place ≠ k.place) :
    ∀ x ∈ j.heads, x ∉ k.heads := by
  cases j <;> cases k <;> first | exact absurd rfl h | decide

theorem headedBy_rule (k : SectionKind α) : k.rule.HeadedBy k.heads := by
  cases k with
  | requirements => exact (Rule.headedBy_form ":requirements" _).map _
  | definition =>
    exact (((Rule.headedBy_form ":action" _).map _).map _).orElse
      ((((Rule.headedBy_form ":durative-action" _).map _).map _).orElse
        (((Rule.headedBy_form ":derived" _).map _).map _))
  | _ => exact Rule.headedBy_form _ _

theorem isEnclosed_rule (k : SectionKind α) : k.rule.IsEnclosed where
  settled := by
    cases k with
    | parents => simp [rule, Rule.parents]
    | requirements => exact Rule.settled_requirements
    | types => exact Rule.settled_of_named .types
    | constants => exact Rule.settled_of_named .constants
    | predicates => exact Rule.settled_of_named .predicates
    | timeless => exact Rule.settled_of_named .timeless
    | functions => exact Rule.settled_of_named .functions
    | constraints => exact Rule.settled_of_named .domainConstraints
    | definition => exact Rule.settled_of_named .definition
  next := by cases k <;> decide
  opens := by cases k <;> rfl

end SectionKind

/-! ### Parts -/

/-- A text that the rule of its sort reads completely, with the spacing in front of it. -/
structure DomainPart (ceiling : Nat) where
  /-- The type of what it holds. -/
  {holds : Type}
  /-- The sort. -/
  kind : SectionKind holds
  /-- The spacing in front. -/
  gap : Spacing
  /-- The text. -/
  part : Part kind.rule ceiling

namespace DomainPart

variable {ceiling : Nat} {α : Type}

/-- The characters. -/
def chars (s : DomainPart ceiling) : List Char := s.gap.chars ++ s.part.text

/-- The place of the part in a domain. -/
def place (s : DomainPart ceiling) : Nat := s.kind.place

/-- What the part holds, if it is of the given sort. -/
def value? (k : SectionKind α) (s : DomainPart ceiling) : Option α :=
  match k, s with
  | .parents, ⟨.parents, _, p⟩ => some p.value
  | .requirements, ⟨.requirements, _, p⟩ => some p.value
  | .types, ⟨.types, _, p⟩ => some p.value
  | .constants, ⟨.constants, _, p⟩ => some p.value
  | .predicates, ⟨.predicates, _, p⟩ => some p.value
  | .timeless, ⟨.timeless, _, p⟩ => some p.value
  | .functions, ⟨.functions, _, p⟩ => some p.value
  | .constraints, ⟨.constraints, _, p⟩ => some p.value
  | .definition, ⟨.definition, _, p⟩ => some p.value
  | _, _ => none

/-- The part may stand in front of the other one: its place comes first, or both are
definitions. -/
def Precedes (s t : DomainPart ceiling) : Prop := s.place < t.place ∨ s.place = 8 ∧ t.place = 8

theorem place_le (s : DomainPart ceiling) : s.place ≤ 8 := s.kind.place_le

theorem Precedes.le {s t : DomainPart ceiling} (h : s.Precedes t) : s.place ≤ t.place := by
  unfold Precedes at h
  omega

theorem value?_eq_none {k : SectionKind α} {s : DomainPart ceiling} (h : s.place ≠ k.place) :
    s.value? k = none := by
  obtain ⟨j, gap, p⟩ := s
  cases j <;> cases k <;> first | rfl | exact absurd rfl h

/-- A part at the place of a sort is of that sort. -/
theorem exists_of_place {k : SectionKind α} {s : DomainPart ceiling} (h : s.place = k.place) :
    ∃ gap p, s = ⟨k, gap, p⟩ ∧ s.value? k = some p.value := by
  obtain ⟨j, gap, p⟩ := s
  cases j <;> cases k <;> first | exact ⟨gap, p, rfl, rfl⟩ | cases h

end DomainPart

variable {ceiling : Nat}

/-- Sections come at most once and in the order of their places, and definitions come last. -/
def InOrder (ss : List (DomainPart ceiling)) : Prop := ss.Pairwise DomainPart.Precedes

/-- The domain that parts make: what the sections hold, or nothing where there is no section, and
the definitions. -/
def Domain.ofParts (name : Name) (ss : List (DomainPart ceiling)) : Domain where
  name
  parents := (ss.findSome? (DomainPart.value? .parents)).getD []
  requirements := (ss.findSome? (DomainPart.value? .requirements)).getD .none
  types := (ss.findSome? (DomainPart.value? .types)).getD {}
  constants := (ss.findSome? (DomainPart.value? .constants)).getD {}
  predicates := (ss.findSome? (DomainPart.value? .predicates)).getD []
  timeless := (ss.findSome? (DomainPart.value? .timeless)).getD []
  functions := (ss.findSome? (DomainPart.value? .functions)).getD {}
  constraints := (ss.findSome? (DomainPart.value? .constraints)).getD (.conj [])
  definitions := ss.filterMap (DomainPart.value? .definition)

/-! ### Parts in order -/

/-- Without the first part, if it has the place. -/
def behind (n : Nat) : List (DomainPart ceiling) → List (DomainPart ceiling)
  | [] => []
  | s :: ss => if s.place = n then ss else s :: ss

/-- The parts that are left behind the sections of the first places. -/
def past : (n : Nat) → List (DomainPart ceiling) → List (DomainPart ceiling)
  | 0, ss => ss
  | n + 1, ss => behind n (past n ss)

/-- The parts are in order and come at the place or later. -/
structure InOrderFrom (n : Nat) (ss : List (DomainPart ceiling)) : Prop where
  inOrder : InOrder ss
  le : ∀ s ∈ ss, n ≤ s.place

namespace InOrderFrom

variable {n : Nat} {s : DomainPart ceiling} {ss : List (DomainPart ceiling)}

/-- A part in front of the others is in order if it comes before each of them. -/
theorem cons_iff :
    InOrderFrom n (s :: ss) ↔ n ≤ s.place ∧ (∀ t ∈ ss, s.Precedes t) ∧ InOrder ss := by
  constructor
  · rintro ⟨horder, hle⟩
    obtain ⟨hs, hss⟩ := List.pairwise_cons.1 horder
    exact ⟨hle s (by simp), hs, hss⟩
  · rintro ⟨hn, hs, hss⟩
    refine ⟨List.pairwise_cons.2 ⟨hs, hss⟩, fun t ht => ?_⟩
    obtain rfl | ht := List.mem_cons.1 ht
    · exact hn
    · exact hn.trans (hs t ht).le

/-- Behind the section of a place, parts in order come later. -/
theorem behind_iff (hn : n < 8) : InOrderFrom (n + 1) (behind n ss) ↔ InOrderFrom n ss := by
  rcases ss with _ | ⟨s, ss⟩
  · rw [behind]
    exact ⟨fun h => ⟨h.inOrder, by simp⟩, fun h => ⟨h.inOrder, by simp⟩⟩
  · by_cases hs : s.place = n
    · rw [behind, if_pos hs, cons_iff]
      constructor
      · rintro ⟨horder, hle⟩
        exact ⟨hs.ge, fun t ht => .inl (by have := hle t ht; omega), horder⟩
      · rintro ⟨-, hprecedes, horder⟩
        refine ⟨horder, fun t ht => ?_⟩
        have := hprecedes t ht
        unfold DomainPart.Precedes at this
        omega
    · rw [behind, if_neg hs, cons_iff, cons_iff]
      exact and_congr_left fun _ => by omega

theorem past_iff (hn : n ≤ 8) : InOrderFrom n (past n ss) ↔ InOrder ss := by
  induction n with
  | zero => exact ⟨fun h => h.inOrder, fun h => ⟨h, fun _ _ => Nat.zero_le _⟩⟩
  | succ n ih => rw [past, behind_iff (by omega), ih (by omega)]

/-- From the last place on, parts are in order if they are all definitions. -/
theorem eight_iff : InOrderFrom 8 ss ↔ ∀ s ∈ ss, s.place = 8 := by
  constructor
  · rintro ⟨-, hle⟩ s hs
    exact le_antisymm s.place_le (hle s hs)
  · intro h
    refine ⟨List.pairwise_of_forall_mem_list fun s hs t ht => .inr ⟨h s hs, h t ht⟩, fun s hs => ?_⟩
    exact (h s hs).ge

end InOrderFrom

/-! ### What parts hold -/

section Values

variable {α : Type} {k : SectionKind α} {ss : List (DomainPart ceiling)}

/-- Of parts in order, the first one is the section of the place if there is one. -/
theorem findSome?_of_inOrderFrom (hk : k.place < 8) (h : InOrderFrom k.place ss) :
    ss.findSome? (DomainPart.value? k) = ss.head?.bind (DomainPart.value? k) := by
  rcases ss with _ | ⟨s, ss⟩
  · rfl
  · obtain ⟨hle, hprecedes, -⟩ := InOrderFrom.cons_iff.1 h
    have hss : ss.findSome? (DomainPart.value? k) = none := by
      rw [List.findSome?_eq_none_iff]
      intro t ht
      have := hprecedes t ht
      unfold DomainPart.Precedes at this
      exact DomainPart.value?_eq_none (by omega)
    rw [List.findSome?_cons, hss, List.head?_cons, Option.bind_some]
    rcases s.value? k <;> rfl

theorem findSome?_behind {n : Nat} (hk : n ≠ k.place) :
    (behind n ss).findSome? (DomainPart.value? k) = ss.findSome? (DomainPart.value? k) := by
  rcases ss with _ | ⟨s, ss⟩
  · rfl
  · by_cases hs : s.place = n
    · rw [behind, if_pos hs, List.findSome?_cons, DomainPart.value?_eq_none (hs ▸ hk)]
    · rw [behind, if_neg hs]

/-- Sections of other places do not hide one. -/
theorem findSome?_past {n : Nat} (hn : n ≤ k.place) :
    (past n ss).findSome? (DomainPart.value? k) = ss.findSome? (DomainPart.value? k) := by
  induction n with
  | zero => rfl
  | succ n ih => rw [past, findSome?_behind (by omega), ih (by omega)]

theorem filterMap_past {n : Nat} (hn : n ≤ k.place) :
    (past n ss).filterMap (DomainPart.value? k) = ss.filterMap (DomainPart.value? k) := by
  induction n with
  | zero => rfl
  | succ n ih =>
    rw [← ih (by omega), past]
    rcases past n ss with _ | ⟨s, ts⟩
    · rfl
    · by_cases hs : s.place = n
      · rw [behind, if_pos hs, List.filterMap_cons, DomainPart.value?_eq_none (by omega)]
      · rw [behind, if_neg hs]

/-- Among parts in order, a section is the only one of its sort. -/
theorem findSome?_of_mem (hk : k.place < 8) (h : InOrder ss) {s : DomainPart ceiling} (hs : s ∈ ss)
    (hplace : s.place = k.place) : ss.findSome? (DomainPart.value? k) = s.value? k := by
  induction ss with
  | nil => cases hs
  | cons t ss ih =>
    obtain ⟨hprecedes, hss⟩ := List.pairwise_cons.1 h
    obtain rfl | hs := List.mem_cons.1 hs
    · obtain ⟨_, p, -, hvalue⟩ := DomainPart.exists_of_place hplace
      rw [List.findSome?_cons, hvalue]
    · have hlt := hprecedes s hs
      unfold DomainPart.Precedes at hlt
      rw [List.findSome?_cons, DomainPart.value?_eq_none (by omega), ih hss hs]

end Values

/-! ### The text of a domain -/

/-- A domain that is made of parts. -/
structure DomainText (ceiling : Nat) where
  /-- The beginning with the name. -/
  opening : Opening (Grammar.form "domain" (Grammar.symbol .name)) ceiling
  /-- The parts. -/
  parts : List (DomainPart ceiling)
  /-- The spacing in front of the last parenthesis. -/
  close : Spacing
  /-- The spacing behind it. -/
  trail : Spacing

/-- The characters. -/
def DomainText.chars (t : DomainText ceiling) : List Char :=
  t.opening.chars ++ (t.parts.flatMap DomainPart.chars ++ (t.close.chars ++ ')' :: t.trail.chars))

/-- The parts as they stand ahead, then the given end. -/
def ahead (close : Spacing) (trail : List Char) : List (DomainPart ceiling) → List Char
  | [] => ')' :: trail
  | s :: ss => s.part.text ++ (ss.flatMap DomainPart.chars ++ (close.chars ++ ')' :: trail))

variable {close : Spacing} {trail : List Char}

theorem faces_ahead (close : Spacing) (trail : List Char) (ss : List (DomainPart ceiling)) :
    View.Faces ⟨some ')', ss.flatMap DomainPart.chars ++ (close.chars ++ ')' :: trail)⟩
      (ahead close trail ss) := by
  rcases ss with _ | ⟨s, ss⟩
  · exact View.faces_close _ (.inr rfl)
  · rw [List.flatMap_cons, DomainPart.chars, List.append_assoc, List.append_assoc]
    exact View.faces_close _ (s.part.atParenthesis s.kind.isEnclosed_rule _)

namespace Rule

variable {α : Type} {v w : View} {ss : List (DomainPart ceiling)}

/-- The rule of another sort does not read a part. -/
theorem look_part_missing {k : SectionKind α} {s : DomainPart ceiling} {y : List Char}
    (hv : v.rest = s.part.text ++ y) (hk : s.place ≠ k.place) :
    k.rule.look ceiling v = .missing := by
  have hlook := s.part.look s.kind.isEnclosed_rule hv
  obtain ⟨x, hx, hopens⟩ := s.kind.headedBy_rule.exists_opensWith hlook
  exact k.headedBy_rule.missing k.isFlag_heads hopens (s.kind.isFlag_heads x hx)
    (SectionKind.not_mem_heads hk x hx) ceiling

/-- The rule of another sort does not read the first part, nor the end. -/
theorem look_rule_missing {k : SectionKind α} (hv : v.rest = ahead close trail ss)
    (hk : ∀ s ∈ ss.head?, s.place ≠ k.place) : k.rule.look ceiling v = .missing := by
  rcases ss with _ | ⟨s, ss⟩
  · refine k.headedBy_rule ceiling v fun x _ hx => ?_
    have hopen := hx.1
    rw [hv] at hopen
    simp [ahead] at hopen
  · exact look_part_missing hv (hk s (by simp))

/-- A section is read if it is the first part, and left out otherwise. -/
theorem look_section (k : SectionKind α) (hv : v.Faces (ahead close trail ss)) :
    ∃ w, look ceiling (Grammar.optional k.rule) v =
        .found w (ss.head?.bind (DomainPart.value? k)) ∧
      w.Faces (ahead close trail (behind k.place ss)) := by
  by_cases hk : ∃ s ∈ ss.head?, s.place = k.place
  · obtain ⟨s, hs, hplace⟩ := hk
    obtain ⟨ss, rfl⟩ := List.head?_eq_some_iff.1 hs
    obtain ⟨gap, p, rfl, hvalue⟩ := DomainPart.exists_of_place hplace
    refine ⟨_, ?_, by rw [behind, if_pos hplace]; exact faces_ahead close trail ss⟩
    rw [look_optional_part k.isEnclosed_rule p hv, List.head?_cons, Option.bind_some, hvalue]
  · push Not at hk
    refine ⟨v, ?_, ?_⟩
    · rw [look_optional_missing hv (look_rule_missing hv.rest hk)]
      rcases ss with _ | ⟨s, ss⟩
      · rfl
      · rw [List.head?_cons, Option.bind_some, DomainPart.value?_eq_none (hk s (by simp))]
    · rcases ss with _ | ⟨s, ss⟩
      · exact hv
      · rw [behind, if_neg (hk s (by simp))]
        exact hv

/-- The parts of one sort that stand in front are the further elements of a list. -/
theorem look_more_parts (k : SectionKind α) (hv : v.Faces (ahead close trail ss)) :
    ∃ w, Reader.more (k.rule.look ceiling) v =
        .found w ((ss.takeWhile (·.place = k.place)).filterMap (DomainPart.value? k)) ∧
      w.Faces (ahead close trail (ss.dropWhile (·.place = k.place))) := by
  induction ss generalizing v with
  | nil =>
    have hmissing := look_rule_missing (k := k) hv.rest (by simp)
    refine ⟨v, ?_, hv⟩
    rw [Reader.more_eq (forward_look _ _), ← look_optional, look_optional_missing hv hmissing]
    rfl
  | cons s ss ih =>
    by_cases hs : s.place = k.place
    · obtain ⟨gap, p, rfl, hvalue⟩ := DomainPart.exists_of_place hs
      obtain ⟨w, hmore, hw⟩ := ih (faces_ahead close trail ss)
      refine ⟨w, ?_, by simpa [hs] using hw⟩
      -- the part takes characters, so the list goes on behind it
      have hlen := length_lt_of_look k.isEnclosed_rule.next (p.look k.isEnclosed_rule hv.rest)
        (head?_of_opens k.isEnclosed_rule.opens (p.look k.isEnclosed_rule hv.rest))
      have hle := v.rest_skipBlanks_suffix.length_le
      simp only at hlen
      rw [Reader.more_eq (forward_look _ _), ← look_optional,
        look_optional_part k.isEnclosed_rule p hv]
      simp only [Finding.andThen]
      rw [if_neg (by omega), hmore, List.takeWhile_cons_of_pos (by simpa using hs),
        List.filterMap_cons, hvalue]
    · have hmissing := look_rule_missing (k := k) hv.rest (by simpa using hs)
      refine ⟨v, ?_, by simpa [hs] using hv⟩
      rw [Reader.more_eq (forward_look _ _), ← look_optional, look_optional_missing hv hmissing]
      simp [Finding.andThen, hs]

/-- The parts of one sort that stand in front are a list. -/
theorem look_many_parts (k : SectionKind α) (hv : v.Faces (ahead close trail ss)) :
    ∃ w, look ceiling (Grammar.optional (Grammar.many k.rule)) v =
        .found w (some ((ss.takeWhile (·.place = k.place)).filterMap (DomainPart.value? k))) ∧
      w.Faces (ahead close trail (ss.dropWhile (·.place = k.place))) := by
  obtain ⟨w, hmany, hw⟩ : ∃ w, look ceiling (Grammar.many k.rule) v.skipBlanks =
      .found w ((ss.takeWhile (·.place = k.place)).filterMap (DomainPart.value? k)) ∧
        w.Faces (ahead close trail (ss.dropWhile (·.place = k.place))) := by
    rw [look_many, Reader.opt, look_many1]
    by_cases hk : ∃ s ∈ ss.head?, s.place = k.place
    · obtain ⟨s, hs, hplace⟩ := hk
      obtain ⟨ss, rfl⟩ := List.head?_eq_some_iff.1 hs
      obtain ⟨gap, p, rfl, hvalue⟩ := DomainPart.exists_of_place hplace
      obtain ⟨w, hmore, hw⟩ := look_more_parts k (faces_ahead close trail ss)
      refine ⟨w, ?_, by simpa [hplace] using hw⟩
      rw [p.look k.isEnclosed_rule hv.rest, List.takeWhile_cons_of_pos (by simpa using hplace),
        List.filterMap_cons, hvalue]
      simp only [Finding.andThen, hmore, Finding.orElse, Option.getD_some]
    · push Not at hk
      have hnone : ss.takeWhile (·.place = k.place) = [] ∧
          ss.dropWhile (·.place = k.place) = ss := by
        rcases ss with _ | ⟨s, ss⟩
        · exact ⟨rfl, rfl⟩
        · have hs := hk s (by simp)
          simp [hs]
      rw [look_rule_missing hv.rest hk, hnone.1, hnone.2]
      exact ⟨v.skipBlanks, rfl, hv.skipBlanks⟩
  refine ⟨w, ?_, hw⟩
  rw [look_optional, Reader.opt, look_separated_ahead hv, hmany]
  rfl

/-! ### Whole domains -/

/-- What the first of some parts holds, if it is of the sort. -/
def first? (k : SectionKind α) (ss : List (DomainPart ceiling)) : Option α :=
  ss.head?.bind (DomainPart.value? k)

/-- Behind the sections of earlier places, a section is read if it is the first part left. -/
theorem look_section_past (k : SectionKind α) (hv : v.Faces (ahead close trail (past k.place ss))) :
    ∃ w, look ceiling (Grammar.optional k.rule) v = .found w (first? k (past k.place ss)) ∧
      w.Faces (ahead close trail (past (k.place + 1) ss)) :=
  look_section k hv

/-- The domain as it is read: every section where it is the first part that is left, and the
definitions that come first behind the sections. -/
def domainRead (name : Name) (ss : List (DomainPart ceiling)) : Domain where
  name
  parents := (first? .parents (past 0 ss)).getD []
  requirements := (first? .requirements (past 1 ss)).getD .none
  types := (first? .types (past 2 ss)).getD {}
  constants := (first? .constants (past 3 ss)).getD {}
  predicates := (first? .predicates (past 4 ss)).getD []
  timeless := (first? .timeless (past 5 ss)).getD []
  functions := (first? .functions (past 6 ss)).getD {}
  constraints := (first? .constraints (past 7 ss)).getD (.conj [])
  definitions := ((past 8 ss).takeWhile (·.place = 8)).filterMap (DomainPart.value? .definition)

/-- A domain holds its sections and then its definitions; what is left of the parts is in front of
the last parenthesis. -/
theorem look_domain (t : DomainText ceiling) (b : Option Char) :
    ∃ w : View, look ceiling domain ⟨b, t.chars⟩ =
        ((look ceiling (.terminal (.char ')')) w.skipBlanks).andThen fun w' _ =>
          .found w'.skipBlanks (domainRead t.opening.title.value t.parts)) ∧
      w.Faces (ahead t.close t.trail.chars ((past 8 t.parts).dropWhile (·.place = 8))) := by
  have h0 := (faces_ahead t.close t.trail.chars t.parts).skipBlanks
  obtain ⟨w1, e1, h1⟩ := look_section_past .parents h0
  obtain ⟨w2, e2, h2⟩ := look_section_past .requirements h1
  obtain ⟨w3, e3, h3⟩ := look_section_past .types h2
  obtain ⟨w4, e4, h4⟩ := look_section_past .constants h3
  obtain ⟨w5, e5, h5⟩ := look_section_past .predicates h4
  obtain ⟨w6, e6, h6⟩ := look_section_past .timeless h5
  obtain ⟨w7, e7, h7⟩ := look_section_past .functions h6
  obtain ⟨w8, e8, h8⟩ := look_section_past .constraints h7
  obtain ⟨w9, e9, h9⟩ := look_many_parts .definition h8
  refine ⟨w9, ?_, h9⟩
  simp only [SectionKind.rule] at e1 e2 e3 e4 e5 e6 e7 e8 e9
  rw [domain, look_map, t.opening.look ⟨by simp, by decide, rfl⟩ rfl]
  rotate_left
  · simp only [look_seq, e1, e2, e3, e4, e5, e6, e7, e8, e9, Finding.andThen]
    rfl
  · rcases look ceiling (.terminal (.char ')')) w9.skipBlanks with _ | _ | _ | _ | _ <;> rfl

/-- Of parts in order, every section is the first part that is left at its place. -/
theorem first?_past {k : SectionKind α} (hk : k.place < 8) (h : InOrder ss) :
    first? k (past k.place ss) = ss.findSome? (DomainPart.value? k) := by
  rw [first?, ← findSome?_of_inOrderFrom hk ((InOrderFrom.past_iff hk.le).2 h),
    findSome?_past (Nat.le_refl _)]

/-- Parts are in order if only definitions are left behind the sections. -/
theorem inOrder_iff : InOrder ss ↔ (past 8 ss).dropWhile (·.place = 8) = [] := by
  rw [← InOrderFrom.past_iff (Nat.le_refl 8), InOrderFrom.eight_iff, List.dropWhile_eq_nil_iff]
  simp

theorem domainRead_eq (name : Name) (h : InOrder ss) : domainRead name ss = .ofParts name ss := by
  have hall := List.takeWhile_append_dropWhile (p := (·.place = 8)) (l := past 8 ss)
  rw [inOrder_iff.1 h, List.append_nil] at hall
  have hdefinitions : (past 8 ss).filterMap (DomainPart.value? .definition) =
      ss.filterMap (DomainPart.value? .definition) := filterMap_past (Nat.le_refl 8)
  simp only [domainRead, Domain.ofParts, hall, hdefinitions,
    ← first?_past (k := .parents) (by decide) h, ← first?_past (k := .requirements) (by decide) h,
    ← first?_past (k := .types) (by decide) h, ← first?_past (k := .constants) (by decide) h,
    ← first?_past (k := .predicates) (by decide) h, ← first?_past (k := .timeless) (by decide) h,
    ← first?_past (k := .functions) (by decide) h, ← first?_past (k := .constraints) (by decide) h]
  rfl

/-- **A domain is put together part by part**: parts in order are read completely, as the domain
that they make; where a section is repeated or comes behind a later part, the text is rejected. -/
theorem parse_domain_parts (t : DomainText ceiling) :
    (InOrder t.parts → ∃ d, domain.parse (Cursor.ofText t.chars ceiling) =
        .ok (d, .ofParts t.opening.title.value t.parts) ∧ d.rest = []) ∧
      (¬InOrder t.parts → ∃ m, domain.parse (Cursor.ofText t.chars ceiling) =
        .error (.mismatch m) ∧ m.committed = false) := by
  obtain ⟨w, hlook, hw⟩ := look_domain t none
  have hcalm := calm_ofText t.chars ceiling
  constructor
  · intro h
    rw [inOrder_iff.1 h] at hw
    rw [hw.skipBlanks_eq, ahead, look_close, domainRead_eq _ h] at hlook
    obtain ⟨d, hd, -, hview⟩ := parse_of_look settled_domain hcalm hlook
    refine ⟨d, hd, (congrArg View.rest hview).trans ?_⟩
    exact t.trail.rest_skipBlanks (List.append_nil _).symm rfl
  · intro h
    rw [inOrder_iff] at h
    obtain ⟨s, ss, hs⟩ := List.exists_cons_of_ne_nil h
    rw [hs] at hw
    -- a part is left where the last parenthesis should be
    obtain ⟨r, hr⟩ := s.part.exists_text s.kind.isEnclosed_rule
    have hopen : w.skipBlanks.rest.head? = some '(' := by
      rw [hw.rest, ahead, hr]
      rfl
    have hclose : look ceiling (.terminal (.char ')')) w.skipBlanks = .missing := by
      simp [look, Grammar.denote, Terminal.lexeme?, Finding.lexeme, hopen]
    rw [hclose] at hlook
    exact parse_of_look_missing settled_domain hcalm hlook

/-- A section of types and an action, in order and out of order. -/
theorem parse_domain_parts_types_action :
    (∃ d a, domain.parse
        (Cursor.ofText "(define (domain d) (:types t) (:action a :parameters ()))".toList 40) =
        .ok (d, a) ∧ d.rest = [] ∧ a.types = ⟨[⟨⟨"t", by decide⟩, .object⟩]⟩ ∧
          a.definitions.length = 1) ∧
      ∃ m, domain.parse
          (Cursor.ofText "(define (domain d) (:action a :parameters ()) (:types t))".toList 40) =
        .error (.mismatch m) ∧ m.committed = false := by
  let typesPart : DomainPart 40 :=
    ⟨.types, .one, .ofText types "(:types t)".toList 40 (by decide +kernel)⟩
  let actionPart : DomainPart 40 :=
    ⟨.definition, .one,
      .ofText definition "(:action a :parameters ())".toList 40 (by decide +kernel)⟩
  let text (ps : List (DomainPart 40)) : DomainText 40 :=
    ⟨⟨.none, .none, .one, .named "domain" (by decide) ⟨"d", by decide⟩ 40⟩, ps, .none, .none⟩
  have hordered : (text [typesPart, actionPart]).chars =
      "(define (domain d) (:types t) (:action a :parameters ()))".toList := by decide +kernel
  have hswapped : (text [actionPart, typesPart]).chars =
      "(define (domain d) (:action a :parameters ()) (:types t))".toList := by decide +kernel
  rw [← hordered, ← hswapped]
  constructor
  · obtain ⟨d, hd, hrest⟩ := (parse_domain_parts (text [typesPart, actionPart])).1
      (by simp [InOrder, text, typesPart, actionPart, DomainPart.Precedes, DomainPart.place,
        SectionKind.place])
    exact ⟨d, _, hd, hrest, by decide +kernel, rfl⟩
  · exact (parse_domain_parts (text [actionPart, typesPart])).2
      (by simp [InOrder, text, typesPart, actionPart, DomainPart.Precedes, DomainPart.place,
        SectionKind.place])

end Rule

end Pddl
