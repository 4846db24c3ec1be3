import Pddl.Proofs.GoalTexts
import Pddl.Proofs.Levels
import Pddl.Proofs.Overflow

/-!
# Forms are read as a whole

A rule that begins with a parenthesis takes a whole form, up to the matching parenthesis, or nothing of
it.  So an alternative in front of the right one does no harm to a form: it may take the form for
something else, but it never stops in the middle of it.

* `IsClean` : a text without loose parentheses, carriage returns and numbers that are too large.
* `IsWhole` : a clean text that is a single form, or begins with no parenthesis.
* `isWhole_oneLine`, `isWhole_symbol`, … : how clean texts are put together.
* `Rule.TakesForms` : the rule begins with a parenthesis and stays in its form.
* `Rule.TakesForms.decides` : **such a rule takes a form as a whole, or finds nothing.**
-/

namespace Pddl

variable {s t : List Char}

/-! ### Clean texts -/

/-- The text opens and closes as many forms, all lines end in a line feed alone, and all numbers are
finite. -/
structure IsClean (s : List Char) : Prop where
  balanced : ∀ k cs, closes false k (s ++ cs) = closes false k cs
  lineEnds : '\r' ∉ s
  numerals : NumeralsFit s

/-- The text is clean, and a single form if it begins with a parenthesis. -/
structure IsWhole (s : List Char) : Prop extends IsClean s where
  form : s.head? = some '(' → Phase.before.Spans 0 s

theorem IsClean.nil : IsClean [] := ⟨fun _ _ => rfl, by simp, numeralsFit_of_no_digit (by simp)⟩

theorem IsClean.append (hs : IsClean s) (ht : IsClean t) (hhead : t.head?.any goesOn = false) :
    IsClean (s ++ t) where
  balanced k cs := by rw [List.append_assoc, hs.balanced, ht.balanced]
  lineEnds h := (List.mem_append.1 h).elim hs.lineEnds ht.lineEnds
  numerals := hs.numerals.append ht.numerals hhead

theorem IsClean.cons {c : Char} (hplain : isPlain c = true) (hreturn : c ≠ '\r')
    (hdigit : c.isDigit = false) (ht : IsClean t) : IsClean (c :: t) where
  balanced k cs := by rw [List.cons_append, closes_plain hplain, ht.balanced]
  lineEnds h := (List.mem_cons.1 h).elim (fun h => hreturn h.symm) ht.lineEnds
  numerals := ht.numerals.cons hdigit

/-- Plain characters without digits are clean. -/
theorem isClean_of_all (h : (s.all fun c => isPlain c && c != '\r' && !c.isDigit) = true) :
    IsClean s := by
  induction s with
  | nil => exact .nil
  | cons c s ih =>
    simp only [List.all_cons, Bool.and_eq_true, bne_iff_ne, Bool.not_eq_true'] at h
    exact .cons h.1.1.1 h.1.1.2 h.1.2 (ih h.2)

/-- What begins with a plain character is no form. -/
theorem IsClean.isWhole (h : IsClean s) (hs : s.head? ≠ some '(') : IsWhole s :=
  ⟨h, fun hopen => absurd hopen hs⟩

theorem isWhole_of_all (h : (s.all fun c => isPlain c && c != '\r' && !c.isDigit) = true) :
    IsWhole s := by
  refine (isClean_of_all h).isWhole ?_
  rcases s with _ | ⟨c, s⟩
  · simp
  · rintro ⟨⟩
    exact absurd h (by simp [isPlain])

/-! ### Names and numbers -/

theorem ne_return_of_isNameChar {c : Char} (h : isNameChar c = true) : c ≠ '\r' := by
  rintro rfl
  exact absurd h (by decide)

theorem isWhole_of_isName (h : isName s = true) : IsWhole s := by
  have hchars := isNameChar_of_mem_name h
  have hclean : IsClean s := by
    refine ⟨fun k cs => closes_append (fun c hc => isPlain_of_isNameChar (hchars c hc)) k cs,
      fun hr => ne_return_of_isNameChar (hchars _ hr) rfl,
      numeralsFit_of_goesOn (fun c hc => goesOn_of_isNameChar (hchars c hc)) ?_⟩
    refine finiteNumeral_of_head? ?_
    rcases s with _ | ⟨c, s⟩
    · rfl
    · simp only [isName, Bool.and_eq_true] at h
      exact isDigit_eq_false_of_isNameStart h.1
  refine hclean.isWhole ?_
  rcases s with _ | ⟨c, s⟩
  · simp
  · rintro ⟨⟩
    exact absurd (hchars '(' (by simp)) (by decide)

theorem isWhole_symbol {kind : SymbolKind} (x : Symbol kind) : IsWhole (spelling x) := by
  have h := isWhole_of_isName x.valid
  rw [show spelling x = kind.sigil.toList ++ x.text.toList by
    simp [spelling, Symbol.written, String.toList_append]]
  cases kind with
  | var =>
    have hclean : IsClean ('?' :: x.text.toList) :=
      h.toIsClean.cons (by decide) (by decide) (by decide)
    exact hclean.isWhole (by simp)
  | _ => exact h

theorem isWhole_number {x : Number} (hx : x.negative = false) : IsWhole (spelling x) := by
  obtain ⟨whole, places, hwritten, hdec, hvalue⟩ := x.exists_written hx
  rw [show spelling x = decimalLexeme whole places from hwritten]
  have hchars : ∀ c ∈ decimalLexeme whole places, c.isDigit = true ∨ c = '.' := by
    intro c hc
    simp only [decimalLexeme, List.mem_append] at hc
    obtain hc | hc := hc
    · exact .inl (hdec.isDigit c (by simp [hc]))
    · split at hc
      · simp at hc
      · obtain rfl | hc := List.mem_cons.1 hc
        · exact .inr rfl
        · exact .inl (hdec.isDigit c (by simp [hc]))
  have hgoesOn : ∀ c ∈ decimalLexeme whole places, goesOn c = true := fun c hc =>
    (hchars c hc).elim (fun h => goesOn_of_isNameChar (isNameChar_of_isDigit h))
      fun h => h ▸ by decide
  have hplain : ∀ c ∈ decimalLexeme whole places, isPlain c = true := fun c hc =>
    (hchars c hc).elim isPlain_of_isDigit fun h => h ▸ by decide
  refine IsClean.isWhole ⟨fun k cs => closes_append hplain k cs, fun hr => ?_,
    numeralsFit_of_goesOn hgoesOn ?_⟩ fun hopen => ?_
  · exact absurd (hgoesOn _ hr) (by decide)
  · intro n d hd
    obtain ⟨⟨whole', places'⟩, hp, h⟩ := Option.map_eq_some_iff.1 hd
    rw [← List.append_nil (decimalLexeme whole places), decimalParts?_append hdec .nil] at hp
    obtain ⟨rfl, rfl⟩ := Prod.mk.inj (Option.some.inj hp)
    obtain ⟨-, rfl⟩ := Prod.mk.inj h
    exact ⟨x, hvalue⟩
  · exact absurd (hplain _ (List.mem_of_mem_head? hopen)) (by decide)

/-! ### Putting texts together -/

theorem head?_spread (ps : List (List Char)) : (spread [' '] ps).head?.any goesOn = false := by
  cases ps with
  | nil => rfl
  | cons p ps => simp [goesOn, isNameChar]

theorem isClean_spread {ps : List (List Char)} (h : ∀ p ∈ ps, IsClean p) :
    IsClean (spread [' '] ps) := by
  induction ps with
  | nil => exact .nil
  | cons p ps ih =>
    rw [spread_cons]
    refine .cons (by decide) (by decide) (by decide) ((h p (by simp)).append ?_ (head?_spread ps))
    exact ih fun q hq => h q (List.mem_cons_of_mem p hq)

theorem isClean_intercalate {ps : List (List Char)} (h : ∀ p ∈ ps, IsClean p) :
    IsClean ([' '].intercalate ps) := by
  cases ps with
  | nil => exact .nil
  | cons p ps =>
    rw [intercalate_cons]
    exact (h p (by simp)).append
      (isClean_spread fun q hq => h q (List.mem_cons_of_mem p hq)) (head?_spread ps)

/-- What is put in parentheses is a form. -/
theorem IsClean.isWhole_parens (h : IsClean s) : IsWhole ('(' :: (s ++ [')'])) where
  balanced k cs := by
    rw [List.cons_append, closes_open, List.append_assoc, h.balanced, List.singleton_append,
      closes_close]
  lineEnds hr := by
    obtain hr | hr := List.mem_cons.1 hr
    · exact absurd hr (by decide)
    · exact (List.mem_append.1 hr).elim h.lineEnds (by simp)
  numerals := .cons (by decide) (h.numerals.append (numeralsFit_of_no_digit (by simp)) (by decide))
  form _ := ⟨_, rfl, by rw [h.balanced]; rfl⟩

theorem isWhole_oneLine {head : String} {ps : List (List Char)} (hhead : IsClean head.toList)
    (hps : ∀ p ∈ ps, IsClean p) : IsWhole (oneLine head ps) := by
  have h := (hhead.append (isClean_spread hps) (head?_spread ps)).isWhole_parens
  rwa [List.append_assoc] at h

theorem isWhole_type (t : TypeSpec) : IsWhole t.spelling := by
  cases t with
  | exact t => exact isWhole_symbol t
  | either ts =>
    by_cases hts : ts = []
    · subst hts
      exact (isClean_of_all (s := "either ".toList) (by decide)).isWhole_parens
    · rw [TypeSpec.spelling_either hts]
      refine isWhole_oneLine (isClean_of_all (by decide)) fun p hp => ?_
      obtain ⟨t, -, rfl⟩ := List.mem_map.1 hp
      exact (isWhole_symbol t).toIsClean

section

variable {α : Type} [ToNode α] [Spelled α]

theorem isClean_groupParts (hspelling : ∀ a : α, IsClean (spelling a)) (closing : TypeSpec)
    (groups : List (List α × TypeSpec)) : ∀ p ∈ groupParts closing groups, IsClean p := by
  have hvalues : ∀ vs : List α, ∀ p ∈ vs.map spelling, IsClean p := by
    intro vs p hp
    obtain ⟨a, -, rfl⟩ := List.mem_map.1 hp
    exact hspelling a
  induction groups with
  | nil => simp [groupParts]
  | cons group rest ih =>
    obtain ⟨vs, t⟩ := group
    intro p hp
    unfold groupParts at hp
    split at hp
    · exact hvalues vs p hp
    · obtain hp | hp := List.mem_append.1 hp
      · exact hvalues vs p hp
      obtain rfl | hp := List.mem_cons.1 hp
      · exact isClean_of_all (by decide)
      obtain rfl | hp := List.mem_cons.1 hp
      · exact (isWhole_type t).toIsClean
      · exact ih p hp

theorem isClean_itemParts (hspelling : ∀ a : α, IsClean (spelling a)) (closing : TypeSpec)
    (l : TypedList α) : ∀ p ∈ itemParts closing l, IsClean p :=
  isClean_groupParts hspelling closing (groupsOf l.items)

theorem isWhole_enclosedItems (hspelling : ∀ a : α, IsClean (spelling a)) (l : TypedList α) :
    IsWhole (enclosedItems l) :=
  (isClean_intercalate (isClean_itemParts hspelling .object l)).isWhole_parens

end

/-! ### Rules that take forms -/

namespace Rule

open Grammar

variable {α β : Type} {g h : Rule α} {P : α → Prop}

/-- The rule begins with a parenthesis and stays in its form, and it fails for no other reason than
that something is missing, where all numbers fit. -/
structure TakesForms (g : Rule α) : Prop where
  opens : g.opens = true
  next : g.next .before = some .behind
  flagFree : g.FlagFree
  safe : g.Safe true

theorem takesForms_map {f : α → β} : TakesForms (f <$> g) ↔ g.TakesForms :=
  ⟨fun ⟨hopens, hnext, hflag, hsafe⟩ => ⟨hopens, hnext, flagFree_map.1 hflag, safe_map.1 hsafe⟩,
    fun ⟨hopens, hnext, hflag, hsafe⟩ => ⟨hopens, hnext, flagFree_map.2 hflag, safe_map.2 hsafe⟩⟩

theorem takesForms_or : TakesForms (g <|> h) ↔ g.TakesForms ∧ h.TakesForms := by
  constructor
  · rintro ⟨hopens, hnext, hflag, hsafe⟩
    obtain ⟨hgo, hho⟩ := Bool.and_eq_true_iff.1 (show (g.opens && h.opens) = true from hopens)
    obtain ⟨hgf, hhf⟩ := flagFree_or.1 hflag
    obtain ⟨hgs, hhs⟩ := safe_or.1 hsafe
    have hnext : (if g.next .before = h.next .before then g.next .before else none) =
        some .behind := hnext
    split at hnext
    · rename_i heq
      exact ⟨⟨hgo, hnext, hgf, hgs⟩, ⟨hho, heq ▸ hnext, hhf, hhs⟩⟩
    · cases hnext
  · rintro ⟨hg, hh⟩
    refine ⟨?_, ?_, flagFree_or.2 ⟨hg.flagFree, hh.flagFree⟩, safe_or.2 ⟨hg.safe, hh.safe⟩⟩
    · exact Bool.and_eq_true_iff.2 ⟨hg.opens, hh.opens⟩
    · exact (if_pos (hg.next.trans hh.next.symm)).trans hg.next

theorem takesForms_production {n : Nonterminal α} (hn : n.opens = true) :
    TakesForms n.production :=
  ⟨n.opens_production hn, n.next_production_before, flagFree_production n, safe_production n⟩

theorem takesForms_call {n : Nonterminal α} (hn : n.opens = true) : TakesForms (call n) :=
  ⟨hn, rfl, trivial, rfl⟩

namespace TakesForms

/-- What stands in front of a form and behind it does not matter. -/
theorem alike (hg : g.TakesForms) (hs : Phase.before.Spans 0 s) (levels : Nat)
    (b b' : Option Char) (r r' : List Char) :
    Finding.Alike 0 .behind r r' (g.look levels ⟨b, s ++ r⟩) (g.look levels ⟨b', s ++ r'⟩) :=
  Grammar.alike (fun n => n.forward_denote levels) (fun n => n.alike_denote levels) g hg.next
    (fun _ => rfl) ⟨s, hs, rfl, rfl, .inl rfl⟩

/-- A form that is taken somewhere, with enough levels, is taken everywhere. -/
theorem recovers (hg : g.TakesForms) (hs : Phase.before.Spans 0 s) (hsolid : IsSolid s)
    {levels : Nat} {b : Option Char} {r : List Char} {w : View} {a : α}
    (h : g.look levels ⟨b, s ++ r⟩ = .found w a) : g.Recovers s fun _ => True := by
  refine ⟨hsolid, fun {r'} _ levels' b' => ?_⟩
  by_cases hdeep : g.look levels' ⟨b', s ++ r'⟩ = .tooDeep
  · exact .inl hdeep
  · have hmax := look_of_le (Nat.le_max_left levels levels') h
    have halike := hg.alike hs (max levels levels') b b' r r'
    rw [hmax] at halike
    obtain ⟨⟨before, rest⟩, hfound, z, rfl, -, hrest, -⟩ := halike.eq_found
    obtain rfl : rest = r' := hrest
    rw [look_eq_of_le (Nat.le_max_right levels levels') hdeep] at hfound
    rw [hfound]
    exact Finding.leaves_found trivial

/-- **A rule that begins with a parenthesis takes a form as a whole, or finds nothing.** -/
theorem decides (hg : g.TakesForms) (hs : IsWhole s) (hsolid : IsSolid s) : g.Decides s True := by
  by_cases hopen : s.head? = some '('
  · have hform := hs.form hopen
    -- what is found once, with enough levels, is found everywhere, so the levels need no bound here
    by_cases hfound : ∃ levels b r w a, g.look levels ⟨b, s ++ r⟩ = .found w a
    · obtain ⟨levels, b, r, w, a, h⟩ := hfound
      exact .inl ⟨hg.recovers hform hsolid h, trivial⟩
    · refine .inr ⟨hsolid, fun r _ levels b => ?_⟩
      rcases h : g.look levels ⟨b, s ++ r⟩ with ⟨w, a⟩ | _ | _ | _ | _
      · exact absurd ⟨levels, b, r, w, a, h⟩ hfound
      · exact .inr rfl
      · exact absurd h (flagless_denote (fun n => n.flagless_denote levels) g hg.flagFree _)
      · exact .inl rfl
      · -- the number would be too large in the form alone
        have halike := hg.alike hform levels b none r []
        rw [h, List.append_nil] at halike
        have hne := look_ne_infinite hg.safe hs.numerals (b := none)
          (View.starts_of_before rfl) levels
        rcases h' : g.look levels ⟨none, s⟩ with ⟨w, a⟩ | _ | _ | _ | _ <;> rw [h'] at halike
        · exact halike.elim
        · exact halike.elim
        · exact halike.elim
        · exact halike.elim
        · exact absurd h' hne
  · exact .inr ⟨hsolid, missesText_of_opens hg.opens hsolid hopen⟩

/-- A rule in front of the right one may take a form too. -/
theorem behind (hg : g.TakesForms) (hs : IsWhole s) (hh : h.Recovers s P) :
    Recovers (g <|> h) s fun _ => True := by
  -- `decides` leaves no third case: the first rule takes all of the form or none of it
  obtain ⟨hg, -⟩ | ⟨-, hg⟩ := hg.decides hs hh.solid
  · exact hg.left
  · exact (hh.mono fun _ _ => trivial).behind hg

end TakesForms

end Rule

end Pddl
