import Pddl.Proofs.AppliedTerms
import Pddl.Proofs.Operands

/-!
# Exchanging operands

An operation is an operator and its operands, each behind a separation, up to the closing
parenthesis.  So an operand may be exchanged for another text that is read as the same, if nothing
goes on from the operand in front into that text or from that text into what follows.

* `Finding.Reaches` : a construct is found, or the levels are used up where that may be.
* `Rule.Elements` : the elements up to a closing parenthesis, one view behind the other.
* `Rule.Exchanges` : other characters are read as the same construct.
* `Rule.Elements.exchange` : **elements remain the same if one of them is exchanged.**
* `Rule.Within.exchange` : **an operation remains the same if an operand inside is exchanged.**
-/

namespace Pddl

/-! ### Findings that may be too deep -/

namespace Finding

variable {α β : Type} {deep : Prop} {w w' : View} {a : α} {b : β} {o o' : Finding α}

/-- The construct is found up to the view, unless the levels are used up and that may be. -/
def Reaches (deep : Prop) (w : View) (a : α) (o : Finding α) : Prop :=
  o = .found w a ∨ deep ∧ o = .tooDeep

theorem reaches_found (w : View) (a : α) : (found w a).Reaches deep w a := .inl rfl

theorem reaches_false : o.Reaches False w a ↔ o = .found w a := by simp [Reaches]

theorem Reaches.andThen {k : View → α → Finding β} (h : o.Reaches deep w a)
    (hk : (k w a).Reaches deep w' b) : (o.andThen k).Reaches deep w' b := by
  obtain rfl | ⟨hdeep, rfl⟩ := h
  · exact hk
  · exact .inr ⟨hdeep, rfl⟩

theorem Reaches.orElse (h : o.Reaches deep w a) : (o.orElse o').Reaches deep w a := by
  obtain rfl | ⟨hdeep, rfl⟩ := h
  · exact .inl rfl
  · exact .inr ⟨hdeep, rfl⟩

theorem Reaches.of_missing (ho : o = .missing) (h : o'.Reaches deep w a) :
    (o.orElse o').Reaches deep w a := by
  rwa [ho]

end Finding

/-! ### Separations -/

namespace Spacing

/-- Spacing and other spacing behind it. -/
def append (s t : Spacing) : Spacing where
  chars := s.chars ++ t.chars
  blank := by rw [s.blankLength_append, t.blank, List.length_append]
  closed := by rw [leavesComment_append, s.closed, t.closed]

/-- Spacing makes no difference to what stands behind blanks. -/
theorem rest_skipBlanks_append (s : Spacing) {v w : View} (h : w.rest = s.chars ++ v.rest) :
    w.skipBlanks.rest = v.skipBlanks.rest := by
  simp [View.skipBlanks, h, s.blankLength_append]

end Spacing

/-- The second characters are set off from the first ones: by a blank or by a parenthesis. -/
def SetOff (p s : List Char) : Prop := p.getLast?.any isBlank = true ∨ s.head? = some '('

namespace SetOff

variable {p q s : List Char}

/-- What is set off is so from the last part of the characters in front. -/
theorem of_ne_nil (h : SetOff (p ++ q) s) (hq : q ≠ []) : SetOff q s :=
  h.imp_left fun hblank => by rwa [List.getLast?_append_of_ne_nil _ hq] at hblank

/-- What is set off is so from what stands behind something other than a blank. -/
theorem of_append (h : SetOff (p ++ q) s) (hp : p.getLast?.any isWideBlank = false) :
    SetOff q s := by
  by_cases hq : q = []
  · refine h.imp_left fun hblank => ?_
    rw [hq, List.append_nil] at hblank
    rcases hl : p.getLast? with _ | c
    · rw [hl] at hblank
      cases hblank
    · have hc := isWideBlank_of_isBlank (c := c) (by simpa [hl] using hblank)
      rw [hl, Option.any_some, hc] at hp
      cases hp
  · exact h.of_ne_nil hq

end SetOff

namespace View

variable {u v w : View} {p q s t r r' : List Char} {b : Option Char} {front : Spacing}

/-- Where something stands behind blanks, these are spacing. -/
theorem exists_spacing (h : v.skipBlanks.rest ≠ []) :
    ∃ s : Spacing, v.rest = s.chars ++ v.skipBlanks.rest := by
  rw [skipBlanks, rest_advance] at h ⊢
  refine ⟨⟨v.rest.take (blankLength false v.rest), ?_, leavesComment_of_drop_ne_nil h⟩,
    (List.take_append_drop _ _).symm⟩
  have hblank := blankLength_take_append false v.rest []
  rw [List.append_nil] at hblank
  rw [hblank, blankLength, Nat.add_zero, List.length_take, Nat.min_eq_left (blankLength_le _ _)]

theorem Closes.separates (h : v.Closes w) : v.separates = true := by
  obtain ⟨r, hr, -⟩ := h
  by_cases hb : blankLength false v.rest = 0
  · rw [skipBlanks, hb, advance_zero] at hr
    simp [View.separates, hr]
  · simp [View.separates, Nat.pos_of_ne_zero hb]

/-- A parenthesis is closed behind other spacing, too. -/
theorem Closes.behind_spacing (h : v.Closes w) {u : View} {s : Spacing}
    (hu : u.rest = s.chars ++ v.rest) : u.Closes w := by
  obtain ⟨r, hr, rfl⟩ := h
  exact ⟨r, (s.rest_skipBlanks_append hu).trans hr, rfl⟩

/-- Behind a parenthesis and spacing stands the same text, whatever follows it. -/
theorem exists_inside (hopen : v.rest.head? = some '(') (ht : IsSolid t)
    (hinside : v.inside.rest = t ++ r) : ∃ gap : Spacing, v.rest = '(' :: (gap.chars ++ (t ++ r)) ∧
      ∀ b r, ∃ b', inside ⟨b, '(' :: (gap.chars ++ (t ++ r))⟩ = ⟨b', t ++ r⟩ := by
  obtain ⟨c, hc⟩ := List.head?_eq_some_iff.1 hopen
  obtain ⟨d, ds, hd, -⟩ := ht.append r
  obtain ⟨gap, hgap⟩ := exists_spacing (v := ⟨some '(', v.rest.tail⟩) (by
    rw [show (skipBlanks _).rest = _ from hinside, hd]
    exact List.cons_ne_nil d ds)
  rw [show (skipBlanks _).rest = _ from hinside, hc] at hgap
  exact ⟨gap, by rw [hc, show c = _ from hgap], fun b r =>
    gap.exists_skipBlanks (blankLength_of_isSolid (ht.append r)) (some '(')⟩

/-- What stands in front of a place stands in front of an earlier one or between them. -/
theorem eq_append_of_rest (hp : v.rest = p ++ w.rest) (hq : v.rest = q ++ u.rest)
    (hr : u.rest = r ++ w.rest) : p = q ++ r := by
  have hrest : p ++ w.rest = (q ++ r) ++ w.rest := by rw [← hp, hq, hr, List.append_assoc]
  exact List.append_cancel_right hrest

/-- Between a parenthesis and a place behind it stands something. -/
theorem ne_nil_of_inside (hopen : v.rest.head? = some '(') (hx : w.rest <:+ v.inside.rest)
    (hp : v.rest = p ++ w.rest) : p ≠ [] := by
  rintro rfl
  obtain ⟨c, hc⟩ := List.head?_eq_some_iff.1 hopen
  have hinside : v.inside.rest.length ≤ v.rest.tail.length :=
    (View.path_suffix.skipBlanks ⟨some '(', v.rest.tail⟩).length_le
  have hlength := hx.length_le
  rw [List.nil_append] at hp
  rw [← hp] at hlength
  rw [hc, List.tail_cons] at hinside
  rw [hc, List.length_cons] at hlength
  omega

/-- Whether a solid text is separated depends on what stands in front of it. -/
theorem separates_append (s : Spacing) (ht : IsSolid t) :
    separates ⟨b, s.chars ++ (t ++ r)⟩ = separates ⟨b, s.chars ++ (t ++ r')⟩ := by
  have hlength : ∀ r, blankLength false (s.chars ++ (t ++ r)) = s.chars.length := fun r => by
    rw [s.blankLength_append, blankLength_of_isSolid (ht.append r), Nat.add_zero]
  have hhead : ∀ r, (s.chars ++ (t ++ r)).head? = (s.chars ++ t).head? := fun r => by
    obtain ⟨c, cs, rfl, -⟩ := ht
    rcases s.chars with _ | ⟨d, ds⟩ <;> rfl
  simp only [separates, hlength, hhead]

/-- What stands behind spacing or begins with a parenthesis is separated. -/
theorem separates_of_opens (s : Spacing) (h : s.chars ≠ [] ∨ t.head? = some '(') :
    separates ⟨b, s.chars ++ t⟩ = true := by
  by_cases hs : s.chars = []
  · obtain ⟨r, rfl⟩ := List.head?_eq_some_iff.1 (h.resolve_left (not_not_intro hs))
    simp [separates, hs]
  · exact s.separates hs rfl

/-- Behind blanks, characters that are set off are separated from what is in front. -/
theorem exists_skipBlanks_setOff (hv : v.skipBlanks.rest ≠ []) (hs : IsSolid s)
    (hp : v.rest = p ++ v.skipBlanks.rest) (hoff : SetOff (p ++ front.chars) s) (b : Option Char) :
    separates ⟨b, p ++ (front.chars ++ s)⟩ = true ∧
      ∃ b', skipBlanks ⟨b, p ++ (front.chars ++ s)⟩ = ⟨b', s⟩ := by
  obtain ⟨gap, hgap⟩ := exists_spacing hv
  obtain rfl : gap.chars = p := List.append_cancel_right (hgap.symm.trans hp)
  rw [← List.append_assoc]
  refine ⟨separates_of_opens (gap.append front) (hoff.imp_left fun hblank hnil => ?_),
    (gap.append front).exists_skipBlanks (blankLength_of_isSolid hs) b⟩
  rw [show gap.chars ++ front.chars = [] from hnil] at hblank
  cases hblank

/-- A closing parenthesis in front or a delimiter behind separates. -/
theorem separates_of_delimited (h : v.before = some ')' ∨ Delimited v.rest)
    (hv : v.skipBlanks.rest ≠ []) : v.separates = true := by
  obtain h | h := h
  · simp [separates, h]
  · obtain ⟨b, rest⟩ := v
    rcases rest with _ | ⟨c, rest⟩
    · exact absurd rfl hv
    · obtain rfl | hc := h c rfl
      · simp [separates]
      · simp [separates, blankLength, hc]

/-- Behind a text that is separated from what follows, nothing goes on. -/
theorem parted_of_separates (hlast : t.getLast?.any isWideBlank = false)
    (hv : v.before = t.getLast?) (hsep : v.separates = true) : Parted t v.rest := by
  by_cases hclose : t.getLast? = some ')'
  · exact .inl hclose
  refine .inr ?_
  obtain ⟨b, rest⟩ := v
  obtain rfl : b = t.getLast? := hv
  have hbefore : t.getLast?.any (fun c => c == ')' || isWideBlank c) = false := by
    rcases hl : t.getLast? with _ | c
    · rfl
    · have hne : c ≠ ')' := fun hc => hclose (hl.trans (congrArg some hc))
      simpa [hne, hl] using hlast
  rcases rest with _ | ⟨c, rest⟩
  · rfl
  simp only [separates, hbefore, Bool.or_false, List.head?_cons, Option.any_some, Bool.or_eq_true,
    decide_eq_true_eq, beq_iff_eq] at hsep ⊢
  obtain hblank | rfl | rfl := hsep
  · simp only [blankLength, Bool.false_eq_true, ↓reduceIte] at hblank
    split at hblank
    · exact endsAtSpacing_goesOn.blank c ‹_›
    · split at hblank
      · rename_i hc
        rw [beq_iff_eq] at hc
        rw [hc]
        exact endsAtSpacing_goesOn.comment
      · exact absurd hblank (Nat.lt_irrefl 0)
  all_goals decide

end View

namespace Rule

open Grammar

variable {α β ρ : Type} {levels : Nat} {deep : Prop} {g : Rule α} {u v w x y y' : View} {a : α}
  {as : List α} {front back : Spacing} {s p q t r : List Char}

theorem reaches_map {f : α → β} (h : (g.look levels v).Reaches deep w a) :
    (look levels (f <$> g) v).Reaches deep w (f a) := h.andThen (Finding.reaches_found w (f a))

/-! ### Elements -/

/-- On the given levels, the rule takes a text of its own wherever it finds something, and it finds
nothing in front of a closing parenthesis. -/
structure IsElement (levels : Nat) (g : Rule α) : Prop where
  takes : ∀ {v w a}, g.look levels v = .found w a → TakesBetween levels g v w a
  close : ∀ {v : View}, v.rest.head? = some ')' → g.look levels v = .missing

/-- Elements stand behind the view, each behind a separation, up to a closing parenthesis with the
other view behind it. -/
inductive Elements (deep : Prop) (levels : Nat) (g : Rule α) : View → View → List α → Prop where
  | nil {v w : View} (hclose : v.Closes w) : Elements deep levels g v w []
  | cons {v u w : View} {a : α} {as : List α} (hsep : v.separates = true)
    (ha : (g.look levels v.skipBlanks).Reaches deep u a) (has : Elements deep levels g u w as) :
    Elements deep levels g v w (a :: as)

/-- The other view is where an element begins. -/
inductive ElementAt (levels : Nat) (g : Rule α) : View → View → Prop where
  | first {v : View} (hsep : v.separates = true) : ElementAt levels g v v.skipBlanks
  | behind {v u x : View} {a : α} (hsep : v.separates = true)
    (ha : g.look levels v.skipBlanks = .found u a) (hx : ElementAt levels g u x) :
    ElementAt levels g v x

/-- Other characters may stand in the place of an element behind which the view is left: they are
read as the same construct, and then comes spacing. -/
structure Exchanges (deep : Prop) (levels : Nat) (g : Rule α) (y : View) (a : α) (s : List Char) :
    Prop where
  solid : IsSolid s
  look : ∃ (y' : View) (back : Spacing), (∀ b, (g.look levels ⟨b, s⟩).Reaches deep y' a) ∧
    y'.rest = back.chars ++ y.rest ∧ (y'.before = some ')' ∨ Delimited y'.rest)

theorem IsElement.length_lt (hg : g.IsElement levels) (h : g.look levels v = .found w a) :
    w.rest.length < v.rest.length := by
  obtain ⟨t, ht, -, htakes⟩ := hg.takes h
  obtain ⟨c, cs, rfl, -⟩ := htakes.solid
  rw [ht]
  simp only [List.cons_append, List.length_cons, List.length_append]
  omega

theorem IsElement.ne_nil (hg : g.IsElement levels) (h : g.look levels v = .found w a) :
    v.rest ≠ [] := List.ne_nil_of_length_pos (Nat.zero_lt_of_lt (hg.length_lt h))

/-- An element is found again if other characters follow that are separated from it. -/
theorem IsElement.exists_look_behind (hg : g.IsElement levels) (hsep : v.separates = true)
    (ha : g.look levels v.skipBlanks = .found u a) :
    ∃ p, v.rest = p ++ u.rest ∧ p.getLast?.any isWideBlank = false ∧
      ∀ {r}, View.separates ⟨u.before, r⟩ = true →
        View.separates ⟨v.before, p ++ r⟩ = true ∧
          g.look levels (View.skipBlanks ⟨v.before, p ++ r⟩) = .found ⟨u.before, r⟩ a := by
  obtain ⟨t, ht, hu, htakes⟩ := hg.takes ha
  obtain ⟨gap, hgap⟩ := View.exists_spacing (hg.ne_nil ha)
  have hne : t ≠ [] := by
    obtain ⟨c, cs, rfl, -⟩ := htakes.solid
    exact List.cons_ne_nil c cs
  rw [ht] at hgap
  refine ⟨gap.chars ++ t, by rw [hgap, List.append_assoc], ?_, fun {r} hr => ?_⟩
  · rw [List.getLast?_append_of_ne_nil _ hne]
    exact htakes.last
  · have hparted : Parted t r := View.parted_of_separates (v := ⟨u.before, r⟩) htakes.last hu hr
    obtain ⟨b, hskip⟩ :=
      gap.exists_skipBlanks (blankLength_of_isSolid (htakes.solid.append r)) v.before
    rw [show v = ⟨v.before, gap.chars ++ (t ++ u.rest)⟩ from congrArg (View.mk _) hgap,
      View.separates_append gap htakes.solid] at hsep
    rw [List.append_assoc]
    exact ⟨hsep, by rw [hskip, htakes.look b r hparted, hu]⟩

/-- An element is found again behind other spacing. -/
theorem IsElement.separated_behind_spacing (hg : g.IsElement levels)
    (ha : Reader.separated (g.look levels) y = .found u a) (hu : u.separates = true)
    (hy : y'.rest = back.chars ++ y.rest) (hback : y'.before = some ')' ∨ Delimited y'.rest) :
    Reader.separated (g.look levels) y' = .found u a := by
  obtain ⟨-, ha⟩ := Reader.separated_eq_found.1 ha
  have hskip := back.rest_skipBlanks_append hy
  obtain ⟨t, ht, hbefore, htakes⟩ := hg.takes ha
  have hne : y'.skipBlanks.rest ≠ [] := hskip ▸ hg.ne_nil ha
  have hview : y'.skipBlanks = ⟨y'.skipBlanks.before, t ++ u.rest⟩ :=
    congrArg (View.mk _) (hskip.trans ht)
  refine Reader.separated_eq_found.2 ⟨View.separates_of_delimited hback hne, ?_⟩
  rw [hview, htakes.look _ _ (View.parted_of_separates htakes.last hbefore hu), ← hbefore]

theorem ElementAt.suffix (h : ElementAt levels g v x) : x.rest <:+ v.rest := by
  induction h with
  | first hsep => exact View.path_suffix.skipBlanks _
  | behind hsep ha hx ih =>
    exact ih.trans ((forward_look g levels ha).trans (View.path_suffix.skipBlanks _))

namespace Elements

theorem separates (h : Elements deep levels g v w as) : v.separates = true := by
  cases h with
  | nil hclose => exact hclose.separates
  | cons hsep ha has => exact hsep

theorem before (h : Elements deep levels g v w as) : w.before = some ')' := by
  induction h with
  | nil hclose =>
    obtain ⟨r, -, rfl⟩ := hclose
    rfl
  | cons hsep ha has ih => exact ih

theorem of_exact (h : Elements False levels g v w as) : Elements deep levels g v w as := by
  induction h with
  | nil hclose => exact .nil hclose
  | cons hsep ha has ih => exact .cons hsep (.inl (Finding.reaches_false.1 ha)) ih

theorem of_more {z : View} (h : Reader.more (g.look levels) v = .found u as) (hclose : u.Closes z) :
    Elements False levels g v z as := by
  induction as generalizing v with
  | nil =>
    obtain ⟨-, rfl⟩ | ⟨_, _, _, hcons, -⟩ := more_eq_found (forward_look g levels) h
    · exact .nil hclose
    · cases hcons
  | cons a as ih =>
    obtain ⟨hnil, -⟩ | ⟨_, _, x, hcons, hx, hmore⟩ := more_eq_found (forward_look g levels) h
    · cases hnil
    · obtain ⟨rfl, rfl⟩ := List.cons.inj hcons
      obtain ⟨hsep, hx⟩ := Reader.separated_eq_found.1 hx
      exact .cons hsep (.inl hx) (ih hmore)

theorem of_separated_many {z : View}
    (h : Reader.separated (look levels (many g)) v = .found u as) (hclose : u.Closes z) :
    Elements False levels g v z as := by
  obtain ⟨hsep, h⟩ := Reader.separated_eq_found.1 h
  obtain ⟨rfl, rfl⟩ | ⟨a, as', x, rfl, hx, hmore⟩ := look_many_eq_found h
  · obtain ⟨r, hr, rfl⟩ := hclose
    exact .nil ⟨r, by rwa [View.skipBlanks_skipBlanks] at hr, rfl⟩
  · exact .cons hsep (.inl hx) (of_more hmore hclose)

/-- Each of the elements stands somewhere. -/
theorem exists_elementAt (h : Elements False levels g v w as) (ha : a ∈ as) :
    ∃ x y, ElementAt levels g v x ∧ g.look levels x = .found y a := by
  induction h with
  | nil hclose => cases ha
  | cons hsep hb has ih =>
    have hb := Finding.reaches_false.1 hb
    obtain rfl | ha := List.mem_cons.1 ha
    · exact ⟨_, _, .first hsep, hb⟩
    · obtain ⟨x, y, hat, hx⟩ := ih ha
      exact ⟨x, y, .behind hsep hb hat, hx⟩

variable (hg : g.IsElement levels)

include hg

theorem reaches_closed_more (h : Elements deep levels g v w as) :
    (look levels (closed (.more g)) v).Reaches deep w as := by
  induction h with
  | nil hclose =>
    rw [look_closed_more, look_optional, Reader.opt, Reader.separated, if_pos hclose.separates,
      hg.close hclose.head?]
    exact .inl (look_noElements_of_closes hclose)
  | @cons v u w a as hsep ha has ih =>
    rw [look_closed_more, look_optional, Reader.opt, Reader.separated, if_pos hsep]
    obtain ha | ⟨hdeep, ha⟩ := ha <;> rw [ha]
    · have hlt := hg.length_lt ha
      have hle := (View.path_suffix.skipBlanks v).length_le
      simp only [Finding.andThen, Finding.orElse]
      rw [if_neg (by omega)]
      exact ih.andThen (Finding.reaches_found w (a :: as))
    · exact .inr ⟨hdeep, rfl⟩

theorem reaches_closed_many (h : Elements deep levels g v w as) :
    (look levels (closed (separated (many g))) v).Reaches deep w as := by
  rw [look_closed_separated, Reader.separated, if_pos h.separates, look_closed_many,
    show look levels (.opt g) v.skipBlanks = Reader.opt (g.look levels) v.skipBlanks from rfl,
    Reader.opt]
  cases h with
  | nil hclose =>
    rw [hg.close hclose.head?]
    obtain ⟨r, hr, rfl⟩ := hclose
    exact .inl (look_noElements_of_closes ⟨r, by rwa [View.skipBlanks_skipBlanks], rfl⟩)
  | cons hsep ha has =>
    obtain ha | ⟨hdeep, ha⟩ := ha <;> rw [ha]
    · exact (has.reaches_closed_more hg).andThen (Finding.reaches_found _ _)
    · exact .inr ⟨hdeep, rfl⟩

/-- Elements remain the same if they stand behind other spacing. -/
theorem behind_spacing (h : Elements False levels g y w as)
    (hy : y'.rest = back.chars ++ y.rest) (hback : y'.before = some ')' ∨ Delimited y'.rest) :
    Elements deep levels g y' w as := by
  cases h with
  | nil hclose => exact .nil (hclose.behind_spacing hy)
  | cons hsep ha has =>
    obtain ⟨hsep, ha⟩ := Reader.separated_eq_found.1 (hg.separated_behind_spacing
      (Reader.separated_eq_found.2 ⟨hsep, Finding.reaches_false.1 ha⟩) has.separates hy hback)
    exact .cons hsep (.inl ha) has.of_exact

/-- **Elements remain the same if one of them is exchanged.** -/
theorem exchange (h : Elements False levels g v w as) (hat : ElementAt levels g v x)
    (hx : g.look levels x = .found y a) (hs : Exchanges deep levels g y a s)
    (hp : v.rest = p ++ x.rest) (hoff : SetOff (p ++ front.chars) s) :
    Elements deep levels g ⟨v.before, p ++ (front.chars ++ s)⟩ w as := by
  induction hat generalizing p as with
  | @first v hsep =>
    cases h with
    | nil hclose => cases (hg.close hclose.head?).symm.trans hx
    | cons hsep ha has =>
      obtain ⟨rfl, rfl⟩ := Finding.found.inj ((Finding.reaches_false.1 ha).symm.trans hx)
      obtain ⟨y', back, hlook, hrest, hback⟩ := hs.look
      obtain ⟨hsep, b, hskip⟩ :=
        View.exists_skipBlanks_setOff (hg.ne_nil hx) hs.solid hp hoff v.before
      exact .cons hsep (hskip ▸ hlook b) (has.behind_spacing hg hrest hback)
  | @behind v u x b hsep ha hat ih =>
    cases h with
    | nil hclose => cases (hg.close hclose.head?).symm.trans ha
    | cons _ hb has =>
      obtain ⟨rfl, rfl⟩ := Finding.found.inj (ha.symm.trans (Finding.reaches_false.1 hb))
      obtain ⟨q, hq⟩ := hat.suffix
      obtain ⟨p', hp', hlast, hlook⟩ := hg.exists_look_behind hsep ha
      obtain rfl : p = p' ++ q := View.eq_append_of_rest hp hp' hq.symm
      rw [List.append_assoc] at hoff ⊢
      have has := ih has hx hq.symm (hoff.of_append hlast)
      obtain ⟨hsep, hfound⟩ := hlook has.separates
      exact .cons hsep (.inl hfound) has

end Elements

/-! ### Two elements -/

section

variable {h : Rule β} {z : View} {c : β}

/-- Of two elements, the first one may be exchanged. -/
theorem exists_exchanged_first (hh : h.IsElement levels) (hne : x.skipBlanks.rest ≠ [])
    (hs : Exchanges False levels g y a s) (hc : Reader.separated (h.look levels) y = .found z c)
    (hz : z.separates = true) (hp : x.rest = p ++ x.skipBlanks.rest)
    (hoff : SetOff (p ++ front.chars) s) :
    View.separates ⟨x.before, p ++ (front.chars ++ s)⟩ = true ∧ ∃ y',
      g.look levels (View.skipBlanks ⟨x.before, p ++ (front.chars ++ s)⟩) = .found y' a ∧
      Reader.separated (h.look levels) y' = .found z c := by
  obtain ⟨y', back, hlook, hrest, hback⟩ := hs.look
  obtain ⟨hsep, b, hskip⟩ := View.exists_skipBlanks_setOff hne hs.solid hp hoff x.before
  exact ⟨hsep, y', hskip ▸ Finding.reaches_false.1 (hlook b),
    hh.separated_behind_spacing hc hz hrest hback⟩

/-- Of two elements, the second one may be exchanged. -/
theorem exists_exchanged_second (hg : g.IsElement levels) (hsep : x.separates = true)
    (ha : g.look levels x.skipBlanks = .found y a) (hne : y.skipBlanks.rest ≠ [])
    (hs : Exchanges deep levels h z c s) (hp : x.rest = p ++ y.skipBlanks.rest)
    (hoff : SetOff (p ++ front.chars) s) :
    View.separates ⟨x.before, p ++ (front.chars ++ s)⟩ = true ∧ ∃ (y' z' : View) (back : Spacing),
      g.look levels (View.skipBlanks ⟨x.before, p ++ (front.chars ++ s)⟩) = .found y' a ∧
      (Reader.separated (h.look levels) y').Reaches deep z' c ∧ z'.rest = back.chars ++ z.rest := by
  obtain ⟨q, hq, hlast, hlook⟩ := hg.exists_look_behind hsep ha
  obtain ⟨gap, hgap⟩ := View.exists_spacing hne
  obtain rfl : p = q ++ gap.chars := View.eq_append_of_rest hp hq hgap
  rw [List.append_assoc] at hoff ⊢
  obtain ⟨z', back, hz, hrest, -⟩ := hs.look
  obtain ⟨hsep, b, hskip⟩ :=
    View.exists_skipBlanks_setOff hne hs.solid hgap (hoff.of_append hlast) y.before
  obtain ⟨hfront, hfound⟩ := hlook hsep
  refine ⟨hfront, _, z', back, hfound, ?_, hrest⟩
  rw [Reader.separated, if_pos hsep, hskip]
  exact hz b

end

/-! ### Operations -/

/-- Where a word is found, it stands between the views. -/
theorem rest_of_look_word {c : String} (hc : IsWord c)
    (h : look levels (word c) v = .found x ()) :
    v.rest = c.toList ++ x.rest ∧ x.before = c.toList.getLast? := by
  obtain ⟨r, hv, hx⟩ := exists_of_look_word hc h
  obtain ⟨d, ds, hd, -⟩ := (isHead_of_isWord hc).solid
  rw [hv, View.advance_append (hd ▸ List.cons_ne_nil d ds)] at hx
  rw [hv, hx]
  exact ⟨rfl, rfl⟩

/-- Where a word of a vocabulary is found, it stands between the views. -/
theorem rest_of_look_keyword {ω : Type} [Vocabulary ω] [PlainVocabulary ω] {op : ω}
    (h : look levels (keyword ω) v = .found x op) :
    v.rest = (Vocabulary.keyword op).toList ++ x.rest ∧
      x.before = (Vocabulary.keyword op).toList.getLast? := by
  obtain ⟨n, hn, rfl⟩ := keywordLength?_of_look_keyword h
  have hword : look levels (word (Vocabulary.keyword op)) v = .found (v.advance n) () := by
    rw [look_word_eq, hn]
    rfl
  exact rest_of_look_word (PlainVocabulary.isWord op) hword

/-- A word ends in neither a blank nor a closing parenthesis. -/
theorem getLast?_of_isWord {c : String} (hc : IsWord c) :
    c.toList.getLast?.any isWideBlank = false ∧ c.toList.getLast? ≠ some ')' := by
  obtain ⟨d, ds, hd, -⟩ := (isHead_of_isWord hc).solid
  have hne : c.toList ≠ [] := hd ▸ List.cons_ne_nil d ds
  have hmem := List.getLast_mem hne
  have hplain : isPlain (c.toList.getLast hne) = true := List.all_eq_true.1 hc.1.1 _ hmem
  rw [List.getLast?_eq_some_getLast hne]
  refine ⟨isWideBlank_of_mem_wordsOf (by rw [hc.2]; exact List.mem_singleton_self _) hmem, ?_⟩
  intro h
  rw [Option.some.inj h] at hplain
  exact absurd hplain (by decide)

/-- Behind a parenthesis and spacing stands the same word, whatever follows it. -/
theorem exists_inside_word {c : String} (hc : IsWord c) (hopen : v.rest.head? = some '(')
    (hinside : v.inside.rest = c.toList ++ r) :
    ∃ p, v.rest = p ++ r ∧ p.head? = some '(' ∧ p.getLast?.any isWideBlank = false ∧
      ∀ b r, ∃ b', View.inside ⟨b, p ++ r⟩ = ⟨b', c.toList ++ r⟩ := by
  have hsolid := (isHead_of_isWord hc).solid
  obtain ⟨gap, hgap, hskip⟩ := View.exists_inside hopen hsolid hinside
  refine ⟨'(' :: gap.chars ++ c.toList, by simp [hgap], rfl, ?_, fun b r => ?_⟩
  · obtain ⟨d, ds, hd, -⟩ := hsolid
    rw [List.getLast?_append_of_ne_nil _ (hd ▸ List.cons_ne_nil d ds)]
    exact (getLast?_of_isWord hc).1
  · obtain ⟨b', hb'⟩ := hskip b r
    exact ⟨b', by rw [← hb', List.append_assoc, List.cons_append]⟩

/-- No name goes on behind a word that is separated from what follows. -/
theorem any_isNameChar_of_separates {c : String} (hc : IsWord c) (hv : v.before = c.toList.getLast?)
    (hsep : v.separates = true) : v.rest.head?.any isNameChar = false := by
  obtain ⟨hlast, hclose⟩ := getLast?_of_isWord hc
  exact any_isNameChar_of_goesOn ((View.parted_of_separates hlast hv hsep).resolve_left hclose)

/-- Behind a parenthesis, a word is found again if other characters follow that are separated from
it. -/
theorem exists_look_word_inside {c : String} (hc : IsWord c) (hopen : v.rest.head? = some '(')
    (h : look levels (word c) v.inside = .found x ()) :
    ∃ p, v.rest = p ++ x.rest ∧ p.head? = some '(' ∧ p.getLast?.any isWideBlank = false ∧ ∀ b {r},
      View.separates ⟨x.before, r⟩ = true →
        look levels (word c) (View.inside ⟨b, p ++ r⟩) = .found ⟨x.before, r⟩ () := by
  obtain ⟨hinside, hbefore⟩ := rest_of_look_word hc h
  obtain ⟨p, hp, hhead, hlast, hview⟩ := exists_inside_word hc hopen hinside
  refine ⟨p, hp, hhead, hlast, fun b r hsep => ?_⟩
  obtain ⟨b', hb'⟩ := hview b r
  obtain ⟨d, ds, hd, -⟩ := (isHead_of_isWord hc).solid
  have hname := any_isNameChar_of_separates (v := ⟨x.before, r⟩) hc hbefore hsep
  rw [hb', look_word_eq, keywordLength?_append_self hc hname, Option.map_some, Finding.lexeme,
    View.advance_append (hd ▸ List.cons_ne_nil d ds), hbefore]

/-- Behind a parenthesis, a word of a vocabulary is found again if other characters follow that are
separated from it. -/
theorem exists_look_keyword_inside {ω : Type} [Vocabulary ω] [PlainVocabulary ω]
    (hfree : ∀ x y : ω, (Vocabulary.keyword x).toList <+: (Vocabulary.keyword y).toList → x = y)
    {op : ω} (hopen : v.rest.head? = some '(')
    (h : look levels (keyword ω) v.inside = .found x op) :
    ∃ p, v.rest = p ++ x.rest ∧ p.head? = some '(' ∧ p.getLast?.any isWideBlank = false ∧ ∀ b {r},
      View.separates ⟨x.before, r⟩ = true →
        look levels (keyword ω) (View.inside ⟨b, p ++ r⟩) = .found ⟨x.before, r⟩ op := by
  obtain ⟨hinside, hbefore⟩ := rest_of_look_keyword h
  have hword : IsWord (Vocabulary.keyword op) := PlainVocabulary.isWord op
  obtain ⟨p, hp, hhead, hlast, hview⟩ := exists_inside_word hword hopen hinside
  refine ⟨p, hp, hhead, hlast, fun b r hsep => ?_⟩
  obtain ⟨b', hb'⟩ := hview b r
  have hname := any_isNameChar_of_separates (v := ⟨x.before, r⟩) hword hbefore hsep
  rw [hb', look_keyword_append hfree op hname, hbefore]

section

variable {operand : Rule (Expression ρ)} {z : View} {e : Expression ρ} {op : ArithmeticOp}
  {es : List (Expression ρ)}

/-- Arithmetic is an operator and operands that it can be applied to. -/
theorem exists_of_look_arithmetic (h : (arithmetic operand).look levels v = .found z e) :
    v.rest.head? = some '(' ∧ ∃ op x e₁ es,
      look levels (keyword ArithmeticOp) v.inside = .found x op ∧
      Elements False levels operand x z (e₁ :: es) ∧
      Expression.ofOperands (op, e₁, es) = .ok e := by
  obtain ⟨⟨op, e₁, es⟩, h, he⟩ := Reader.refine_eq_found.1 h
  obtain ⟨hopen, u, hu, hclose⟩ := look_parens_eq_found.1 h
  obtain ⟨x, hop, hx⟩ := look_pair_eq_found.1 hu
  obtain ⟨hsep, hx⟩ := Reader.separated_eq_found.1 hx
  obtain ⟨y, hy, hmany⟩ := look_pair_eq_found.1 hx
  exact ⟨hopen, op, x, e₁, es, hop, .cons hsep (.inl hy) (.of_separated_many hmany hclose), he⟩

/-- An operator and operands that it can be applied to are read as arithmetic. -/
theorem reaches_arithmetic (hg : operand.IsElement levels) {e₁ : Expression ρ}
    (hopen : v.rest.head? = some '(')
    (hop : look levels (keyword ArithmeticOp) v.inside = .found x op)
    (h : Elements deep levels operand x z (e₁ :: es))
    (he : Expression.ofOperands (op, e₁, es) = .ok e) :
    ((arithmetic operand).look levels v).Reaches deep z e := by
  have hoperands : (look levels (closed (separated (pair operand (many operand)))) x).Reaches deep z
      (e₁, es) := by
    rw [look_closed_separated, Reader.separated, if_pos h.separates, look_closed_pair]
    cases h with
    | cons hsep ha has =>
      exact ha.andThen ((has.reaches_closed_many hg).andThen (Finding.reaches_found _ _))
  refine Finding.Reaches.andThen (w := z) (a := (op, e₁, es)) ?_ ?_
  · show (look levels (parens _) v).Reaches deep z _
    rw [look_parens_closed hopen, look_closed_pair, hop]
    exact hoperands.andThen (Finding.reaches_found _ _)
  · rw [he]
    exact Finding.reaches_found _ _

/-- **An operation remains the same if one of its operands is exchanged.** -/
theorem exchange_operand (hg : operand.IsElement levels)
    (h : (arithmetic operand).look levels v = .found z e)
    (hop : look levels (keyword ArithmeticOp) v.inside = .found x op)
    (hat : ElementAt levels operand x u) {e₁ : Expression ρ}
    (hu : operand.look levels u = .found y e₁) (hs : Exchanges deep levels operand y e₁ s)
    (hp : v.rest = p ++ u.rest) (hoff : SetOff (p ++ front.chars) s) :
    p.head? = some '(' ∧
      ∀ b, ((arithmetic operand).look levels ⟨b, p ++ (front.chars ++ s)⟩).Reaches deep z e := by
  obtain ⟨hopen, op', x', e₂, es, hop', helements, he⟩ := exists_of_look_arithmetic h
  obtain ⟨rfl, rfl⟩ := Finding.found.inj (hop.symm.trans hop')
  obtain ⟨q, hq⟩ := hat.suffix
  obtain ⟨p', hp', hhead, hlast, hkeyword⟩ :=
    exists_look_keyword_inside eq_of_prefix_arithmeticOp hopen hop
  obtain ⟨c, rfl⟩ := List.head?_eq_some_iff.1 hhead
  obtain rfl : p = '(' :: c ++ q := View.eq_append_of_rest hp hp' hq.symm
  rw [List.append_assoc] at hoff ⊢
  have hexchanged := helements.exchange hg hat hu hs hq.symm (hoff.of_append hlast)
  exact ⟨rfl, fun b => reaches_arithmetic hg rfl (hkeyword b hexchanged.separates) hexchanged he⟩

end

/-! ### Operands inside operands -/

section

variable {n : Nonterminal (Expression ρ)} {k : Nat} {z : View} {op : ArithmeticOp}
  {e e₁ : Expression ρ}

/-- The operand that begins at the second view, with so many levels left, is the operand that begins
at the first view or stands inside it. -/
inductive Within (n : Nonterminal (Expression ρ)) : Nat → View → Nat → View → Prop where
  | here (levels : Nat) (v : View) : Within n levels v levels v
  | inside {levels k : Nat} {v x y z u : View} {op : ArithmeticOp} {e : Expression ρ}
    (h : (arithmetic (call n)).look levels v = .found z e)
    (hop : look levels (keyword ArithmeticOp) v.inside = .found x op)
    (hat : ElementAt levels (call n) x y) (hu : Within n levels y k u) :
    Within n (levels + 1) v k u

/-- What is left where an operand begins is left in front of its operation, too. -/
theorem suffix_of_elementAt (h : (arithmetic (call n)).look levels v = .found z e)
    (hop : look levels (keyword ArithmeticOp) v.inside = .found x op)
    (hat : ElementAt levels (call n) x y) : y.rest <:+ v.rest := by
  obtain ⟨p, hp, -⟩ := exists_look_keyword_inside eq_of_prefix_arithmeticOp
    (exists_of_look_arithmetic h).1 hop
  exact hat.suffix.trans (hp ▸ List.suffix_append p x.rest)

/-- An operand inside another one begins further on. -/
theorem Within.eq_or_append (h : Within n levels v k u) :
    k = levels ∧ u = v ∨ ∃ p, p ≠ [] ∧ v.rest = p ++ u.rest := by
  induction h with
  | here levels v => exact .inl ⟨rfl, rfl⟩
  | @inside levels k v x y z u op e h hop hat hwithin ih =>
    right
    obtain ⟨p, hp, hhead, -⟩ := exists_look_keyword_inside eq_of_prefix_arithmeticOp
      (exists_of_look_arithmetic h).1 hop
    obtain ⟨q, hq⟩ := hat.suffix
    obtain ⟨c, rfl⟩ := List.head?_eq_some_iff.1 hhead
    obtain ⟨-, rfl⟩ | ⟨q', -, hq'⟩ := ih
    · exact ⟨'(' :: c ++ q, nofun, by rw [hp, ← hq, List.append_assoc]⟩
    · exact ⟨'(' :: c ++ (q ++ q'), nofun, by rw [hp, ← hq, hq']; simp⟩

/-- An operation is read as arithmetic before anything else is found. -/
theorem reaches_call_of_arithmetic (hn : n.IsArithmetic) (hopen : v.rest.head? = some '(')
    (h : ((arithmetic (call n)).look levels v).Reaches deep z e) :
    (look (levels + 1) (call n) v).Reaches deep z e := by
  have hnumber : look levels number v = .missing := look_number_missing (by rw [hopen]; rfl)
  have hword : look levels (word "?duration") v = .missing :=
    look_word_missing (by decide) (by rw [hopen]; decide)
  cases hn with
  | expression =>
    show (look levels expressionForms v).Reaches deep z e
    rw [expressionForms, look_orElse, look_map_eq_missing.2 hnumber]
    exact h.orElse
  | durativeExpression =>
    show (look levels durativeExpressionForms v).Reaches deep z e
    rw [durativeExpressionForms, look_orElse, look_map_eq_missing.2 hword]
    exact h.orElse
  | metricExpression =>
    show (look levels metricExpressionForms v).Reaches deep z e
    rw [metricExpressionForms, look_orElse, look_map_eq_missing.2 hnumber]
    exact h.orElse

variable (hn : n.IsArithmetic) (hg : ∀ k, IsElement (k + 1) (call n))

include hn hg

/-- What stands in the place of an operation whose operand is exchanged is read as the operation. -/
theorem exchanges_operation (h : (arithmetic (call n)).look levels v = .found z e)
    (hop : look levels (keyword ArithmeticOp) v.inside = .found x op)
    (hat : ElementAt levels (call n) x u) (hu : look levels (call n) u = .found y e₁)
    (hs : Exchanges deep levels (call n) y e₁ s) (hp : v.rest = p ++ u.rest)
    (hoff : SetOff (p ++ front.chars) s) :
    look (levels + 1) (call n) v = .found z e ∧ p.head? = some '(' ∧
      Exchanges deep (levels + 1) (call n) z e (p ++ (front.chars ++ s)) := by
  obtain ⟨hopen, _, _, _, _, -, helements, -⟩ := exists_of_look_arithmetic h
  obtain ⟨m, rfl, -⟩ := look_call_eq_found.1 hu
  obtain ⟨hhead, hlook⟩ := exchange_operand (hg m) h hop hat hu hs hp hoff
  refine ⟨Finding.reaches_false.1 (reaches_call_of_arithmetic hn hopen (.inl h)), hhead, ?_⟩
  obtain ⟨c, rfl⟩ := List.head?_eq_some_iff.1 hhead
  exact {
    solid := ⟨'(', _, rfl, by decide⟩
    look := ⟨z, .none, fun b => reaches_call_of_arithmetic hn rfl (hlook b), rfl,
      .inl helements.before⟩ }

/-- **An operation remains the same if an operand inside it is exchanged**, however deep. -/
theorem Within.exchange (hwithin : Within n levels v k u) (hu : look k (call n) u = .found y e₁)
    (hs : Exchanges deep k (call n) y e₁ s) (hp : v.rest = p ++ u.rest)
    (hoff : SetOff (p ++ front.chars) s) : k = levels ∧ u = v ∨
      ∃ z e, look levels (call n) v = .found z e ∧ p.head? = some '(' ∧
        Exchanges deep levels (call n) z e (p ++ (front.chars ++ s)) := by
  induction hwithin generalizing p with
  | here levels v => exact .inl ⟨rfl, rfl⟩
  | @inside levels k v x y' z u op e h hop hat hwithin ih =>
    right
    obtain ⟨rfl, rfl⟩ | ⟨q, hq, hrest⟩ := hwithin.eq_or_append
    · exact ⟨z, e, exchanges_operation hn hg h hop hat hu hs hp hoff⟩
    -- the operand around the one that is exchanged is exchanged itself
    obtain ⟨p', hp'⟩ := suffix_of_elementAt h hop hat
    obtain rfl : p = p' ++ q := View.eq_append_of_rest hp hp'.symm hrest
    rw [List.append_assoc] at hoff ⊢
    obtain ⟨-, rfl⟩ | ⟨w, e', hw, hhead, hinner⟩ :=
      ih hu hs hrest (hoff.of_ne_nil (List.append_ne_nil_of_left_ne_nil hq _))
    · exact absurd (List.self_eq_append_left.1 hrest) hq
    obtain ⟨c, rfl⟩ := List.head?_eq_some_iff.1 hhead
    obtain ⟨hfound, hopen, houter⟩ := exchanges_operation hn hg h hop hat hw hinner
      hp'.symm (.inr rfl : SetOff (p' ++ Spacing.none.chars) _)
    refine ⟨z, e, hfound, ?_, houter⟩
    obtain ⟨d, rfl⟩ := List.head?_eq_some_iff.1 hopen
    rfl

end

end Rule

end Pddl
