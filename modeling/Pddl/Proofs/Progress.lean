import Pddl.Proofs.View

/-!
# Reading goes forward

What is found leaves a suffix of what was there, and many grammars take at least one character.
That is why the fuel of a list never runs out.

* `View.Path`, `Reader.Follows` : relations that every way to put readers together keeps.
* `Reader.Forward` : what is found leaves a suffix.
* `Grammar.consumes` : the grammar takes a character whenever it finds something.
* `Grammar.follows_denote` : a relation that longer readings keep, for the readers of grammars.
* `Grammar.forward_denote`, `Grammar.length_lt_of_consumes` : going forward, and taking a character.
* `Reader.more_eq` : the further elements of a list, without fuel.
-/

namespace Pddl

theorem View.rest_advance_suffix (v : View) (n : Nat) : (v.advance n).rest <:+ v.rest := by
  rw [View.rest_advance]
  exact List.drop_suffix n v.rest

theorem View.rest_skipBlanks_suffix (v : View) : v.skipBlanks.rest <:+ v.rest :=
  v.rest_advance_suffix _

/-! ### Relations that readings keep -/

/-- A relation between the view where something is read and the view behind it, of which a longer
reading is put together. -/
structure View.Path (R : View → View → Prop) : Prop where
  refl : ∀ v, R v v
  trans : ∀ {u v w}, R u v → R v w → R u w
  skipBlanks : ∀ v, R v v.skipBlanks

/-- Whatever the reader finds stands in the relation to what was there. -/
def Reader.Follows {α : Type} (R : View → View → Prop) (r : Reader α) : Prop :=
  ∀ {v w a}, r v = .found w a → R v w

namespace Reader

variable {α β : Type} {R : View → View → Prop} {r : Reader α}

theorem follows_opt (hR : View.Path R) (h : r.Follows R) : (opt r).Follows R := by
  intro v w x hx
  obtain ⟨a, ha, -⟩ | ⟨-, rfl, -⟩ := opt_eq_found.1 hx
  · exact h ha
  · exact hR.refl w

theorem follows_separated (hR : View.Path R) (h : r.Follows R) : (separated r).Follows R := by
  intro v w a ha
  obtain ⟨-, ha⟩ := separated_eq_found.1 ha
  exact hR.trans (hR.skipBlanks v) (h ha)

theorem follows_separatedUnless (hR : View.Path R) (h : r.Follows R) (first : Bool) :
    (separatedUnless first r).Follows R := by
  cases first with
  | false => exact follows_separated hR h
  | true => exact h

theorem follows_moreWithin (hR : View.Path R) (h : r.Follows R) (fuel : List Char) :
    (moreWithin r fuel).Follows R := by
  have ho := @follows_opt _ _ _ hR (follows_separated hR h)
  induction fuel with
  | nil =>
    intro v w as ha
    obtain ⟨u, a?, -, hw⟩ := Finding.andThen_eq_found.1 ha
    obtain ⟨rfl, -⟩ := Finding.found.inj hw
    exact hR.refl v
  | cons c fuel ih =>
    intro v w as ha
    obtain ⟨u, a?, hu, hw⟩ := Finding.andThen_eq_found.1 ha
    rcases a? with _ | a
    · obtain ⟨rfl, -⟩ := Finding.found.inj hw
      exact hR.refl v
    · simp only at hw
      split at hw
      · obtain ⟨rfl, -⟩ := Finding.found.inj hw
        exact hR.refl v
      · obtain ⟨u', as', hu', hw⟩ := Finding.andThen_eq_found.1 hw
        obtain ⟨rfl, -⟩ := Finding.found.inj hw
        exact hR.trans (ho hu) (ih hu')

theorem follows_groupsWithin {r : Reader (List α)} (hR : View.Path R) (h : r.Follows R)
    (fuel : List Char) (first : Bool) : (groupsWithin r first fuel).Follows R := by
  have ho := fun first => @follows_opt _ _ _ hR (follows_separatedUnless hR h first)
  induction fuel generalizing first with
  | nil =>
    intro v w as ha
    obtain ⟨u, as?, hu, hw⟩ := Finding.andThen_eq_found.1 ha
    obtain ⟨rfl, -⟩ := Finding.found.inj hw
    exact ho _ hu
  | cons c fuel ih =>
    intro v w as ha
    obtain ⟨u, as?, hu, hw⟩ := Finding.andThen_eq_found.1 ha
    rcases as? with _ | as'
    · obtain ⟨rfl, -⟩ := Finding.found.inj hw
      exact hR.refl v
    · obtain ⟨u', bs, hu', hw⟩ := Finding.andThen_eq_found.1 hw
      obtain ⟨rfl, -⟩ := Finding.found.inj hw
      exact hR.trans (ho _ hu) (ih _ hu')

theorem follows_untypedTail {r : Reader (List α)} (hR : View.Path R) (h : r.Follows R)
    (first : Bool) : (untypedTail first r).Follows R := by
  intro v w as ha
  obtain ⟨u, as?, hu, hw⟩ := Finding.andThen_eq_found.1 ha
  rcases as? with _ | as'
  · obtain ⟨rfl, -⟩ := Finding.found.inj hw
    exact hR.refl v
  · obtain ⟨rfl, -⟩ := Finding.found.inj hw
    split
    · exact hR.refl v
    · exact follows_opt hR (follows_separatedUnless hR h first) hu

theorem follows_typedList {default : TypeSpec} {r : Reader (List (Typed α))} {s : Reader (List α)}
    (hR : View.Path R) (hr : r.Follows R) (hs : s.Follows R) :
    (typedList default r s).Follows R := by
  intro v w as ha
  obtain ⟨u, typed, hu, hw⟩ := Finding.andThen_eq_found.1 ha
  obtain ⟨u', untyped, hu', hw⟩ := Finding.andThen_eq_found.1 hw
  obtain ⟨rfl, -⟩ := Finding.found.inj hw
  exact hR.trans (follows_groupsWithin hR hr _ _ hu) (follows_untypedTail hR hs _ hu')

end Reader

/-! ### Going forward -/

theorem View.path_suffix : View.Path fun v w => w.rest <:+ v.rest where
  refl _ := List.suffix_rfl
  trans h k := k.trans h
  skipBlanks v := v.rest_skipBlanks_suffix

/-- What is found leaves a suffix of what was there. -/
def Reader.Forward {α : Type} (r : Reader α) : Prop := r.Follows fun v w => w.rest <:+ v.rest

namespace Reader

variable {α : Type}

theorem forward_opt {r : Reader α} (h : r.Forward) : (opt r).Forward :=
  follows_opt View.path_suffix h

theorem forward_separated {r : Reader α} (h : r.Forward) : (separated r).Forward :=
  follows_separated View.path_suffix h

theorem forward_separatedUnless {r : Reader α} (h : r.Forward) (first : Bool) :
    (separatedUnless first r).Forward := follows_separatedUnless View.path_suffix h first

theorem forward_groupsWithin {r : Reader (List α)} (h : r.Forward) (fuel : List Char)
    (first : Bool) : (groupsWithin r first fuel).Forward :=
  follows_groupsWithin View.path_suffix h fuel first

end Reader

namespace Grammar

variable {N : Type → Type} {read : {α : Type} → N α → Reader α} {α β : Type}

/-- Every terminal of the grammar has the property. -/
def Over (P : {α : Type} → Terminal α → Prop) : {α : Type} → Grammar N α → Prop
  | _, terminal t => P t
  | _, call _ => True
  | _, seq g h => g.Over P ∧ h.Over P
  | _, refine _ g => g.Over P
  | _, orElse g h => g.Over P ∧ h.Over P
  | _, opt g => g.Over P
  | _, more g => g.Over P
  | _, emptyOr g => g.Over P
  | _, typedList _ group values => group.Over P ∧ values.Over P

theorem over_true (g : Grammar N α) : g.Over fun _ => True := by
  induction g <;> simp_all [Over]

/-- A relation of which longer readings are put together is kept by a grammar whose terminals,
nonterminals and empty parentheses keep it. -/
theorem follows_denote {R : View → View → Prop} (hR : View.Path R)
    {P : {α : Type} → Terminal α → Prop}
    (ht : ∀ {α : Type} {t : Terminal α}, P t → ∀ {v : View} {n : Nat} {a : α},
      t.lexeme? v = some (n, a) → R v (v.advance n))
    (he : ∀ {v : View} {n : Nat}, emptyParensLength? v.rest = some n → R v (v.advance n))
    (hn : ∀ {α : Type} (n : N α), (read n).Follows R) {g : Grammar N α} (hg : g.Over P) :
    (g.denote read).Follows R := by
  induction g with
  | terminal t =>
    intro v w a h
    rcases hl : t.lexeme? v with _ | ⟨n, b⟩
    · simp [denote, hl, Finding.lexeme] at h
    · simp only [denote, hl, Finding.lexeme] at h
      obtain ⟨rfl, rfl⟩ := Finding.found.inj h
      exact ht hg hl
  | call n => exact hn n
  | seq g h ihg ihh =>
    intro v w ab hab
    obtain ⟨u, hu, hw⟩ := Reader.seq_eq_found.1 hab
    exact hR.trans (ihg hg.1 hu) (ihh hg.2 hw)
  | refine f g ih =>
    intro v w b hb
    obtain ⟨a, ha, -⟩ := Reader.refine_eq_found.1 hb
    exact ih hg ha
  | orElse g h ihg ihh =>
    intro v w a ha
    obtain ha | ⟨-, ha⟩ := Finding.orElse_eq_found.1 ha
    · exact ihg hg.1 ha
    · exact ihh hg.2 ha
  | opt g ih => exact Reader.follows_opt hR (ih hg)
  | more g ih => exact fun h => Reader.follows_moreWithin hR (ih hg) _ h
  | emptyOr g ih =>
    intro v w x hx
    simp only [denote, Reader.emptyOr] at hx
    rcases hl : emptyParensLength? v.rest with _ | n
    · simp only [hl] at hx
      obtain ⟨u, a, ha, hw⟩ := Finding.andThen_eq_found.1 hx
      obtain ⟨rfl, -⟩ := Finding.found.inj hw
      exact ih hg ha
    · simp only [hl] at hx
      obtain ⟨rfl, -⟩ := Finding.found.inj hx
      exact he hl
  | typedList default group values ihg ihv =>
    exact Reader.follows_typedList hR (ihg hg.1) (ihv hg.2)

theorem forward_denote (hn : ∀ {α : Type} (n : N α), (read n).Forward) (g : Grammar N α) :
    (g.denote read).Forward := by
  refine follows_denote View.path_suffix ?_ ?_ hn g.over_true
  · intro _ _ _ v n _ _
    exact v.rest_advance_suffix n
  · intro v n _
    exact v.rest_advance_suffix n

end Grammar

theorem Nonterminal.forward_denote {α : Type} (levels : Nat) (n : Nonterminal α) :
    (n.denote levels).Forward := by
  induction levels generalizing α with
  | zero => intro v w a h; simp [Nonterminal.denote] at h
  | succ levels ih => exact Grammar.forward_denote (fun n => ih n) _

/-! ### Taking a character -/

/-- The terminal takes a character whenever it is there. -/
def Terminal.consumes {α : Type} : Terminal α → Bool
  | pure _ => false
  | refuse _ => true
  | blanks => false
  | separator => false
  | char _ => true
  | word w => decide (IsPlainWord w)
  | oneOf entries => decide (∀ e ∈ entries, IsPlainWord e.1)
  | symbol _ => true
  | flag => true
  | decimal => true
  | integer => true

/-- The grammar takes a character whenever it finds something. -/
def Grammar.consumes {N : Type → Type} {α : Type} : Grammar N α → Bool
  | terminal t => t.consumes
  | call _ => false
  | seq g h => g.consumes || h.consumes
  | refine _ g => g.consumes
  | orElse g h => g.consumes && h.consumes
  | opt _ => false
  | more _ => false
  | emptyOr g => g.consumes
  | typedList _ _ _ => false

theorem Terminal.pos_of_consumes {α : Type} {t : Terminal α} (ht : t.consumes = true) {v : View}
    {n : Nat} {a : α} (h : t.lexeme? v = some (n, a)) : 0 < n := by
  cases t with
  | pure _ => simp [consumes] at ht
  | refuse _ => simp [lexeme?] at h
  | blanks => simp [consumes] at ht
  | separator => simp [consumes] at ht
  | char c =>
    simp only [lexeme?] at h
    split at h
    · obtain ⟨rfl, -⟩ := Prod.mk.inj (Option.some.inj h)
      exact Nat.zero_lt_one
    · simp at h
  | word w => exact (contained_keyword (of_decide_eq_true ht)).pos h
  | oneOf entries => exact (contained_oneOf (of_decide_eq_true ht)).pos h
  | symbol kind => exact (contained_symbolLexeme? kind).pos h
  | flag => exact contained_flagLexeme?.pos h
  | decimal => exact contained_decimalLexeme?.pos h
  | integer => exact contained_integerLexeme?.pos h

/-- A terminal takes no more characters than there are. -/
theorem Terminal.lexeme?_le {α : Type} {t : Terminal α} {v : View} {n : Nat} {a : α}
    (h : t.lexeme? v = some (n, a)) : n ≤ v.rest.length := by
  cases t with
  | pure a => obtain ⟨rfl, -⟩ := Prod.mk.inj (Option.some.inj h); exact Nat.zero_le _
  | refuse e => simp [lexeme?] at h
  | blanks =>
    obtain ⟨rfl, -⟩ := Prod.mk.inj (Option.some.inj h)
    exact blankLength_le _ _
  | separator =>
    simp only [lexeme?] at h
    split at h
    · obtain ⟨rfl, -⟩ := Prod.mk.inj (Option.some.inj h)
      exact blankLength_le _ _
    · simp at h
  | char x =>
    simp only [lexeme?] at h
    split at h
    · obtain ⟨rfl, -⟩ := Prod.mk.inj (Option.some.inj h)
      rename_i hx
      exact List.length_pos_of_ne_nil (List.ne_nil_of_mem (List.mem_of_mem_head? hx))
    · simp at h
  | word w =>
    obtain ⟨m, hm, h⟩ := Option.map_eq_some_iff.1 h
    obtain ⟨rfl, -⟩ := Prod.mk.inj h
    exact keywordLength?_le hm
  | oneOf entries =>
    obtain ⟨w, -, hn⟩ := firstMatch?_eq_some h
    exact keywordLength?_le hn
  | symbol kind => exact (contained_symbolLexeme? kind).le h
  | flag => exact contained_flagLexeme?.le h
  | decimal => exact contained_decimalLexeme?.le h
  | integer => exact contained_integerLexeme?.le h

namespace Grammar

variable {N : Type → Type} {read : {α : Type} → N α → Reader α} {α : Type}

theorem length_lt_of_consumes (hn : ∀ {α : Type} (n : N α), (read n).Forward) {g : Grammar N α}
    (hg : g.consumes = true) {v w : View} {a : α} (h : g.denote read v = .found w a) :
    w.rest.length < v.rest.length := by
  induction g generalizing v w with
  | terminal t =>
    rcases hl : t.lexeme? v with _ | ⟨n, b⟩
    · simp [denote, hl, Finding.lexeme] at h
    · simp only [denote, hl, Finding.lexeme] at h
      obtain ⟨rfl, rfl⟩ := Finding.found.inj h
      have hpos := Terminal.pos_of_consumes hg hl
      have hle := Terminal.lexeme?_le hl
      rw [View.rest_advance, List.length_drop]
      omega
  | seq g h' ihg ihh =>
    obtain ⟨u, hu, hw⟩ := Reader.seq_eq_found.1 h
    have h1 := (forward_denote hn g hu).length_le
    have h2 := (forward_denote hn h' hw).length_le
    rcases Bool.or_eq_true .. ▸ hg with hg | hg
    · have := ihg hg hu; omega
    · have := ihh hg hw; omega
  | refine f g ih =>
    obtain ⟨b, hb, -⟩ := Reader.refine_eq_found.1 h
    exact ih hg hb
  | orElse g h' ihg ihh =>
    simp only [consumes, Bool.and_eq_true] at hg
    obtain h | ⟨-, h⟩ := Finding.orElse_eq_found.1 h
    · exact ihg hg.1 h
    · exact ihh hg.2 h
  | emptyOr g ih =>
    simp only [denote, Reader.emptyOr] at h
    rcases hl : emptyParensLength? v.rest with _ | n
    · simp only [hl] at h
      obtain ⟨u, b, hb, hw⟩ := Finding.andThen_eq_found.1 h
      obtain ⟨rfl, -⟩ := Finding.found.inj hw
      exact ih hg hb
    · simp only [hl] at h
      obtain ⟨rfl, -⟩ := Finding.found.inj h
      have := emptyParensLength?_le hl
      obtain ⟨blanks, rest, hr, -, rfl⟩ := emptyParensLength?_eq_some.1 hl
      rw [View.rest_advance, List.length_drop]
      omega
  | call n => simp [consumes] at hg
  | opt g _ => simp [consumes] at hg
  | more g _ => simp [consumes] at hg
  | typedList default group values _ _ => simp [consumes] at hg

end Grammar

/-! ### Lists without fuel -/

namespace Reader

variable {α : Type}

/-- More fuel than there are characters makes no difference. -/
theorem moreWithin_eq {r : Reader α} (h : r.Forward) {fuel f : List Char} {v : View}
    (hf : v.rest.length ≤ fuel.length) (hf' : v.rest.length ≤ f.length) :
    moreWithin r fuel v = moreWithin r f v := by
  have ho := @forward_opt _ _ (forward_separated h)
  have stop : ∀ {v w : View} {a?}, v.rest = [] → opt (separated r) v = .found w a? →
      w.rest.length = v.rest.length := by
    intro v w a? hv hw
    have := (ho hw).length_le
    rw [hv] at this ⊢
    simpa using this
  induction fuel generalizing v f with
  | nil =>
    have hv : v.rest = [] := by simpa using hf
    rcases f with _ | ⟨c', f⟩
    · rfl
    · refine Finding.andThen_congr fun w a? hw => ?_
      rcases a? with _ | a
      · rfl
      · simp [stop hv hw]
  | cons c fuel ih =>
    rcases f with _ | ⟨c', f⟩
    · have hv : v.rest = [] := by simpa using hf'
      refine Finding.andThen_congr fun w a? hw => ?_
      rcases a? with _ | a
      · rfl
      · simp [stop hv hw]
    · refine Finding.andThen_congr fun w a? hw => ?_
      rcases a? with _ | a
      · rfl
      · have hle := (ho hw).length_le
        simp only [List.length_cons] at hf hf' ⊢
        split
        · rfl
        · rw [ih (f := f) (by omega) (by omega)]

/-- The further elements of a list: one of them and the others, as long as they take
characters. -/
theorem more_eq {r : Reader α} (h : r.Forward) (v : View) :
    more r v = (opt (separated r) v).andThen fun w a? =>
      match a? with
      | none => .found v []
      | some a =>
        if w.rest.length = v.rest.length then .found v []
        else (more r w).andThen fun w' as => .found w' (a :: as) := by
  have ho := @forward_opt _ _ (forward_separated h)
  rw [more, moreWithin_eq h (f := 'x' :: v.rest) (Nat.le_refl _) (by simp)]
  refine Finding.andThen_congr fun w a? hw => ?_
  rcases a? with _ | a
  · rfl
  · simp only
    split
    · rfl
    · rw [more, moreWithin_eq h (ho hw).length_le (Nat.le_refl _)]

end Reader

end Pddl
