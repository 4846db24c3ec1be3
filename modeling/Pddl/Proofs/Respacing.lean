import Pddl.Proofs.CompleteInput
import Pddl.Proofs.Gaps

/-!
# Blanks and comments are the same

A gap between two tokens is made of blanks and comments, and it makes no difference of which.  The
same construct is read whatever gap stands there, with two exceptions: in the middle of a pair of
empty parentheses and between the words of `at end` only white space is known.

* `View.Bisimulation`, `Reader.Respects` : a relation between the views of two texts which reading
  on keeps, and readers that find the same at related views.
* `Grammar.respects_denote` : a grammar respects a bisimulation that its lexemes respect.
* `Seam` : a place where any gap may stand.
* `View.Regapped` : the same place in two texts that differ in one gap.
* `Rule.read_regapped` : **one gap may be put in the place of another.**
-/

namespace Pddl

/-- Behind some characters, what follows them is left. -/
theorem View.advance_append_add {t : List Char} (ht : t ≠ []) (b : Option Char) (y : List Char)
    (k : Nat) : View.advance ⟨b, t ++ y⟩ (t.length + k) = View.advance ⟨t.getLast?, y⟩ k := by
  rcases k with _ | k
  · obtain ⟨z, c, rfl⟩ : ∃ z c, t = z ++ [c] := ⟨_, _, (List.dropLast_append_getLast ht).symm⟩
    simp [View.advance]
  · rw [← Nat.add_assoc]
    simp only [View.advance, View.mk.injEq]
    exact ⟨by rw [List.getElem?_append_right (by omega), Nat.add_sub_cancel_left],
      by rw [Nat.add_assoc, List.drop_append]; simp⟩

/-! ### Bisimulations -/

/-- A relation between views that lists cannot tell apart: the separations are the same, blanks are
skipped alike, and whether anything was taken in between is the same. -/
structure View.Bisimulation (R : View → View → Prop) : Prop where
  separates : ∀ {v v'}, R v v' → v.separates = v'.separates
  skipBlanks : ∀ {v v'}, R v v' → R v.skipBlanks v'.skipBlanks
  length_eq_iff : ∀ {v v' w w'}, R v v' → R w w' →
    (w.rest.length = v.rest.length ↔ w'.rest.length = v'.rest.length)

/-- The same is found, and the views behind it are related. -/
def Finding.Related {α : Type} (R : View → View → Prop) : Finding α → Finding α → Prop
  | found w a, found w' a' => R w w' ∧ a = a'
  | missing, missing => True
  | unknownFlag, unknownFlag => True
  | tooDeep, tooDeep => True
  | infinite, infinite => True
  | _, _ => False

/-- The same is found at related views. -/
def Reader.Respects {α : Type} (R : View → View → Prop) (r : Reader α) : Prop :=
  ∀ {v v'}, R v v' → (r v).Related R (r v')

namespace Finding

variable {α β : Type} {R : View → View → Prop} {o o' : Finding α}

theorem Related.found {w w' : View} (h : R w w') (a : α) : Related R (found w a) (found w' a) :=
  ⟨h, rfl⟩

theorem Related.andThen {k k' : View → α → Finding β} (h : Related R o o')
    (hk : ∀ {w w' a}, o = .found w a → o' = .found w' a → R w w' → Related R (k w a) (k' w' a)) :
    Related R (o.andThen k) (o'.andThen k') := by
  cases o <;> cases o' <;> simp only [Related] at h
  · obtain ⟨hw, rfl⟩ := h
    exact hk rfl rfl hw
  all_goals trivial

theorem Related.orElse {q q' : Finding α} (h : Related R o o') (hq : Related R q q') :
    Related R (o.orElse q) (o'.orElse q') := by
  cases o <;> cases o' <;> simp only [Related] at h
  · exact h
  · exact hq
  all_goals trivial

theorem Related.eq_found {w : View} {a : α} (h : Related R (.found w a) o) :
    ∃ w', o = .found w' a ∧ R w w' := by
  cases o with
  | found w' a' => exact ⟨w', by rw [h.2], h.1⟩
  | _ => exact absurd h (by simp [Related])

end Finding

namespace Reader

variable {α β : Type} {R : View → View → Prop}

theorem respects_opt {r : Reader α} (h : r.Respects R) : (opt r).Respects R := fun hv =>
  .orElse (.andThen (h hv) fun _ _ hw => .found hw _) (.found hv _)

variable (hR : View.Bisimulation R)
include hR

theorem respects_separated {r : Reader α} (h : r.Respects R) : (separated r).Respects R := by
  intro v v' hv
  simp only [separated, hR.separates hv]
  split
  · exact h (hR.skipBlanks hv)
  · trivial

theorem respects_separatedUnless {r : Reader α} (h : r.Respects R) (first : Bool) :
    (separatedUnless first r).Respects R := by
  cases first with
  | false => exact respects_separated hR h
  | true => exact h

theorem respects_more {r : Reader α} (h : r.Respects R) (hf : r.Forward) :
    (more r).Respects R := by
  have ho := @respects_opt _ _ _ (respects_separated hR h)
  intro v v' hv
  -- every element but the last leaves fewer characters
  induction hn : v.rest.length using Nat.strong_induction_on generalizing v v' with
  | _ n ih =>
    subst hn
    rw [more_eq hf, more_eq hf]
    refine .andThen (ho hv) fun {w w' a?} hw _ hww => ?_
    rcases a? with _ | a
    · exact .found hv []
    · have hle := (forward_opt (forward_separated hf) hw).length_le
      have hlen := hR.length_eq_iff hv hww
      by_cases hstop : w.rest.length = v.rest.length
      · simp only [hstop, hlen.1 hstop, ↓reduceIte]
        exact .found hv []
      · simp only [hstop, mt hlen.2 hstop, ↓reduceIte]
        exact .andThen (ih _ (by omega) hww rfl) fun _ _ hu => .found hu _

theorem respects_groupsWithin {r : Reader (List α)} (h : r.Respects R)
    (hr : ∀ {v w a}, r v = .found w a → w.rest.length < v.rest.length)
    {fuel fuel' : List Char} {first : Bool} {v v' : View} (hv : R v v')
    (hf : v.rest.length ≤ fuel.length) (hf' : v'.rest.length ≤ fuel'.length) :
    (groupsWithin r first fuel v).Related R (groupsWithin r first fuel' v') := by
  have ho := fun first => @respects_opt _ _ _ (respects_separatedUnless hR h first)
  have hlt : ∀ {first u w as}, opt (separatedUnless first r) u = .found w (some as) →
      w.rest.length < u.rest.length := by
    intro first u w as hw
    obtain ⟨a, ha, -⟩ | ⟨-, -, h0⟩ := opt_eq_found.1 hw
    · cases first with
      | true => exact hr ha
      | false =>
        obtain ⟨-, ha⟩ := separated_eq_found.1 ha
        exact Nat.lt_of_lt_of_le (hr ha) u.rest_skipBlanks_suffix.length_le
    · simp at h0
  have hnone : ∀ {first u w}, opt (separatedUnless first r) u = .found w none → w = u := by
    intro first u w hw
    obtain ⟨a, -, h0⟩ | ⟨-, rfl, -⟩ := opt_eq_found.1 hw
    · simp at h0
    · rfl
  induction fuel generalizing fuel' first v v' with
  | nil =>
    -- no group is there where nothing is left
    rcases fuel' with _ | ⟨c', fuel'⟩
    · exact .andThen (ho first hv) fun _ _ hw => .found hw _
    · refine .andThen (ho first hv) fun {w w' as?} hw _ hww => ?_
      rcases as? with _ | as
      · obtain rfl := hnone hw
        exact .found hv []
      · have := hlt hw
        simp only [List.length_nil] at hf
        omega
  | cons c fuel ih =>
    rcases fuel' with _ | ⟨c', fuel'⟩
    · refine .andThen (ho first hv) fun {w w' as?} _ hw' _ => ?_
      rcases as? with _ | as
      · obtain rfl := hnone hw'
        exact .found hv []
      · have := hlt hw'
        simp only [List.length_nil] at hf'
        omega
    · refine .andThen (ho first hv) fun {w w' as?} hw hw' hww => ?_
      rcases as? with _ | as
      · exact .found hv []
      · have := hlt hw
        have := hlt hw'
        simp only [List.length_cons] at hf hf'
        exact .andThen (ih hww (by omega) (by omega)) fun _ _ hu => .found hu _

theorem respects_untypedTail {r : Reader (List α)} (h : r.Respects R) (first : Bool) :
    (untypedTail first r).Respects R := by
  intro v v' hv
  refine .andThen (respects_opt (respects_separatedUnless hR h first) hv)
    fun {w w' as?} _ _ hw => ?_
  rcases as? with _ | as
  · exact .found hv []
  · simp only
    split
    · exact .found hv as
    · exact .found hw as

theorem respects_typedList {default : TypeSpec} {r : Reader (List (Typed α))} {t : Reader (List α)}
    (h : r.Respects R) (ht : t.Respects R)
    (hr : ∀ {v w a}, r v = .found w a → w.rest.length < v.rest.length) :
    (typedList default r t).Respects R := by
  intro v v' hv
  refine .andThen (respects_groupsWithin hR h hr hv le_rfl le_rfl) fun _ _ hw => ?_
  exact .andThen (respects_untypedTail hR ht _ hw) fun _ _ hu => .found hu _

end Reader

/-! ### Grammars of words that end at gaps -/

/-- A gap ends what the terminal takes; `at end` is the only word of several parts. -/
def Terminal.endsAtGaps {α : Type} : Terminal α → Bool
  | char c => !beginsGap c
  | word w => decide (IsWord w) || w == "at end"
  | oneOf entries => decide (∀ e ∈ entries, IsWord e.1)
  | _ => true

/-- A gap ends what the terminals take, and the groups of typed lists take a character. -/
def Grammar.endsAtGaps {N : Type → Type} {α : Type} : Grammar N α → Bool
  | terminal t => t.endsAtGaps
  | call _ => true
  | seq g h => g.endsAtGaps && h.endsAtGaps
  | refine _ g => g.endsAtGaps
  | orElse g h => g.endsAtGaps && h.endsAtGaps
  | opt g => g.endsAtGaps
  | more g => g.endsAtGaps
  | emptyOr g => g.endsAtGaps
  | typedList _ group values => group.endsAtGaps && values.endsAtGaps && group.consumes

theorem Nonterminal.endsAtGaps_production {α : Type} (n : Nonterminal α) :
    n.production.endsAtGaps = true := by
  cases n <;> decide

theorem Rule.endsAtGaps_of_named {whole : Bool} {α : Type} {g : Rule α} (h : Named whole g) :
    g.endsAtGaps = true := by
  cases h <;> decide

/-- A grammar respects a bisimulation that its lexemes respect. -/
theorem Grammar.respects_denote {N : Type → Type} {read : {α : Type} → N α → Reader α}
    {R : View → View → Prop} (hR : View.Bisimulation R)
    (ht : ∀ {α : Type} {t : Terminal α}, t.endsAtGaps = true →
      Reader.Respects R fun v => .lexeme v (t.lexeme? v))
    (he : Reader.Respects R fun v =>
      .lexeme v ((emptyParensLength? v.rest).map fun n => (n, ())))
    (hf : ∀ {α : Type} (n : N α), (read n).Forward)
    (hn : ∀ {α : Type} (n : N α), (read n).Respects R) {α : Type} {g : Grammar N α}
    (hg : g.endsAtGaps = true) : (g.denote read).Respects R := by
  induction g with
  | terminal t => exact ht hg
  | call n => exact hn n
  | seq g h ihg ihh =>
    rw [endsAtGaps, Bool.and_eq_true] at hg
    exact fun hv => .andThen (ihg hg.1 hv) fun _ _ hw =>
      .andThen (ihh hg.2 hw) fun _ _ hu => .found hu _
  | refine f g ih =>
    refine fun hv => .andThen (ih hg hv) fun {w w' a} _ _ hw => ?_
    rcases f a with e | b
    · cases e <;> trivial
    · exact .found hw b
  | orElse g h ihg ihh =>
    rw [endsAtGaps, Bool.and_eq_true] at hg
    exact fun hv => .orElse (ihg hg.1 hv) (ihh hg.2 hv)
  | opt g ih => exact Reader.respects_opt (ih hg)
  | more g ih => exact Reader.respects_more hR (ih hg) (forward_denote hf g)
  | emptyOr g ih =>
    intro v v' hv
    have hparens := he hv
    simp only [denote, Reader.emptyOr]
    rcases hn : emptyParensLength? v.rest with _ | n <;>
      rcases hn' : emptyParensLength? v'.rest with _ | n' <;>
      simp only [hn, hn', Option.map_none, Option.map_some, Finding.lexeme, Finding.Related]
        at hparens
    · exact .andThen (ih hg hv) fun _ _ hw => .found hw _
    · exact .found hparens.1 none
  | typedList default group values ihg ihv =>
    simp only [endsAtGaps, Bool.and_eq_true] at hg
    exact Reader.respects_typedList hR (ihg hg.1.1) (ihv hg.1.2) (length_lt_of_consumes hf hg.2)

/-! ### Texts that differ in one gap -/

/-- Any gap may stand between the two parts of a text: the place lies neither in the middle of empty
parentheses nor between the words of `at end`. -/
structure Seam (p q : List Char) : Prop where
  parens : ¬Between ['('] [')'] p q
  words : ¬Between "at".toList "end".toList p q

/-- In front of an opening parenthesis any gap may stand. -/
theorem seam_of_open (p q : List Char) : Seam p ('(' :: q) := by
  have hfirst : ∀ {u v : List Char} {c : Char}, c ≠ '(' → ¬Between u (c :: v) p ('(' :: q) := by
    rintro u v c hc ⟨w, w', -, hw', -, hq⟩
    rcases w' with _ | ⟨d, w'⟩
    · exact hc (List.cons_prefix_cons.1 hq).1
    · obtain ⟨rfl, -⟩ := List.cons_prefix_cons.1 hq
      exact absurd (hw' _ List.mem_cons_self) (by decide)
  exact ⟨hfirst (by decide), hfirst (by decide)⟩

theorem Seam.of_suffix {x p q : List Char} (h : Seam p q) (hx : x <:+ p) : Seam x q :=
  ⟨fun hb => h.parens (hb.mono hx), fun hb => h.words (hb.mono hx)⟩

/-- The same place in two texts that differ in one gap, either in front of the gap or behind it. -/
inductive View.Regapped (q : List Char) (s s' : Gap) : View → View → Prop
  | ahead {b : Option Char} {x : List Char} : Seam x q → leavesComment false x = false →
      Regapped q s s' ⟨b, x ++ (s.chars ++ q)⟩ ⟨b, x ++ (s'.chars ++ q)⟩
  | behind {b b' : Option Char} {y : List Char} : y <:+ q →
      b = b' ∨ b.any isWideBlank = true ∧ b'.any isWideBlank = true →
      Regapped q s s' ⟨b, y⟩ ⟨b', y⟩

namespace View.Regapped

variable {q : List Char} {s s' : Gap} {v v' : View}

theorem separates_eq (h : Regapped q s s' v v') : v.separates = v'.separates := by
  cases h with
  | @ahead b x _ _ =>
    rcases x with _ | ⟨c, x⟩
    · rw [s.separates s.nonempty rfl, s'.separates s'.nonempty rfl]
    · simp only [View.separates, List.cons_append, blankLength_pos_iff, List.head?_cons]
  | @behind b b' _ _ hb =>
    obtain rfl | ⟨hb, hb'⟩ := hb
    · rfl
    · have hany {b : Option Char} (h : b.any isWideBlank = true) :
          b.any (fun x => x == ')' || isWideBlank x) = true := by
        cases b with
        | none => cases h
        | some c => simp [show isWideBlank c = true from h]
      simp only [View.separates, hany hb, hany hb']

/-- What is taken in front of the gap outside of comments is taken in both texts. -/
theorem advance_ahead {b : Option Char} {x : List Char} {n : Nat} (hseam : Seam x q)
    (hx : leavesComment false (x.drop n) = false) (hn : n ≤ x.length) :
    Regapped q s s' (View.advance ⟨b, x ++ (s.chars ++ q)⟩ n)
      (View.advance ⟨b, x ++ (s'.chars ++ q)⟩ n) := by
  rcases n with _ | n
  · exact .ahead hseam hx
  · simp only [View.advance, List.drop_append_of_le_length hn]
    rw [List.getElem?_append_left (by omega), List.getElem?_append_left (by omega)]
    exact .ahead (hseam.of_suffix (List.drop_suffix _ x)) hx

/-- What is taken behind the gap is taken in both texts. -/
theorem advance_behind {b b' : Option Char} {y : List Char} {n : Nat} (hy : y <:+ q)
    (hb : b = b' ∨ b.any isWideBlank = true ∧ b'.any isWideBlank = true) :
    Regapped q s s' (View.advance ⟨b, y⟩ n) (View.advance ⟨b', y⟩ n) := by
  rcases n with _ | n
  · exact .behind hy hb
  · exact .behind ((List.drop_suffix _ y).trans hy) (.inl rfl)

theorem length_eq_iff {w w' : View} (hv : Regapped q s s' v v') (hw : Regapped q s s' w w') :
    w.rest.length = v.rest.length ↔ w'.rest.length = v'.rest.length := by
  have hs := List.length_pos_of_ne_nil s.nonempty
  have hs' := List.length_pos_of_ne_nil s'.nonempty
  cases hv with
  | ahead _ _ =>
    cases hw with
    | ahead _ _ => simp
    | behind hy _ =>
      have := hy.length_le
      simp only [List.length_append]
      omega
  | behind hy _ =>
    have := hy.length_le
    cases hw with
    | ahead _ _ =>
      simp only [List.length_append]
      omega
    | behind _ _ => rfl

theorem rest_eq_nil_iff (h : Regapped q s s' v v') : v.rest = [] ↔ v'.rest = [] := by
  cases h with
  | ahead _ _ => simp [s.nonempty, s'.nonempty]
  | behind _ _ => rfl

theorem skipBlanks (h : Regapped q s s' v v') : Regapped q s s' v.skipBlanks v'.skipBlanks := by
  cases h with
  | @ahead b x hseam hx =>
    by_cases hblank : blankLength false x = x.length
    · -- the gap and the blanks behind it are skipped together with those in front
      have hskip (s : Gap) : View.skipBlanks ⟨b, x ++ (s.chars ++ q)⟩ =
          View.advance ⟨s.chars.getLast?, q⟩ (blankLength false q) := by
        have hlen := Spacing.blankLength_append ⟨x, hblank, hx⟩ (s.chars ++ q)
        rw [s.blankLength_append, ← Nat.add_assoc, ← List.length_append] at hlen
        have hne : x ++ s.chars ≠ [] := List.append_ne_nil_of_right_ne_nil x s.nonempty
        rw [View.skipBlanks, hlen, ← List.append_assoc, View.advance_append_add hne,
          List.getLast?_append_of_ne_nil x s.nonempty]
      have hwide (s : Gap) : s.chars.getLast?.any isWideBlank = true := by
        rcases hc : s.chars.getLast? with _ | c
        · exact absurd (List.getLast?_eq_none_iff.1 hc) s.nonempty
        · exact isWideBlank_of_isBlank (s.isBlank_of_getLast? hc)
      rw [hskip s, hskip s']
      exact advance_behind List.suffix_rfl (.inr ⟨hwide s, hwide s'⟩)
    · have hle := blankLength_le false x
      have hlt : blankLength false x < x.length := by omega
      simp only [View.skipBlanks, blankLength_append_of_lt _ hlt]
      refine advance_ahead hseam ?_ hle
      have hopen : leavesComment false (x.take (blankLength false x)) = false :=
        leavesComment_of_drop_ne_nil fun hnil => by
          have := List.drop_eq_nil_iff.1 hnil
          omega
      rw [← List.take_append_drop (blankLength false x) x, leavesComment_append, hopen] at hx
      exact hx
  | behind hy hb => exact advance_behind hy hb

theorem bisimulation (q : List Char) (s s' : Gap) : View.Bisimulation (Regapped q s s') where
  separates h := h.separates_eq
  skipBlanks h := h.skipBlanks
  length_eq_iff hv hw := hv.length_eq_iff hw

/-! ### Lexemes in texts that differ in one gap -/

/-- A lexeme that a gap ends and that holds no comment is the same in both texts. -/
theorem lexeme {α : Type} {f : Recogniser α} (h : Regapped q s s' v v')
    (hle : ∀ {cs n a}, f cs = some (n, a) → n ≤ cs.length)
    (hplain : ∀ {cs n a}, f cs = some (n, a) → leavesComment false (cs.take n) = false)
    (hgap : ∀ (s : Gap) {x}, Seam x q → f (x ++ (s.chars ++ q)) = f x) :
    Finding.Related (Regapped q s s') (.lexeme v (f v.rest)) (.lexeme v' (f v'.rest)) := by
  cases h with
  | @ahead b x hseam hx =>
    simp only [hgap _ hseam]
    rcases hf : f x with _ | ⟨n, a⟩
    · trivial
    · refine .found (advance_ahead hseam ?_ (hle hf)) a
      rw [← List.take_append_drop n x, leavesComment_append, hplain hf] at hx
      exact hx
  | @behind b b' y hy hb =>
    simp only
    rcases f y with _ | ⟨n, a⟩
    · trivial
    · exact .found (advance_behind hy hb) a

theorem lexeme_of_contained {α : Type} {f : Recogniser α} (hf : f.Contained)
    (h : Regapped q s s' v v') (hgap : ∀ (s : Gap) {x}, Seam x q → f (x ++ (s.chars ++ q)) = f x) :
    Finding.Related (Regapped q s s') (.lexeme v (f v.rest)) (.lexeme v' (f v'.rest)) :=
  h.lexeme hf.le (fun h => leavesComment_of_forall_ne fun c hc =>
    ne_semicolon_of_isPlain (hf.plain h c hc)) hgap

end View.Regapped

open View in
/-- Every terminal that gaps end is the same in texts that differ in one gap. -/
theorem Terminal.respects_regapped {α : Type} {t : Terminal α} (ht : t.endsAtGaps = true)
    (q : List Char) (s s' : Gap) :
    Reader.Respects (Regapped q s s') fun v => .lexeme v (t.lexeme? v) := by
  intro v v' h
  cases t with
  | pure a => exact .found h a
  | refuse e => trivial
  | blanks => exact .found h.skipBlanks ()
  | separator =>
    simp only [lexeme?, h.separates_eq]
    split
    · exact .found h.skipBlanks ()
    · trivial
  | char c =>
    have hc : beginsGap c = false := by simpa [endsAtGaps] using ht
    refine h.lexeme (f := fun cs => if cs.head? = some c then some (1, ()) else none) ?_ ?_ ?_
    · intro cs n a hn
      rcases cs with _ | ⟨d, cs⟩ <;> simp at hn ⊢
      omega
    · intro cs n a hn
      rcases cs with _ | ⟨d, cs⟩
      · simp at hn
      · simp only [List.head?_cons, Option.some.injEq] at hn
        split at hn
        · rename_i hd
          obtain ⟨rfl, -⟩ := Prod.mk.inj (Option.some.inj hn)
          simp only [beginsGap, Bool.or_eq_false_iff] at hc
          simp [leavesComment, hd, hc.2]
        · simp at hn
    · intro s x _
      rcases x with _ | ⟨d, x⟩
      · obtain ⟨d, cs, hs, hd⟩ := s.exists_beginsGap
        have hne : d ≠ c := by
          rintro rfl
          rw [hc] at hd
          cases hd
        simp [hs, hne]
      · rfl
  | word w =>
    rw [endsAtGaps, Bool.or_eq_true, decide_eq_true_eq, beq_iff_eq] at ht
    obtain hw | rfl := ht
    · exact h.lexeme_of_contained (contained_keyword hw.1) fun s x _ => by
        rw [keywordLength?_gap_of_isWord hw]
    · have hw : IsPlainWord "at end" := by decide
      refine h.lexeme_of_contained (contained_keyword hw) fun s x hseam => ?_
      rw [keywordLength?_gap hw s fun u v hin => ?_]
      rw [show wordsOf "at end".toList = ["at".toList, "end".toList] by decide] at hin
      obtain ⟨rfl, rfl⟩ : u = "at".toList ∧ v = "end".toList := by simpa using hin.eq_of_length rfl
      exact hseam.words
  | oneOf entries =>
    have he : ∀ e ∈ entries, IsWord e.1 := of_decide_eq_true ht
    exact h.lexeme_of_contained (contained_oneOf fun e h => (he e h).1) fun s x _ =>
      endsAtGaps_oneOf he x q s
  | symbol kind =>
    exact h.lexeme_of_contained (contained_symbolLexeme? kind) fun s x _ =>
      endsAtGaps_symbolLexeme? kind x q s
  | flag => exact h.lexeme_of_contained contained_flagLexeme? fun s x _ => endsAtGaps_flagLexeme? x q s
  | decimal =>
    exact h.lexeme_of_contained contained_decimalLexeme? fun s x _ => endsAtGaps_decimalLexeme? x q s
  | integer =>
    exact h.lexeme_of_contained contained_integerLexeme? fun s x _ => endsAtGaps_integerLexeme? x q s

open View in
/-- Empty parentheses are the same in texts that differ in one gap. -/
theorem Reader.respects_regapped_emptyParens (q : List Char) (s s' : Gap) :
    Reader.Respects (Regapped q s s') fun v =>
      .lexeme v ((emptyParensLength? v.rest).map fun n => (n, ())) := by
  intro v v' h
  refine h.lexeme (f := fun cs => (emptyParensLength? cs).map fun n => (n, ())) ?_ ?_ ?_
  · intro cs n a hn
    obtain ⟨m, hm, hn⟩ := Option.map_eq_some_iff.1 hn
    obtain ⟨rfl, -⟩ := Prod.mk.inj hn
    exact emptyParensLength?_le hm
  · intro cs n a hn
    obtain ⟨m, hm, hn⟩ := Option.map_eq_some_iff.1 hn
    obtain ⟨rfl, -⟩ := Prod.mk.inj hn
    exact leavesComment_emptyParens hm
  · intro s x hseam
    rw [emptyParensLength?_gap s hseam.parens]

open View in
theorem Nonterminal.respects_regapped (q : List Char) (s s' : Gap) (levels : Nat) {α : Type}
    (n : Nonterminal α) : (n.denote levels).Respects (Regapped q s s') := by
  induction levels generalizing α with
  | zero => exact fun _ => trivial
  | succ levels ih =>
    exact Grammar.respects_denote (Regapped.bisimulation q s s')
      (fun ht => Terminal.respects_regapped ht q s s')
      (Reader.respects_regapped_emptyParens q s s') (fun n => n.forward_denote levels) ih
      n.endsAtGaps_production

/-! ### Readings of texts that differ in one gap -/

namespace Rule

variable {whole : Bool} {α : Type} {g : Rule α} {p q : List Char}

open View in
theorem look_regapped (hg : Named whole g) (q : List Char) (s s' : Gap) (levels : Nat) :
    (g.look levels).Respects (Regapped q s s') :=
  Grammar.respects_denote (Regapped.bisimulation q s s')
    (fun ht => Terminal.respects_regapped ht q s s') (Reader.respects_regapped_emptyParens q s s')
    (fun n => n.forward_denote levels) (fun n => n.respects_regapped q s s' levels)
    (endsAtGaps_of_named hg)

/-- What is read from a text is read from it with another gap. -/
theorem read_of_regapped (hg : Named whole g) (hp : leavesComment false p = false) (h : Seam p q)
    (s s' : Gap) {settings : Settings} {a : α}
    (ha : g.read settings (p ++ (s.chars ++ q)) = .ok a) :
    g.read settings (p ++ (s'.chars ++ q)) = .ok a := by
  obtain ⟨c, hc, hend⟩ := read_eq_ok_iff.1 ha
  obtain ⟨-, hlook⟩ := look_of_parse (settled_of_named hg) (calm_ofText _ _) hc
  have hrelated := look_regapped hg q s s' settings.ceiling (.ahead (b := none) h hp)
  obtain ⟨w, hw, hcw⟩ := (hlook ▸ hrelated).eq_found
  obtain ⟨d, hd, -, rfl⟩ := parse_of_look (settled_of_named hg)
    (calm_ofText (p ++ (s'.chars ++ q)) settings.ceiling) hw
  have hnil := hcw.skipBlanks.rest_eq_nil_iff
  rw [← Cursor.view_skipBlanks, ← Cursor.view_skipBlanks] at hnil
  exact read_eq_ok_iff.2 ⟨d, hd, fun hcomplete => hnil.1 (hend hcomplete)⟩

/-- **One gap may be put in the place of another**: whatever blanks and comments stand between two
tokens, the same construct is read, unless they stand in the middle of empty parentheses or between
the words of `at end`. -/
theorem read_regapped (hg : Named whole g) {settings : Settings}
    {r : List Char → Except Failure α} (hr : r = g.read settings ∨ r = g.readOnStack settings)
    (hp : leavesComment false p = false) (h : Seam p q) (s s' : Gap) {a : α} :
    r (p ++ (s.chars ++ q)) = .ok a ↔ r (p ++ (s'.chars ++ q)) = .ok a := by
  obtain ⟨settings', -, hok, -⟩ := exists_read_of_readOnStack hr
  rw [hok, hok]
  exact ⟨read_of_regapped hg hp h s s', read_of_regapped hg hp h s' s⟩

/-- A blank in front of a section is the same as a comment. -/
theorem read_regapped_comment :
    ∃ d, domain.read .standard "(define(domain d) (:timeless(p)))".toList = .ok d ∧
      domain.read .standard "(define(domain d);c\n(:timeless(p)))".toList = .ok d := by
  have hblank : (domain.read .standard "(define(domain d) (:timeless(p)))".toList).toOption.isSome =
      true := by decide +kernel
  rcases hd : domain.read .standard "(define(domain d) (:timeless(p)))".toList with e | d
  · rw [hd] at hblank
    cases hblank
  · exact ⟨d, rfl, (read_regapped .domain (.inl rfl) (p := "(define(domain d)".toList) (by decide)
      (seam_of_open _ "(:timeless(p)))".toList.tail) .one ⟨⟨";c\n".toList, by decide, by decide⟩,
        by decide⟩).1 hd⟩

/-- Between the words of `at end` it is not. -/
theorem read_regapped_at_end :
    (domain.read .standard "(define(domain d)(:constraints(at end(p))))".toList).toOption.isSome ∧
      ¬(domain.read .standard
        "(define(domain d)(:constraints(at;c\nend(p))))".toList).toOption.isSome := by
  decide +kernel

end Rule

end Pddl
