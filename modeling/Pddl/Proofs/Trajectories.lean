import Pddl.Proofs.Preconditions

/-!
# Constraints as a text can hold them

The operand of a modal operator is read as a goal wherever it can be.  Any name may be that of a
predicate or of a function, so modal operators look like goals and goals look like terms; a
constraint stands as an operand only where it does not look like a goal.

* `Constraint.modality?` : what a modal operator says, whichever it is.
* `Goal.LooksLikeTerm`, `Constraint.LooksLikeTerm`, `Constraint.LooksLikeGoal` : what can be read as
  something else.
* `Rule.shadows_term_goal`, `Rule.shadows_term_constraint`, `Rule.shadows_goal_constraint` :
  **whatever looks like a term or a goal is read as one.**
* `Constraint.IsRegular`, `PreferredConstraint.IsRegular` : constraints that are read as nothing
  else.
* `Rule.Finds.constraint`, `Rule.Finds.preferredConstraint` : all constraints that are found are
  regular.
-/

namespace Pddl

/-! ### Modal operators -/

/-- What a modal operator says. -/
structure Modality where
  /-- The head word. -/
  head : String
  /-- The times, in order. -/
  times : List Number
  /-- The operands, in order. -/
  operands : List Operand

/-- What the constraint says if it is a modal operator. -/
def Constraint.modality? : Constraint → Option Modality
  | conj _ => none
  | universal _ _ => none
  | atEnd g => some ⟨"at end", [], [.goal g]⟩
  | always o => some ⟨"always", [], [o]⟩
  | sometime o => some ⟨"sometime", [], [o]⟩
  | within x o => some ⟨"within", [x], [o]⟩
  | atMostOnce o => some ⟨"at-most-once", [], [o]⟩
  | sometimeAfter o p => some ⟨"sometime-after", [], [o, p]⟩
  | sometimeBefore o p => some ⟨"sometime-before", [], [o, p]⟩
  | alwaysWithin x o p => some ⟨"always-within", [x], [o, p]⟩
  | holdDuring x y o => some ⟨"hold-during", [x, y], [o]⟩
  | holdAfter x o => some ⟨"hold-after", [x], [o]⟩

/-! ### Constraints that look like something else -/

/-- The goal looks like a function applied to terms. -/
inductive Goal.LooksLikeTerm : Goal → Prop where
  | predicate (p : Predicate) (ts : List Term) : LooksLikeTerm (.atom (.predicate p ts))
  | conj {gs : List Goal} (h : ∀ g ∈ gs, LooksLikeTerm g) : LooksLikeTerm (.conj gs)
  | disj {gs : List Goal} (h : ∀ g ∈ gs, LooksLikeTerm g) : LooksLikeTerm (.disj gs)
  | neg {g : Goal} (h : LooksLikeTerm g) : LooksLikeTerm (.neg g)
  | imply {p c : Goal} (hp : LooksLikeTerm p) (hc : LooksLikeTerm c) : LooksLikeTerm (.imply p c)

/-- The constraint looks like a function applied to terms: it names no time and no variables. -/
inductive Constraint.LooksLikeTerm : Constraint → Prop where
  | conj {cs : List Constraint} (h : ∀ c ∈ cs, LooksLikeTerm c) : LooksLikeTerm (.conj cs)
  | modal {c : Constraint} {m : Modality} (hc : c.modality? = some m) (htimes : m.times = [])
    (hgoals : ∀ g, .goal g ∈ m.operands → g.LooksLikeTerm)
    (hconstraints : ∀ c', .constraint c' ∈ m.operands → LooksLikeTerm c') : LooksLikeTerm c

/-- The operand looks like a function applied to terms. -/
def Operand.LooksLikeTerm : Operand → Prop
  | goal g => g.LooksLikeTerm
  | constraint c => c.LooksLikeTerm

/-- The constraint looks like a goal. -/
inductive Constraint.LooksLikeGoal : Constraint → Prop where
  | conj {cs : List Constraint} (h : ∀ c ∈ cs, LooksLikeGoal c) : LooksLikeGoal (.conj cs)
  | universal {vs : TypedList Variable} {c : Constraint} (h : LooksLikeGoal c) :
    LooksLikeGoal (.universal vs c)
  | term {c : Constraint} (h : c.LooksLikeTerm) : LooksLikeGoal c

/-- The operands of a modal operator that looks like a term look like terms. -/
theorem Constraint.LooksLikeTerm.operands {c : Constraint} {m : Modality}
    (h : c.LooksLikeTerm) (hc : c.modality? = some m) :
    m.times = [] ∧ ∀ o ∈ m.operands, o.LooksLikeTerm := by
  cases h with
  | conj _ => cases hc
  | modal hc' htimes hgoals hconstraints =>
    obtain rfl := Option.some.inj (hc.symm.trans hc')
    refine ⟨htimes, fun o ho => ?_⟩
    cases o with
    | goal g => exact hgoals g ho
    | constraint c => exact hconstraints c ho

/-! ### Regular constraints -/

/-- A constraint as a text can hold it: no operand is a constraint that looks like a goal. -/
inductive Constraint.IsRegular : Constraint → Prop where
  | conj {cs : List Constraint} (h : ∀ c ∈ cs, IsRegular c) : IsRegular (.conj cs)
  | universal {vs : TypedList Variable} {c : Constraint} (hvs : vs.IsWritable) (h : IsRegular c) :
    IsRegular (.universal vs c)
  | modal {c : Constraint} {m : Modality} (hc : c.modality? = some m)
    (htimes : ∀ x ∈ m.times, x.negative = false) (hgoals : ∀ g, .goal g ∈ m.operands → g.IsRegular)
    (hconstraints : ∀ c', .constraint c' ∈ m.operands → IsRegular c')
    (hlike : ∀ c', .constraint c' ∈ m.operands → ¬c'.LooksLikeGoal) : IsRegular c

/-- An operand as a text can hold it. -/
def Operand.IsRegular : Operand → Prop
  | goal g => g.IsRegular
  | constraint c => c.IsRegular ∧ ¬c.LooksLikeGoal

theorem Constraint.IsRegular.of_operands {c : Constraint} {m : Modality}
    (hc : c.modality? = some m) (htimes : ∀ x ∈ m.times, x.negative = false)
    (hos : ∀ o ∈ m.operands, o.IsRegular) : c.IsRegular :=
  .modal hc htimes (fun _ hg => hos _ hg) (fun _ hc => (hos _ hc).1) fun _ hc => (hos _ hc).2

/-- The constraint of a problem as a text can hold it: what must hold is a modal operator. -/
inductive PreferredConstraint.IsRegular : PreferredConstraint → Prop where
  | required {c : Constraint} (hc : c.IsRegular) (hm : c.modality?.isSome) :
    IsRegular (.required c)
  | conj {cs : List PreferredConstraint} (h : ∀ c ∈ cs, IsRegular c) : IsRegular (.conj cs)
  | universal {vs : TypedList Variable} {c : PreferredConstraint} (hvs : vs.IsWritable)
    (h : IsRegular c) : IsRegular (.universal vs c)
  | preferred (n : Option PreferenceName) {c : Constraint} (hc : c.IsRegular) :
    IsRegular (.preferred n c)

/-! ### Heads that are names -/

/-- A word that is the text of a symbol is in front where the symbol is. -/
theorem Terminal.symbolLexeme?_of_written {kind : SymbolKind} (s : Symbol kind)
    (hx : IsWord s.written) {cs : List Char} {n : Nat} (h : keywordLength? s.written cs = some n) :
    symbolLexeme? kind cs = some (n, s) := by
  obtain ⟨hlen, hon⟩ := keywordLength?_eq_some.1 h
  rw [hx.2] at hlen
  obtain ⟨r, rfl, ⟨-, rfl⟩ | ⟨hne, -⟩⟩ := wordsLength?_cons.1 hlen
  · have hlast : s.written.toList.getLast?.any isNameChar = true := by
      have hne : s.text.toList ≠ [] := fun hnil => by
        have := s.valid
        simp [hnil, isName] at this
      rw [Symbol.written, String.toList_append, List.getLast?_append_of_ne_nil _ hne,
        List.getLast?_eq_some_getLast hne]
      exact isNameChar_of_mem_name s.valid _ (List.getLast_mem hne)
    exact symbolLexeme?_written s (by simpa [hlast] using hon)
  · exact absurd rfl hne

/-- A word that is a name is in front where it is a symbol. -/
theorem Terminal.symbolLexeme?_of_keywordLength? {kind : SymbolKind} (hk : kind.sigil = "")
    {x : String} (hx : IsWord x) (hn : isName x.toList = true) {cs : List Char} {n : Nat}
    (h : keywordLength? x cs = some n) : symbolLexeme? kind cs = some (n, ⟨x, hn⟩) := by
  have hwritten : (⟨x, hn⟩ : Symbol kind).written = x := Symbol.written_of_sigil hk _
  exact symbolLexeme?_of_written ⟨x, hn⟩ (by rwa [hwritten]) (by rwa [hwritten])

/-- Between the words `at` and `end` there is white space. -/
theorem exists_of_atEnd {cs : List Char} {n : Nat} (h : keywordLength? "at end" cs = some n) :
    ∃ gap r, cs = "at".toList ++ (gap ++ ("end".toList ++ r)) ∧ gap ≠ [] ∧
      (∀ c ∈ gap, isWideBlank c = true) ∧ n = gap.length + 5 ∧ r.head?.any isNameChar = false := by
  obtain ⟨hlen, hon⟩ := keywordLength?_eq_some.1 h
  rw [show wordsOf "at end".toList = ["at".toList, "end".toList] by decide] at hlen
  obtain ⟨rest, rfl, ⟨hnil, -⟩ | ⟨-, m, hm, hgap, rfl⟩⟩ := wordsLength?_cons.1 hlen
  · simp at hnil
  obtain ⟨r, hr, ⟨-, rfl⟩ | ⟨hne, -⟩⟩ := wordsLength?_cons.1 hm
  · have hrest : rest = rest.takeWhile isWideBlank ++ ("end".toList ++ r) := by
      rw [← hr, List.takeWhile_append_dropWhile]
    have hdrop : ("at".toList ++ rest).drop
        ("at".toList.length + (rest.takeWhile isWideBlank).length + "end".toList.length) = r := by
      rw [← List.drop_drop, ← List.drop_drop, List.drop_left, drop_takeWhile_length, hr,
        List.drop_left]
    refine ⟨rest.takeWhile isWideBlank, r, by rw [← hrest], hgap, fun c hc => of_mem_takeWhile hc,
      ?_, ?_⟩
    · rw [show "at".toList.length = 2 from rfl, show "end".toList.length = 3 from rfl]
      omega
    · rw [hdrop, show "at end".toList.getLast?.any isNameChar = true by decide,
        Bool.true_and] at hon
      exact hon
  · exact absurd rfl hne

/-! ### Lists and heads that are there -/

namespace Rule

open Grammar

variable {α β : Type} {g : Rule α} {h : Rule β} {text : List Char} {levels : Nat} {u v w : View}
  {a : α} {b : β}

theorem attains_map {f : α → β} (hg : (g.look levels v).Attains w) :
    (look levels (f <$> g) v).Attains w := hg.andThen fun _ => rfl

/-- A list of one element is there if the element is. -/
theorem attains_many_one (hg : (g.look levels v).Attains u) (hclose : ∀ r, g.Misses (')' :: r))
    (hu : u.skipBlanks.rest.head? = some ')') : (look levels (many g) v).Attains u :=
  attains_many_cons hg (attains_more_close (forward_look g levels) (misses_look_close hclose hu))

/-- A list of two elements is there if a pair that looks like them is found. -/
theorem attains_many_pair {P : β → Prop} (hgh : Shadows text (g.look levels) (h.look levels) P)
    (hopens : h.opens = true) (hnext : h.next .before = some .behind)
    (hclose : ∀ r, g.Misses (')' :: r)) (hv : v.rest <:+ text) {c : β}
    (hp : look levels (pair h h) v = .found w (b, c)) (hb : P b) (hc : P c)
    (hw : w.skipBlanks.rest.head? = some ')') : (look levels (many g) v).Attains w := by
  obtain ⟨u, hu, hsep⟩ := look_pair_eq_found.1 hp
  have hlt : w.rest.length < u.rest.length := by
    obtain ⟨-, hfound⟩ := Reader.separated_eq_found.1 hsep
    exact (length_lt_of_look hnext hfound (head?_of_opens hopens hfound)).trans_le
      u.rest_skipBlanks_suffix.length_le
  exact attains_many_cons (hgh v u b hv hu hb)
    (attains_more_cons (forward_look g levels)
      (attains_separated hgh ((forward_look h levels hu).trans hv) hsep hc) (by omega)
      (attains_more_close (forward_look g levels) (misses_look_close hclose hw)))

theorem rest_inside_suffix (v : View) : v.inside.rest <:+ v.rest :=
  (View.rest_skipBlanks_suffix _).trans (List.tail_suffix _)

/-- What is read behind the head word of a form stands in the same text. -/
theorem rest_behind_suffix (v : View) (n : Nat) :
    (v.inside.advance n).skipBlanks.rest <:+ v.rest :=
  ((View.rest_skipBlanks_suffix _).trans (View.rest_advance_suffix _ _)).trans
    (rest_inside_suffix v)

/-- The head word of a form may also be a symbol, if it is a name. -/
theorem attains_headed_of_form {kind : SymbolKind} (hk : kind.sigil = "") {x : String}
    (hx : IsWord x ∧ isName x.toList = true) (hf : look levels (form x g) v = .found w a)
    (hh : ∀ u u', u.rest <:+ v.rest → u.skipBlanks = u → g.look levels u = .found u' a →
      u'.skipBlanks.rest.head? = some ')' → (h.look levels u).Attains u') :
    (look levels (parens (headed (symbol kind) h)) v).Attains w := by
  obtain ⟨hv, n, u, hn, ha, hc⟩ := look_form_eq_found.1 hf
  have hsymbol : look levels (symbol kind) v.inside = .found (v.inside.advance n) ⟨x, hx.2⟩ := by
    rw [look_symbol, lexeme_eq_found]
    exact ⟨n, Terminal.symbolLexeme?_of_keywordLength? hk hx.1 hx.2 hn, rfl⟩
  refine attains_parens hv ?_ hc
  rw [look_headed, hsymbol]
  exact (hh _ u (rest_behind_suffix v n) (View.skipBlanks_skipBlanks _) ha hc.head?).andThen
    fun _ => rfl

/-- In front of a parenthesis, or of blanks and a parenthesis, elements are separated. -/
theorem separates_of_open (hv : v.skipBlanks.rest.head? = some '(') : v.separates = true := by
  rcases Nat.eq_zero_or_pos (blankLength false v.rest) with hb | hb
  · rw [View.skipBlanks, hb, View.advance_zero] at hv
    simp [View.separates, hv]
  · simp [View.separates, hb]

/-! ### What looks like a term -/

/-- Of the characters that count as white space somewhere, the text holds only the six blanks that
separate its words.  Any other may stand between the two words of `at end` and nowhere else, and is
not written back. -/
def IsPlainlySpaced (text : List Char) : Prop := ∀ c ∈ text, isWideBlank c = true → isBlank c = true

-- Not left to inference, which may go through the characters that there are and not the text's.
instance (text : List Char) : Decidable (IsPlainlySpaced text) :=
  List.decidableBAll (fun c => isWideBlank c = true → isBlank c = true) text

theorem attains_term_of_headed (hv : v.rest.head? = some '(')
    (h : (look levels (parens (headed (symbol .function) (many term))) v).Attains w) :
    (term.look (levels + 1) v).Attains w := by
  have hvar : v.rest.head? ≠ some '?' := by simp [hv]
  exact Finding.Misses.orElse_attains (Misses.map (misses_var hvar) levels v.before)
    (Finding.Attains.orElse (attains_map (attains_map h)))

/-- A name is a term. -/
theorem attains_term_of_name {r : List Char} {x : String} (hn : isName x.toList = true)
    (hr : r.head?.any isNameChar = false) (levels : Nat) (b : Option Char) :
    (term.look levels ⟨b, x.toList ++ r⟩).Attains
      (View.advance ⟨b, x.toList ++ r⟩ x.toList.length) := by
  cases levels with
  | zero => exact trivial
  | succ k =>
    have hwritten : (⟨x, hn⟩ : Name).written = x := Symbol.written_of_sigil rfl _
    obtain ⟨c, hc, hs⟩ := head?_written rfl (⟨x, hn⟩ : Name) r
    rw [hwritten] at hc
    have hvar : (x.toList ++ r).head? ≠ some '?' := by
      rw [hc]
      rintro ⟨⟩
      exact absurd hs (by decide)
    have hopen : (x.toList ++ r).head? ≠ some '(' := by
      rw [hc]
      rintro ⟨⟩
      exact absurd hs (by decide)
    have hname : look k (symbol .name) ⟨b, x.toList ++ r⟩ =
        .found (View.advance ⟨b, x.toList ++ r⟩ x.toList.length) ⟨x, hn⟩ := by
      rw [look_symbol, lexeme_eq_found]
      refine ⟨_, ?_, rfl⟩
      have h := Terminal.symbolLexeme?_written (⟨x, hn⟩ : Name) hr
      rwa [hwritten] at h
    exact Finding.Misses.orElse_attains (Misses.map (misses_var hvar) k b)
      (Finding.Misses.orElse_attains (Misses.map (Misses.map (misses_parens hopen)) k b)
        (attains_map (Finding.attains_of_found hname)))

/-- The words `at end` may also be a symbol and a name. -/
theorem attains_headed_of_atEnd (htext : IsPlainlySpaced text) (hv : v.rest <:+ text)
    {kind : SymbolKind} (hk : kind.sigil = "") (hf : look levels (form "at end" g) v = .found w a)
    (hopens : g.opens = true) (hnext : g.next .before = some .behind)
    (hg : ∀ u u', u.rest <:+ text → g.look levels u = .found u' a → (term.look levels u).Attains u') :
    (look levels (parens (headed (symbol kind) (many term))) v).Attains w := by
  obtain ⟨hopen, n, u, hn, ha, hc⟩ := look_form_eq_found.1 hf
  have hsuffix := (rest_behind_suffix v n).trans hv
  have hinside := (rest_inside_suffix v).trans hv
  rcases hin : v.inside with ⟨before, cs⟩
  rw [hin] at hn ha hsuffix hinside
  obtain ⟨gap, r, rfl, hne, hgap, rfl, hr⟩ := exists_of_atEnd hn
  have hgap : IsGap gap := ⟨hne, fun c hc => htext c (hinside.mem (by simp [hc])) (hgap c hc)⟩
  have hend : IsSolid ("end".toList ++ r) := ⟨_, _, rfl, by decide, by decide, by decide⟩
  have hadvance : View.advance ⟨before, "at".toList ++ (gap ++ ("end".toList ++ r))⟩
      (gap.length + 5) = ⟨some 'd', r⟩ := by
    have hlen : ("at".toList ++ (gap ++ "end".toList)).length = gap.length + 5 := by simp
    have hcs : "at".toList ++ (gap ++ ("end".toList ++ r)) =
        ("at".toList ++ (gap ++ "end".toList)) ++ r := by simp
    rw [hcs, View.advance, View.mk.injEq]
    constructor
    · rw [List.getElem?_append_left (by omega)]
      simp [Nat.add_comm]
    · rw [← hlen, List.drop_left]
  rw [hadvance] at ha hsuffix
  -- behind the symbol and the gap stands the name
  obtain ⟨b', hb'⟩ := View.exists_skipBlanks_gap hgap hend (some 't')
  have hat : look levels (symbol kind) ⟨before, "at".toList ++ (gap ++ ("end".toList ++ r))⟩ =
      .found ⟨some 't', gap ++ ("end".toList ++ r)⟩ ⟨"at", by decide⟩ := by
    rw [look_symbol, lexeme_eq_found]
    have h := Terminal.symbolLexeme?_written (⟨"at", by decide⟩ : Symbol kind)
      (hgap.delimited ("end".toList ++ r)).any_isNameChar
    rw [Symbol.written_of_sigil hk] at h
    refine ⟨_, h, ?_⟩
    show _ = View.advance _ "at".toList.length
    rw [show "at".toList.length = 2 from rfl]
    simp [View.advance]
  have hname : (term.look levels ⟨b', "end".toList ++ r⟩).Attains ⟨some 'd', r⟩ :=
    attains_term_of_name (by decide) hr levels b'
  -- and behind that name the operand
  have hsep : (Reader.separated (term.look levels) ⟨some 'd', r⟩).Attains u := by
    rw [Reader.separated, if_pos (separates_of_open (head?_of_opens hopens ha))]
    exact hg _ u hsuffix ha
  have hlt : u.rest.length ≠ r.length := by
    have h₁ := length_lt_of_look hnext ha (head?_of_opens hopens ha)
    have h₂ := (View.rest_skipBlanks_suffix ⟨some 'd', r⟩).length_le
    simp only at h₂
    omega
  refine attains_parens hopen ?_ hc
  rw [look_headed, hin, hat]
  simp only [Finding.andThen, hb']
  exact (attains_many_cons hname (attains_more_cons (forward_look _ _) hsep hlt
    (attains_more_close (forward_look _ _)
      (misses_look_close (fun _ => misses_close_term) hc.head?)))).andThen fun _ => rfl

/-- **A term is there wherever a goal that looks like one is found.** -/
theorem shadows_term_goal (levels : Nat) :
    Shadows text (term.look levels) (goal.look levels) Goal.LooksLikeTerm := by
  induction levels with
  | zero =>
    intro v w g _ h _
    cases h
  | succ levels ih =>
    intro v w g hv h hg
    have hopen := head?_of_opens (g := goal) rfl h
    refine attains_term_of_headed hopen ?_
    have hread : ReadsGoal levels v w g := readsGoal_of_look h
    cases hg with
    | predicate p ts =>
      obtain hf | ⟨-, hf⟩ := look_orElse_eq_found.1 hread
      · obtain ⟨lr, -, heq⟩ := look_map_eq_found.1 hf
        cases heq
      · obtain ⟨⟨p, ts⟩, hf, -⟩ := look_map_eq_found.1 hf
        exact Finding.attains_of_found (look_headed_of_kind (by rfl) hf)
    | conj hgs =>
      exact attains_headed_of_form rfl (by decide) hread fun u u' hu hskip hfound hclose =>
        attains_many ih (fun _ => misses_close_term) (hu.trans hv) hfound hgs hskip hclose
    | disj hgs =>
      exact attains_headed_of_form rfl (by decide) hread fun u u' hu hskip hfound hclose =>
        attains_many ih (fun _ => misses_close_term) (hu.trans hv) hfound hgs hskip hclose
    | neg hg =>
      exact attains_headed_of_form rfl (by decide) hread fun u u' hu _ hfound hclose =>
        attains_many_one (ih u u' _ (hu.trans hv) hfound hg) (fun _ => misses_close_term) hclose
    | imply hp hc =>
      exact attains_headed_of_form rfl (by decide) hread fun u u' hu _ hfound hclose =>
        attains_many_pair ih rfl rfl (fun _ => misses_close_term) (hu.trans hv) hfound hp hc hclose

/-! ### How constraints are read -/

/-- How a constraint is read, by what it is. -/
def ReadsConstraint (levels : Nat) (v w : View) : Constraint → Prop
  | .conj cs => look levels (form "and" (many constraint)) v = .found w cs
  | .universal vs c => look levels (quantified "forall" constraint) v = .found w (vs, c)
  | .atEnd g => look levels (form "at end" goal) v = .found w g
  | .always o => look levels (form "always" operand) v = .found w o
  | .sometime o => look levels (form "sometime" operand) v = .found w o
  | .within x o => look levels (form "within" (pair number operand)) v = .found w (x, o)
  | .atMostOnce o => look levels (form "at-most-once" operand) v = .found w o
  | .sometimeAfter o p =>
    look levels (form "sometime-after" (pair operand operand)) v = .found w (o, p)
  | .sometimeBefore o p =>
    look levels (form "sometime-before" (pair operand operand)) v = .found w (o, p)
  | .alwaysWithin x o p =>
    look levels (form "always-within" (pair number (pair operand operand))) v = .found w (x, o, p)
  | .holdDuring x y o =>
    look levels (form "hold-during" (pair number (pair number operand))) v = .found w (x, y, o)
  | .holdAfter x o => look levels (form "hold-after" (pair number operand)) v = .found w (x, o)

theorem readsConstraint_of_look {c : Constraint} (h : constraintForms.look levels v = .found w c) :
    ReadsConstraint levels v w c := by
  iterate 11
    obtain h | ⟨-, h⟩ := look_orElse_eq_found.1 h
    · obtain ⟨_, hfound, rfl⟩ := look_map_eq_found.1 h
      exact hfound
  obtain ⟨_, hfound, rfl⟩ := look_map_eq_found.1 h
  exact hfound

/-- A modal operator that looks like a term is a symbol with terms. -/
theorem attains_headed_of_modality (htext : IsPlainlySpaced text) (hv : v.rest <:+ text)
    {kind : SymbolKind} (hk : kind.sigil = "") {c : Constraint} {m : Modality}
    (hc : c.modality? = some m) (hlike : c.LooksLikeTerm) (h : ReadsConstraint levels v w c)
    (ho : Shadows text (term.look levels) (operand.look levels) Operand.LooksLikeTerm) :
    (look levels (parens (headed (symbol kind) (many term))) v).Attains w := by
  obtain ⟨htimes, hos⟩ := hlike.operands hc
  have hone : ∀ {x : String} {o : Operand}, IsWord x ∧ isName x.toList = true → o.LooksLikeTerm →
      look levels (form x operand) v = .found w o →
      (look levels (parens (headed (symbol kind) (many term))) v).Attains w := fun hx ho' hf =>
    attains_headed_of_form hk hx hf fun u u' hu _ hfound hclose =>
      attains_many_one (ho u u' _ (hu.trans hv) hfound ho') (fun _ => misses_close_term) hclose
  have htwo : ∀ {x : String} {o p : Operand}, IsWord x ∧ isName x.toList = true →
      o.LooksLikeTerm → p.LooksLikeTerm →
      look levels (form x (pair operand operand)) v = .found w (o, p) →
      (look levels (parens (headed (symbol kind) (many term))) v).Attains w := fun hx ho' hp hf =>
    attains_headed_of_form hk hx hf fun u u' hu _ hfound hclose =>
      attains_many_pair ho rfl rfl (fun _ => misses_close_term) (hu.trans hv) hfound ho' hp hclose
  cases c with
  | conj cs => cases hc
  | universal vs c => cases hc
  | atEnd g =>
    cases hc
    exact attains_headed_of_atEnd htext hv hk h rfl rfl fun u u' hu hfound =>
      shadows_term_goal levels u u' g hu hfound (hos (.goal g) (by simp))
  | always o =>
    cases hc
    exact hone (by decide) (hos o (by simp)) h
  | sometime o =>
    cases hc
    exact hone (by decide) (hos o (by simp)) h
  | atMostOnce o =>
    cases hc
    exact hone (by decide) (hos o (by simp)) h
  | sometimeAfter o p =>
    cases hc
    exact htwo (by decide) (hos o (by simp)) (hos p (by simp)) h
  | sometimeBefore o p =>
    cases hc
    exact htwo (by decide) (hos o (by simp)) (hos p (by simp)) h
  | within x o =>
    cases hc
    cases htimes
  | alwaysWithin x o p =>
    cases hc
    cases htimes
  | holdDuring x y o =>
    cases hc
    cases htimes
  | holdAfter x o =>
    cases hc
    cases htimes

/-- An operand is a goal or a constraint. -/
theorem look_operand_eq_found {o : Operand} (h : operand.look (levels + 1) v = .found w o) :
    (∃ g, goal.look levels v = .found w g ∧ o = .goal g) ∨
      ∃ c, goal.look levels v = .missing ∧ constraint.look levels v = .found w c ∧
        o = .constraint c := by
  obtain h | ⟨hm, h⟩ := look_orElse_eq_found.1 h
  · obtain ⟨g, hg, rfl⟩ := look_map_eq_found.1 h
    exact .inl ⟨g, hg, rfl⟩
  · obtain ⟨c, hc, rfl⟩ := look_map_eq_found.1 h
    exact .inr ⟨c, look_map_eq_missing.1 hm, hc, rfl⟩

/-- **A term is there wherever a constraint or an operand that looks like one is found.** -/
theorem shadows_term_constraint (htext : IsPlainlySpaced text) (levels : Nat) :
    Shadows text (term.look levels) (constraint.look levels) Constraint.LooksLikeTerm ∧
      Shadows text (term.look levels) (operand.look levels) Operand.LooksLikeTerm := by
  induction levels with
  | zero =>
    constructor <;>
      · intro v w a _ h _
        cases h
  | succ levels ih =>
    have hconstraint : Shadows text (term.look (levels + 1)) (constraint.look (levels + 1))
        Constraint.LooksLikeTerm := by
      intro v w c hv h hc
      have hread : ReadsConstraint levels v w c := readsConstraint_of_look h
      refine attains_term_of_headed (head?_of_opens (g := constraint) rfl h) ?_
      cases hm : c.modality? with
      | some m => exact attains_headed_of_modality htext hv rfl hm hc hread ih.2
      | none =>
        cases hc with
        | conj hcs =>
          exact attains_headed_of_form rfl (by decide) hread fun u u' hu hskip hfound hclose =>
            attains_many ih.1 (fun _ => misses_close_term) (hu.trans hv) hfound hcs hskip hclose
        | modal hc' => cases hm.symm.trans hc'
    refine ⟨hconstraint, fun v w o hv h ho => ?_⟩
    obtain ⟨g, hg, rfl⟩ | ⟨c, -, hc, rfl⟩ := look_operand_eq_found h
    · exact shadows_term_goal _ v w g hv (look_of_le (Nat.le_succ _) hg) ho
    · exact hconstraint v w c hv (look_of_le (Nat.le_succ _) hc) ho

/-- What looks like a conjunction of goals or a quantified goal is a goal, and so is what is a name
with terms. -/
theorem goalForms_ne_missing (h : (look levels (form "and" (many goal)) v).Attains w ∨
    (look levels (quantified "forall" goal) v).Attains w ∨
    (look levels (parens (headed (symbol .predicate) (many term))) v).Attains w) :
    goalForms.look levels v ≠ .missing := by
  intro hm
  have hatom := look_atomicFormula_eq_missing hm
  obtain ⟨hand, hm⟩ := look_orElse_eq_missing.1 hm
  have hm := (look_orElse_eq_missing.1 hm).2
  have hm := (look_orElse_eq_missing.1 hm).2
  have hm := (look_orElse_eq_missing.1 hm).2
  have hm := (look_orElse_eq_missing.1 hm).2
  have hforall := (look_orElse_eq_missing.1 hm).1
  obtain h | h | h := h
  · exact h.ne_missing (look_map_eq_missing.1 hand)
  · exact h.ne_missing (look_map_eq_missing.1 hforall)
  · exact h.ne_missing (look_map_eq_missing.1 (look_orElse_eq_missing.1 hatom).2)

/-- **A goal is there wherever a constraint that looks like one is found.** -/
theorem shadows_goal_constraint (htext : IsPlainlySpaced text) (levels : Nat) :
    Shadows text (goal.look levels) (constraint.look levels) Constraint.LooksLikeGoal := by
  induction levels with
  | zero =>
    intro v w c _ h _
    cases h
  | succ levels ih =>
    intro v w c hv h hc
    have hread : ReadsConstraint levels v w c := readsConstraint_of_look h
    refine attains_of_ne_missing (h := constraint) rfl rfl h (head?_of_opens rfl h) ?_
    refine goalForms_ne_missing (w := w) ?_
    have hconj : ∀ {cs : List Constraint}, (∀ c ∈ cs, c.LooksLikeGoal) →
        look levels (form "and" (many constraint)) v = .found w cs →
        (look levels (form "and" (many goal)) v).Attains w := by
      intro cs hcs hf
      obtain ⟨hopen, n, u, hn, hfound, hclose⟩ := look_form_eq_found.1 hf
      exact attains_form_of_word hopen hn (attains_many ih (fun _ => misses_close rfl)
        ((rest_behind_suffix v n).trans hv) hfound hcs (View.skipBlanks_skipBlanks _) hclose.head?)
        hclose
    cases hc with
    | conj hcs => exact .inl (hconj hcs hread)
    | universal hc =>
      obtain ⟨hopen, n, u, hn, hvc, hclose⟩ := look_form_eq_found.1 hread
      obtain ⟨x, hx, hsep⟩ := look_pair_eq_found.1 hvc
      have hsuffix := ((forward_look _ levels hx).trans (rest_behind_suffix v n)).trans hv
      exact .inr (.inl (attains_form_of_word hopen hn
        (attains_pair (Finding.attains_of_found hx) (attains_separated ih hsuffix hsep hc)) hclose))
    | term hc =>
      cases hm : c.modality? with
      | some m =>
        exact .inr (.inr (attains_headed_of_modality htext hv rfl hm hc hread
          (shadows_term_constraint htext levels).2))
      | none =>
        cases hc with
        | conj hcs => exact .inl (hconj (fun c hc => .term (hcs c hc)) hread)
        | modal hc' => cases hm.symm.trans hc'

/-! ### Constraints that are found -/

/-- Operands that are found are regular if constraints are. -/
theorem isRegular_of_look_operand (htext : IsPlainlySpaced text) {o : Operand}
    (h : Finds operand text (levels + 1) o)
    (hc : ∀ c, Finds constraint text levels c → c.IsRegular) : o.IsRegular := by
  obtain ⟨v, w, hv, h⟩ := h
  obtain ⟨g, hg, rfl⟩ | ⟨c, hm, hfound, rfl⟩ := look_operand_eq_found h
  · exact Finds.goal ⟨v, w, hv, hg⟩
  · exact ⟨hc c ⟨v, w, hv, hfound⟩, fun hlike =>
      (shadows_goal_constraint htext levels v w c hv hfound hlike).ne_missing hm⟩

/-- A constraint that is found is regular if its parts are. -/
theorem isRegular_of_readsConstraint {c : Constraint} (hv : v.rest <:+ text)
    (h : ReadsConstraint levels v w c)
    (hc : ∀ c, Finds constraint text levels c → c.IsRegular)
    (ho : ∀ o, Finds operand text levels o → o.IsRegular) : c.IsRegular := by
  have hone : ∀ {x : String} {o : Operand}, look levels (form x operand) v = .found w o →
      ∀ o' ∈ [o], o'.IsRegular := fun hf =>
    List.forall_mem_singleton.2 (ho _ (Finds.form ⟨v, w, hv, hf⟩))
  have htwo : ∀ {x : String} {o p : Operand},
      look levels (form x (pair operand operand)) v = .found w (o, p) →
      ∀ o' ∈ [o, p], o'.IsRegular := fun hf =>
    have hop := (Finds.form ⟨v, w, hv, hf⟩).pair
    List.forall_mem_cons.2 ⟨ho _ hop.1, List.forall_mem_singleton.2 (ho _ hop.2)⟩
  have hnone : ∀ x ∈ ([] : List Number), x.negative = false := by simp
  cases c with
  | conj cs => exact .conj fun c hmem => hc c ((Finds.form ⟨v, w, hv, h⟩).many c hmem)
  | universal vs c =>
    obtain ⟨hvs, hfound⟩ := Finds.quantified ⟨v, w, hv, h⟩
    exact .universal hvs.parameters (hc c hfound)
  | atEnd g =>
    exact .of_operands rfl hnone (List.forall_mem_singleton.2 (Finds.form ⟨v, w, hv, h⟩).goal)
  | always o => exact .of_operands rfl hnone (hone h)
  | sometime o => exact .of_operands rfl hnone (hone h)
  | atMostOnce o => exact .of_operands rfl hnone (hone h)
  | sometimeAfter o p => exact .of_operands rfl hnone (htwo h)
  | sometimeBefore o p => exact .of_operands rfl hnone (htwo h)
  | within x o =>
    obtain ⟨hx, hfound⟩ := (Finds.form ⟨v, w, hv, h⟩).pair
    exact .of_operands rfl (List.forall_mem_singleton.2 hx.number)
      (List.forall_mem_singleton.2 (ho o hfound))
  | alwaysWithin x o p =>
    obtain ⟨hx, hop⟩ := (Finds.form ⟨v, w, hv, h⟩).pair
    exact .of_operands rfl (List.forall_mem_singleton.2 hx.number)
      (List.forall_mem_cons.2 ⟨ho o hop.pair.1, List.forall_mem_singleton.2 (ho p hop.pair.2)⟩)
  | holdDuring x y o =>
    obtain ⟨hx, hyo⟩ := (Finds.form ⟨v, w, hv, h⟩).pair
    exact .of_operands rfl
      (List.forall_mem_cons.2 ⟨hx.number, List.forall_mem_singleton.2 hyo.pair.1.number⟩)
      (List.forall_mem_singleton.2 (ho o hyo.pair.2))
  | holdAfter x o =>
    obtain ⟨hx, hfound⟩ := (Finds.form ⟨v, w, hv, h⟩).pair
    exact .of_operands rfl (List.forall_mem_singleton.2 hx.number)
      (List.forall_mem_singleton.2 (ho o hfound))

/-- **Every constraint that is found is regular.** -/
theorem Finds.constraint (htext : IsPlainlySpaced text) {c : Constraint}
    (h : Finds Rule.constraint text levels c) : c.IsRegular := by
  have hall : ∀ levels, (∀ c, Finds Rule.constraint text levels c → c.IsRegular) ∧
      ∀ o, Finds Rule.operand text levels o → o.IsRegular := by
    intro levels
    induction levels with
    | zero =>
      constructor <;>
        · intro a ha
          obtain ⟨k, hk, -⟩ := ha.call
          omega
    | succ levels ih =>
      refine ⟨fun c hc => ?_, fun o ho => isRegular_of_look_operand htext ho ih.1⟩
      obtain ⟨v, w, hv, hc⟩ := hc
      have hread : ReadsConstraint levels v w c := readsConstraint_of_look hc
      exact isRegular_of_readsConstraint hv hread ih.1 ih.2
  exact (hall levels).1 c h

/-- The constraint of a problem is there wherever a constraint is found. -/
theorem shadows_preferredConstraint (levels : Nat) :
    Shadows text (preferredConstraint.look levels) (constraint.look levels) fun _ => True := by
  intro v w c _ h _
  refine attains_of_ne_missing (h := constraint) rfl rfl h (head?_of_opens rfl h) fun hm => ?_
  cases levels with
  | zero => cases hm
  | succ k =>
    -- no constraint was missing with fewer levels
    have hm := (look_orElse_eq_missing.1 (look_orElse_eq_missing.1 hm).2).2
    have hm := (look_orElse_eq_missing.1 (look_orElse_eq_missing.1 hm).2).2
    have hm := look_map_eq_missing.1 hm
    rw [look_succ constraint (by rw [hm]; exact Finding.missing_ne_tooDeep), hm] at h
    cases h

/-- A constraint that is not read as several constraints or as a quantified one is a modal
operator. -/
theorem isSome_modality?_of_look {c : Constraint} (h : constraint.look levels v = .found w c)
    (hand : look levels (form "and" (many preferredConstraint)) v = .missing)
    (hforall : look levels (quantified "forall" preferredConstraint) v = .missing) :
    c.modality?.isSome := by
  obtain ⟨k, rfl, h⟩ := look_call_eq_found.1 h
  have hread := readsConstraint_of_look h
  cases c with
  | conj cs =>
    obtain ⟨hopen, n, u, hn, hcs, hclose⟩ := look_form_eq_found.1 (look_of_le (Nat.le_succ k) hread)
    have hmany := attains_many (shadows_preferredConstraint (k + 1)) (fun _ => misses_close rfl)
      (List.suffix_refl _) hcs (fun _ _ => trivial) (View.skipBlanks_skipBlanks _) hclose.head?
    exact absurd hand (attains_form_of_word hopen hn hmany hclose).ne_missing
  | universal vs c =>
    obtain ⟨hopen, n, u, hn, hvc, hclose⟩ := look_form_eq_found.1 (look_of_le (Nat.le_succ k) hread)
    obtain ⟨x, hx, hc⟩ := look_pair_eq_found.1 hvc
    have hpair := attains_pair (Finding.attains_of_found hx)
      (attains_separated (shadows_preferredConstraint (k + 1)) (List.suffix_refl _) hc trivial)
    exact absurd hforall (attains_form_of_word hopen hn hpair hclose).ne_missing
  | _ => rfl

/-- **Every constraint of a problem that is found is regular.** -/
theorem Finds.preferredConstraint (htext : IsPlainlySpaced text) {c : PreferredConstraint}
    (h : Finds Rule.preferredConstraint text levels c) : c.IsRegular := by
  refine Finds.call_induction (fun levels ih c h => ?_) h
  obtain ⟨v, w, hv, h⟩ := h
  obtain h | ⟨hand, h⟩ := look_orElse_eq_found.1 h
  · obtain ⟨cs, hcs, rfl⟩ := look_map_eq_found.1 h
    exact .conj fun c hc => ih ((Finds.form ⟨v, w, hv, hcs⟩).many c hc)
  obtain h | ⟨hforall, h⟩ := look_orElse_eq_found.1 h
  · obtain ⟨⟨vs, c⟩, hvc, rfl⟩ := look_map_eq_found.1 h
    obtain ⟨hvs, hc⟩ := Finds.quantified ⟨v, w, hv, hvc⟩
    exact .universal hvs.parameters (ih hc)
  obtain h | ⟨-, h⟩ := look_orElse_eq_found.1 h
  · obtain ⟨⟨n, c⟩, hnc, rfl⟩ := look_map_eq_found.1 h
    exact .preferred _ ((Finds.form ⟨v, w, hv, hnc⟩).pair.2.constraint htext)
  obtain h | ⟨-, h⟩ := look_orElse_eq_found.1 h
  · obtain ⟨c, hc, rfl⟩ := look_map_eq_found.1 h
    exact .preferred _ ((Finds.form ⟨v, w, hv, hc⟩).constraint htext)
  · obtain ⟨c, hc, rfl⟩ := look_map_eq_found.1 h
    exact .required (Finds.constraint htext ⟨v, w, hv, hc⟩)
      (isSome_modality?_of_look hc (look_map_eq_missing.1 hand) (look_map_eq_missing.1 hforall))

end Rule

end Pddl
