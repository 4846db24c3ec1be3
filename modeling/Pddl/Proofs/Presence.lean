import Pddl.Proofs.Context

/-!
# Where a construct is there

An alternative is taken only where the ones before it are missing.  A construct in parentheses ends
at the matching one, whichever rule reads it; so where one rule finds it, another rule either is
missing or comes to the same end.  That is what decides between rules that fit the same text.

* `Finding.Attains` : something is there, and it is a construct up to the given view or a failure
  that no alternative mends.
* `Rule.attains_of_ne_missing` : **what is there comes to the end that another rule found.**
* `Rule.attains_many`, `Rule.attains_pair`, `Rule.attains_form` : lists, pairs and forms are there if
  their parts are.
-/

namespace Pddl

/-! ### Blanks -/

theorem blankLength_drop (b : Bool) (cs : List Char) :
    blankLength false (cs.drop (blankLength b cs)) = 0 := by
  induction cs generalizing b with
  | nil => simp [blankLength]
  | cons c cs ih =>
    cases b with
    | true => simpa [blankLength, Nat.add_comm 1] using ih _
    | false =>
      simp only [blankLength, Bool.false_eq_true, ↓reduceIte]
      split
      · simpa [Nat.add_comm 1] using ih _
      · split
        · simpa [Nat.add_comm 1] using ih _
        · simp_all [blankLength]

namespace View

@[simp] theorem skipBlanks_skipBlanks (v : View) : v.skipBlanks.skipBlanks = v.skipBlanks := by
  have h : blankLength false v.skipBlanks.rest = 0 := by
    rw [skipBlanks, rest_advance, blankLength_drop]
  rw [skipBlanks, h, advance_zero]

/-- Behind an opening parenthesis and the blanks there. -/
def inside (v : View) : View := skipBlanks ⟨some '(', v.rest.tail⟩

/-- Behind blanks, the other view is behind a closing parenthesis. -/
def Closes (u w : View) : Prop := ∃ r, u.skipBlanks.rest = ')' :: r ∧ w = ⟨some ')', r⟩

theorem Closes.head? {u w : View} (h : u.Closes w) : u.skipBlanks.rest.head? = some ')' := by
  obtain ⟨r, hr, -⟩ := h
  rw [hr]
  rfl

end View

/-! ### Ends -/

namespace Finding

variable {α β : Type} {u v w : View}

/-- Something is there: a construct up to the view, or a failure that no alternative mends. -/
def Attains (w : View) : Finding α → Prop
  | found u _ => u = w
  | missing => False
  | _ => True

theorem Attains.ne_missing {o : Finding α} (h : o.Attains w) : o ≠ .missing := by
  rintro rfl
  exact h

theorem Attains.andThen {o : Finding α} {k : View → α → Finding β} (h : o.Attains u)
    (hk : ∀ a, (k u a).Attains w) : (o.andThen k).Attains w := by
  rcases o with ⟨u', a⟩ | _ | _ | _ | _
  · obtain rfl : u' = u := h
    exact hk a
  · exact h.elim
  all_goals exact trivial

theorem attains_of_found {o : Finding α} {a : α} (h : o = .found w a) : o.Attains w := by
  rw [h]
  rfl

theorem Attains.orElse {o o' : Finding α} (h : o.Attains w) : (o.orElse o').Attains w := by
  rcases o with ⟨u', a⟩ | _ | _ | _ | _
  · exact h
  · exact h.elim
  all_goals exact trivial

theorem Misses.orElse_attains {o o' : Finding α} (h : o.Misses) (h' : o'.Attains w) :
    (o.orElse o').Attains w := by
  obtain rfl | rfl := h
  · exact trivial
  · exact h'

theorem orElse_eq_missing {o o' : Finding α} :
    o.orElse o' = .missing ↔ o = .missing ∧ o' = .missing := by
  cases o <;> simp [orElse]

theorem map_eq_missing {o : Finding α} {f : α → β} :
    (o.andThen fun w a => .found w (f a)) = .missing ↔ o = .missing := by
  cases o <;> simp [andThen]

end Finding

namespace Rule

variable {α β γ : Type} {g : Rule α} {h : Rule β} {levels : Nat} {u v w : View} {a : α} {b : β}

/-! ### What is found -/

theorem look_map_eq_found {f : α → β} :
    look levels (f <$> g) v = .found w b ↔ ∃ a, g.look levels v = .found w a ∧ f a = b :=
  Grammar.denote_map_eq_found

theorem look_map_eq_missing {f : α → β} :
    look levels (f <$> g) v = .missing ↔ g.look levels v = .missing := Finding.map_eq_missing

theorem look_orElse_eq_found {g h : Rule α} : look levels (g <|> h) v = .found w a ↔
    g.look levels v = .found w a ∨ g.look levels v = .missing ∧ h.look levels v = .found w a :=
  Finding.orElse_eq_found

theorem look_orElse_eq_missing {g h : Rule α} : look levels (g <|> h) v = .missing ↔
    g.look levels v = .missing ∧ h.look levels v = .missing := Finding.orElse_eq_missing

theorem look_call_eq_found {n : Nonterminal α} : look levels (.call n) v = .found w a ↔
    ∃ k, levels = k + 1 ∧ n.production.look k v = .found w a := by
  cases levels with
  | zero =>
    constructor
    · rintro ⟨⟩
    · rintro ⟨k, hk, -⟩
      omega
  | succ k =>
    constructor
    · exact fun h => ⟨k, rfl, h⟩
    · rintro ⟨k', hk, h⟩
      obtain rfl : k = k' := by omega
      exact h

theorem look_separated : look levels (Grammar.separated h) v = Reader.separated (h.look levels) v := by
  rw [Grammar.separated, look_seqRight, Reader.separated]
  simp only [look, Grammar.separator, Grammar.denote, Terminal.lexeme?]
  split <;> rfl

theorem look_pair : look levels (Grammar.pair g h) v =
    (g.look levels v).andThen fun w a =>
      (Reader.separated (h.look levels) w).andThen fun w' b => .found w' (a, b) := by
  simp only [Grammar.pair, look_seq, look_separated]

theorem look_headed : look levels (Grammar.headed g h) v =
    (g.look levels v).andThen fun w a =>
      (h.look levels w.skipBlanks).andThen fun w' b => .found w' (a, b) := by
  simp only [Grammar.headed, look_seq, look_seqRight, look_blanks]
  rfl

theorem look_pair_eq_found : look levels (Grammar.pair g h) v = .found w (a, b) ↔
    ∃ u, g.look levels v = .found u a ∧ Reader.separated (h.look levels) u = .found w b := by
  simp only [look_pair, Finding.andThen_eq_found, Finding.found.injEq, Prod.mk.injEq]
  constructor
  · rintro ⟨u, a', ha, w', b', hb, rfl, rfl, rfl⟩
    exact ⟨u, ha, hb⟩
  · rintro ⟨u, ha, hb⟩
    exact ⟨u, a, ha, w, b, hb, rfl, rfl, rfl⟩

theorem look_headed_eq_found : look levels (Grammar.headed g h) v = .found w (a, b) ↔
    ∃ u, g.look levels v = .found u a ∧ h.look levels u.skipBlanks = .found w b := by
  simp only [look_headed, Finding.andThen_eq_found, Finding.found.injEq, Prod.mk.injEq]
  constructor
  · rintro ⟨u, a', ha, w', b', hb, rfl, rfl, rfl⟩
    exact ⟨u, ha, hb⟩
  · rintro ⟨u, ha, hb⟩
    exact ⟨u, a, ha, w, b, hb, rfl, rfl, rfl⟩

/-- What is separated also stands just behind blanks. -/
theorem look_headed_of_pair {ab : α × β} (hp : look levels (Grammar.pair g h) v = .found w ab) :
    look levels (Grammar.headed g h) v = .found w ab := by
  obtain ⟨a, b⟩ := ab
  obtain ⟨u, ha, hb⟩ := look_pair_eq_found.1 hp
  exact look_headed_eq_found.2 ⟨u, ha, (Reader.separated_eq_found.1 hb).2⟩

theorem lexeme_eq_found {o : Option (Nat × α)} :
    Finding.lexeme v o = .found w a ↔ ∃ n, o = some (n, a) ∧ w = v.advance n := by
  rcases o with _ | ⟨n, b⟩ <;> simp [Finding.lexeme, eq_comm, and_comm]

theorem look_symbol {kind : SymbolKind} :
    look levels (Grammar.symbol kind) v = .lexeme v (Terminal.symbolLexeme? kind v.rest) := rfl

/-- Where a symbol is found, so is one of another kind with the same sigil. -/
theorem look_symbol_of_kind {kind kind' : SymbolKind} (hk : kind'.sigil = kind.sigil)
    {x : Symbol kind} (hx : look levels (Grammar.symbol kind) v = .found w x) :
    look levels (Grammar.symbol kind') v = .found w ⟨x.text, x.valid⟩ := by
  rw [look_symbol, lexeme_eq_found] at hx ⊢
  obtain ⟨n, hn, rfl⟩ := hx
  refine ⟨n, ?_, rfl⟩
  simp only [Terminal.symbolLexeme?, Option.bind_eq_bind, Option.bind_eq_some_iff, Option.pure_def,
    Option.some.injEq, Prod.mk.injEq, hk, Symbol.ofString?_eq_some_iff] at hn ⊢
  obtain ⟨rest, hrest, name, hname, s, hs, hn, rfl⟩ := hn
  exact ⟨rest, hrest, name, hname, _, hs, hn, rfl⟩

theorem look_word_eq {x : String} : look levels (Grammar.word x) v =
    .lexeme v ((keywordLength? x v.rest).map fun n => (n, ())) := rfl

/-- Where a word of a vocabulary is found, it is in front. -/
theorem keywordLength?_of_look_keyword [Vocabulary α]
    (ha : look levels (Grammar.keyword α) v = .found w a) :
    ∃ n, keywordLength? (Vocabulary.keyword a) v.rest = some n ∧ w = v.advance n := by
  obtain ⟨n, hn, rfl⟩ := lexeme_eq_found.1 ha
  obtain ⟨x, hx, hlength⟩ := firstMatch?_eq_some hn
  obtain ⟨a', -, heq⟩ := List.mem_map.1 (mem_longestFirst.1 hx)
  obtain ⟨rfl, rfl⟩ := Prod.mk.inj heq
  exact ⟨n, hlength, rfl⟩

/-- In parentheses stands a construct, then the closing parenthesis. -/
theorem look_parens_eq_found : look levels (Grammar.parens g) v = .found w a ↔
    v.rest.head? = some '(' ∧ ∃ u, g.look levels v.inside = .found u a ∧ u.Closes w := by
  obtain ⟨b, rest⟩ := v
  have hmissing : rest.head? ≠ some '(' → look levels (Grammar.parens g) ⟨b, rest⟩ = .missing := by
    intro hr
    have hopen : look levels (Grammar.terminal (.char '(')) ⟨b, rest⟩ = .missing := by
      simp [look, Grammar.denote, Terminal.lexeme?, Finding.lexeme, hr]
    rw [Grammar.parens, look_seqLeft, look_seqRight, hopen]
    rfl
  by_cases hr : rest.head? = some '('
  · obtain ⟨s, rfl⟩ : ∃ s, rest = '(' :: s := by
      rcases rest with _ | ⟨c, s⟩
      · simp at hr
      · exact ⟨s, by simpa using hr⟩
    have hclose : ∀ u : View, (∃ x, look levels (Grammar.terminal (.char ')')) u.skipBlanks =
        .found w x) ↔ u.Closes w := by
      intro u
      simp only [look, Grammar.denote, Terminal.lexeme?, View.Closes]
      rcases hu : u.skipBlanks with ⟨b', rest'⟩
      rcases rest' with _ | ⟨c, r⟩
      · simp [Finding.lexeme]
      · by_cases hc : c = ')'
        · subst hc
          simp [Finding.lexeme, View.advance, eq_comm]
        · simp [Finding.lexeme, hc]
    rw [look_parens]
    simp only [Finding.andThen_eq_found, Finding.found.injEq, List.head?_cons, true_and]
    constructor
    · rintro ⟨u, a', ha, w', x, hw', rfl, rfl⟩
      exact ⟨u, ha, (hclose u).1 ⟨x, hw'⟩⟩
    · rintro ⟨u, ha, hu⟩
      obtain ⟨x, hx⟩ := (hclose u).2 hu
      exact ⟨u, a, ha, w, x, hx, rfl, rfl⟩
  · rw [hmissing hr]
    simp [hr]

/-- A form is a head word, then a construct behind blanks. -/
theorem look_form_eq_found {x : String} : look levels (Grammar.form x g) v = .found w a ↔
    v.rest.head? = some '(' ∧ ∃ n u, keywordLength? x v.inside.rest = some n ∧
      g.look levels (v.inside.advance n).skipBlanks = .found u a ∧ u.Closes w := by
  rw [Grammar.form, look_parens_eq_found]
  refine and_congr_right fun _ => ?_
  simp only [look_seqRight, look_blanks, look_word_eq, Finding.andThen_eq_found, lexeme_eq_found,
    Option.map_eq_some_iff, Prod.mk.injEq, Finding.found.injEq]
  constructor
  · rintro ⟨u, ⟨v', _, ⟨z, _, ⟨n, ⟨m, hm, rfl, -⟩, rfl⟩, rfl, -⟩, ha⟩, hc⟩
    exact ⟨m, u, hm, ha, hc⟩
  · rintro ⟨n, u, hn, ha, hc⟩
    exact ⟨u, ⟨_, (), ⟨_, (), ⟨n, ⟨n, hn, rfl, trivial⟩, rfl⟩, rfl, trivial⟩, ha⟩, hc⟩

end Rule

/-! ### Ends of constructs -/

/-- Where the last form is closed, nothing follows. -/
theorem eq_nil_of_closes {b : Bool} {k : Nat} {x z : List Char} (hx : closes b k x = true)
    (hz : closes b k (x ++ z) = true) : z = [] := by
  induction x generalizing b k with
  | nil => simp [closes] at hx
  | cons c x ih =>
    cases b with
    | true => exact ih hx hz
    | false =>
      simp only [List.cons_append, closes] at hx hz
      split at hx
      · rename_i hc
        rw [if_pos hc] at hz
        exact ih hx hz
      · rename_i hc
        rw [if_neg hc] at hz
        split at hx
        · rename_i hc'
          rw [if_pos hc'] at hz
          rcases k with _ | k
          · simp only [List.isEmpty_iff, List.append_eq_nil_iff] at hz
            exact hz.2
          · exact ih hx hz
        · rename_i hc'
          rw [if_neg hc'] at hz
          exact ih hx hz

/-- A form is closed in one place only. -/
theorem closes_unique {b : Bool} {k : Nat} {x y r s : List Char} (hx : closes b k x = true)
    (hy : closes b k y = true) (h : x ++ r = y ++ s) : x = y := by
  rcases List.append_eq_append_iff.1 h with ⟨z, rfl, -⟩ | ⟨z, rfl, -⟩
  · simp [eq_nil_of_closes hx hy]
  · simp [eq_nil_of_closes hy hx]

/-- What is read from a parenthesis ends at the matching one. -/
theorem Covers.exists_span {v w : View} (h : Covers 0 .before .behind v w)
    (hv : v.rest.head? = some '(') :
    ∃ x, v.rest = x ++ w.rest ∧ Phase.before.Spans 0 x ∧ w.before = some ')' := by
  obtain ⟨x, hx, ⟨-, -, hb, -⟩ | ⟨hb, hs⟩⟩ := h
  · exact absurd hv hb
  · have hs := hs [] w.rest rfl rfl
    rw [List.append_nil] at hs
    exact ⟨x, hx, hs, hb rfl⟩

/-- What is read from a parenthesis ends in one place only. -/
theorem Covers.eq_of_open {v u w : View} (hu : Covers 0 .before .behind v u)
    (hw : Covers 0 .before .behind v w) (hv : v.rest.head? = some '(') : u = w := by
  obtain ⟨x, hx, ⟨y, rfl, hy⟩, hub⟩ := hu.exists_span hv
  obtain ⟨x', hx', ⟨y', rfl, hy'⟩, hwb⟩ := hw.exists_span hv
  have heq : y ++ u.rest = y' ++ w.rest := by
    have := hx.symm.trans hx'
    simpa using this
  obtain rfl := closes_unique hy hy' heq
  have hrest : u.rest = w.rest := List.append_cancel_left heq
  rcases u with ⟨ub, ur⟩
  rcases w with ⟨wb, wr⟩
  simp only at hub hwb hrest
  rw [hub, hwb, hrest]

namespace Rule

variable {α β γ : Type} {g : Rule α} {h : Rule β} {levels : Nat} {u v w : View} {a : α} {b : β}

/-- What a rule finds is a construct of its own. -/
theorem covers_of_look (hg : g.next .before = some .behind) (h : g.look levels v = .found w a) :
    Covers 0 .before .behind v w :=
  Grammar.covers (fun n => n.covers_denote levels) g hg (fun _ => rfl) v w a h

/-- What is read from a parenthesis takes characters. -/
theorem length_lt_of_look (hg : g.next .before = some .behind) (h : g.look levels v = .found w a)
    (hv : v.rest.head? = some '(') : w.rest.length < v.rest.length := by
  obtain ⟨x, hx, ⟨y, rfl, -⟩, -⟩ := (covers_of_look hg h).exists_span hv
  rw [hx]
  simp only [List.cons_append, List.length_cons, List.length_append]
  omega

/-- **What is there comes to the end that another rule found.** -/
theorem attains_of_ne_missing (hg : g.next .before = some .behind)
    (hh : h.next .before = some .behind) (hb : h.look levels v = .found w b)
    (hv : v.rest.head? = some '(') {k : Nat} (hne : g.look k v ≠ .missing) :
    (g.look k v).Attains w := by
  rcases ho : g.look k v with ⟨u, a⟩ | _ | _ | _ | _
  · exact (covers_of_look hg ho).eq_of_open (covers_of_look hh hb) hv
  · exact absurd ho hne
  all_goals exact trivial

/-! ### Parts -/

/-- Wherever in the text the reader finds a construct with the property, something is there for the
other one up to the same end. -/
def Shadows (text : List Char) (s : Reader β) (r : Reader α) (P : α → Prop) : Prop :=
  ∀ v w a, v.rest <:+ text → r v = .found w a → P a → (s v).Attains w

variable {text : List Char}

theorem attains_separated {r : Reader α} {s : Reader β} {P : α → Prop} (hs : Shadows text s r P)
    (hv : v.rest <:+ text) (h : Reader.separated r v = .found w a) (ha : P a) :
    (Reader.separated s v).Attains w := by
  obtain ⟨hsep, h⟩ := Reader.separated_eq_found.1 h
  rw [Reader.separated, if_pos hsep]
  exact hs _ _ _ (v.rest_skipBlanks_suffix.trans hv) h ha

/-- The further elements of a list are there if there are none. -/
theorem attains_more_close {s : Reader β} (hs : s.Forward) (hclose : (s w.skipBlanks).Misses) :
    (Reader.more s w).Attains w := by
  have hsep : (Reader.separated s w).Misses := by
    unfold Reader.separated
    split
    · exact hclose
    · exact .inr rfl
  rw [Reader.more_eq hs, Reader.opt]
  obtain h | h := hsep
  · rw [h]
    exact trivial
  · rw [h]
    rfl

/-- The further elements of a list are there if the first of them and the others are. -/
theorem attains_more_cons {s : Reader β} (hs : s.Forward) (hu : (Reader.separated s v).Attains u)
    (hlen : u.rest.length ≠ v.rest.length) (hmore : (Reader.more s u).Attains w) :
    (Reader.more s v).Attains w := by
  have hopt : (Reader.opt (Reader.separated s) v).Attains u :=
    (hu.andThen fun b => show (Finding.found u (some b)).Attains u from rfl).orElse
  -- whatever the element is, the list goes on behind it
  rw [Reader.more_eq hs]
  rcases ho : Reader.opt (Reader.separated s) v with ⟨x, b?⟩ | _ | _ | _ | _
  · rw [ho] at hopt
    obtain rfl : u = x := hopt.symm
    rcases b? with _ | b
    · obtain ⟨b, -, hb⟩ | ⟨hmiss, -, -⟩ := Reader.opt_eq_found.1 ho
      · simp at hb
      · exact absurd hmiss hu.ne_missing
    · simp only [Finding.andThen, if_neg hlen]
      exact hmore.andThen fun _ => rfl
  · rw [ho] at hopt
    exact hopt.elim
  all_goals exact trivial

/-- A list is there if all its elements are. -/
theorem attains_more {r : Reader α} {s : Reader β} {P : α → Prop} (hr : r.Forward) (hs : s.Forward)
    (hrs : Shadows text s r P) (hv : v.rest <:+ text) {as : List α}
    (h : Reader.more r v = .found w as) (has : ∀ a ∈ as, P a)
    (hclose : (s w.skipBlanks).Misses) : (Reader.more s v).Attains w := by
  induction hn : v.rest.length using Nat.strong_induction_on generalizing v as with
  | _ n ih =>
  subst hn
  rw [Reader.more_eq hr] at h
  obtain ⟨u, a?, hu, h⟩ := Finding.andThen_eq_found.1 h
  rcases a? with _ | a
  · rw [(Finding.found.inj h).1]
    exact attains_more_close hs hclose
  · simp only at h
    split at h
    · rw [(Finding.found.inj h).1]
      exact attains_more_close hs hclose
    · rename_i hlen
      obtain ⟨u', as', hu', h⟩ := Finding.andThen_eq_found.1 h
      obtain ⟨rfl, rfl⟩ := Finding.found.inj h
      have hsep : Reader.separated r v = .found u a := by
        simpa using Reader.opt_eq_found.1 hu
      have hsuffix := Reader.forward_separated hr hsep
      have hle := hsuffix.length_le
      exact attains_more_cons hs (attains_separated hrs hv hsep (has a (by simp))) hlen
        (ih u.rest.length (by omega) (hsuffix.trans hv) hu' (fun a ha => has a (by simp [ha])) rfl)

theorem look_many1 : look levels (Grammar.many1 g) v =
    (g.look levels v).andThen fun w a =>
      (Reader.more (g.look levels) w).andThen fun w' as => .found w' (a :: as) := by
  have hmore : ∀ w, Reader.more (g.look levels) w = look levels (.more g) w := fun _ => rfl
  rw [Grammar.many1, look_map, look_seq]
  rcases g.look levels v with ⟨w, a⟩ | _ | _ | _ | _ <;> try rfl
  simp only [Finding.andThen, hmore]
  rcases look levels (.more g) w with ⟨w', as⟩ | _ | _ | _ | _ <;> rfl

theorem look_many : look levels (Grammar.many g) v =
    (Reader.opt (look levels (Grammar.many1 g)) v).andThen fun w as? => .found w (as?.getD []) := rfl

/-- A list is empty, or it is one element and others. -/
theorem look_many_eq_found {as : List α} (h : look levels (Grammar.many g) v = .found w as) :
    as = [] ∧ w = v ∨ ∃ a as' u, as = a :: as' ∧ g.look levels v = .found u a ∧
      Reader.more (g.look levels) u = .found w as' := by
  rw [look_many] at h
  obtain ⟨u, as?, hu, h⟩ := Finding.andThen_eq_found.1 h
  obtain ⟨rfl, rfl⟩ := Finding.found.inj h
  obtain ⟨as', has, rfl⟩ | ⟨-, rfl, rfl⟩ := Reader.opt_eq_found.1 hu
  · rw [look_many1] at has
    obtain ⟨x, a, ha, hrest⟩ := Finding.andThen_eq_found.1 has
    obtain ⟨y, as, hmore, hy⟩ := Finding.andThen_eq_found.1 hrest
    obtain ⟨rfl, rfl⟩ := Finding.found.inj hy
    exact .inr ⟨a, as, x, rfl, ha, hmore⟩
  · exact .inl ⟨rfl, rfl⟩

/-- The further elements of a list are none, or one behind a separation and others. -/
theorem more_eq_found {r : Reader α} (hr : r.Forward) {as : List α}
    (h : Reader.more r v = .found w as) : as = [] ∧ w = v ∨
      ∃ a as' u, as = a :: as' ∧ Reader.separated r v = .found u a ∧
        Reader.more r u = .found w as' := by
  rw [Reader.more_eq hr] at h
  obtain ⟨u, a?, hu, hrest⟩ := Finding.andThen_eq_found.1 h
  rcases a? with _ | a
  · obtain ⟨rfl, rfl⟩ := Finding.found.inj hrest
    exact .inl ⟨rfl, rfl⟩
  · simp only at hrest
    split at hrest
    · obtain ⟨rfl, rfl⟩ := Finding.found.inj hrest
      exact .inl ⟨rfl, rfl⟩
    · obtain ⟨x, as', hmore, hx⟩ := Finding.andThen_eq_found.1 hrest
      obtain ⟨rfl, rfl⟩ := Finding.found.inj hx
      exact .inr ⟨a, as', u, rfl, by simpa using Reader.opt_eq_found.1 hu, hmore⟩

theorem forward_look (g : Rule α) (levels : Nat) : (g.look levels).Forward :=
  Grammar.forward_denote (fun n => n.forward_denote levels) g

/-- A list of one element is the element. -/
theorem look_of_many_singleton (hb : look levels (Grammar.many h) v = .found w [b]) :
    h.look levels v = .found w b := by
  obtain ⟨hnil, -⟩ | ⟨b', bs, u, hcons, hb', hmore⟩ := look_many_eq_found hb
  · simp at hnil
  · obtain ⟨rfl, rfl⟩ := List.cons.inj hcons
    obtain ⟨-, rfl⟩ | ⟨_, _, _, hcons, -⟩ := more_eq_found (forward_look h levels) hmore
    · exact hb'
    · simp at hcons

/-- A list of two elements is a pair. -/
theorem look_pair_of_many {b' : β} (hb : look levels (Grammar.many h) v = .found w [b, b']) :
    look levels (Grammar.pair h h) v = .found w (b, b') := by
  obtain ⟨hnil, -⟩ | ⟨x, bs, u, hcons, hx, hmore⟩ := look_many_eq_found hb
  · simp at hnil
  · obtain ⟨rfl, rfl⟩ := List.cons.inj hcons
    obtain ⟨hnil, -⟩ | ⟨y, cs, u', hcons, hy, hmore⟩ := more_eq_found (forward_look h levels) hmore
    · simp at hnil
    · obtain ⟨rfl, rfl⟩ := List.cons.inj hcons
      obtain ⟨-, rfl⟩ | ⟨_, _, _, hcons, -⟩ := more_eq_found (forward_look h levels) hmore
      · exact look_pair_eq_found.2 ⟨u, hx, hy⟩
      · simp at hcons

/-- In front of a closing parenthesis, what begins with an opening one is missing. -/
theorem misses_look_close (hclose : ∀ r, g.Misses (')' :: r)) (hw : w.rest.head? = some ')') :
    (g.look levels w).Misses := by
  rcases w with ⟨before, rest⟩
  obtain ⟨r, rfl⟩ : ∃ r, rest = ')' :: r := by
    rcases rest with _ | ⟨c, r⟩
    · simp at hw
    · exact ⟨r, by simpa using hw⟩
  exact hclose r levels before

/-- A list is there if its first element and the others are. -/
theorem attains_many_cons (hb : (g.look levels v).Attains u)
    (hmore : (Reader.more (g.look levels) u).Attains w) :
    (look levels (Grammar.many g) v).Attains w := by
  have hmany : (look levels (Grammar.many1 g) v).Attains w := by
    rw [look_many1]
    exact hb.andThen fun a => hmore.andThen fun as => rfl
  have hopt : (Reader.opt (look levels (Grammar.many1 g)) v).Attains w :=
    (hmany.andThen fun as => show (Finding.found w (some as)).Attains w from rfl).orElse
  rw [look_many]
  exact hopt.andThen fun _ => rfl

/-- A list between blanks and a closing parenthesis is there if all its elements are. -/
theorem attains_many {P : β → Prop} (hgh : Shadows text (g.look levels) (h.look levels) P)
    (hclose : ∀ r, g.Misses (')' :: r)) (htext : v.rest <:+ text) {bs : List β}
    (hb : look levels (Grammar.many h) v = .found w bs) (hbs : ∀ b ∈ bs, P b)
    (hv : v.skipBlanks = v) (hw : w.skipBlanks.rest.head? = some ')') :
    (look levels (Grammar.many g) v).Attains w := by
  have hclose : (g.look levels w.skipBlanks).Misses := misses_look_close hclose hw
  obtain ⟨-, hwv⟩ | ⟨b, bs, u, rfl, hb, hmore⟩ := look_many_eq_found hb
  · rw [hwv, hv] at hclose
    rw [look_many, Reader.opt, look_many1, hwv]
    obtain h | h := hclose
    · rw [h]
      exact trivial
    · rw [h]
      rfl
  · have hmore := attains_more (forward_look h levels) (forward_look g levels) hgh
      ((forward_look h levels hb).trans htext) hmore (fun b hb => hbs b (by simp [hb])) hclose
    exact attains_many_cons (hgh v u b htext hb (hbs b (by simp))) hmore

theorem attains_pair (hg : (g.look levels v).Attains u)
    (hh : (Reader.separated (h.look levels) u).Attains w) :
    (look levels (Grammar.pair g h) v).Attains w := by
  rw [look_pair]
  exact hg.andThen fun a => hh.andThen fun b => rfl

theorem attains_parens (hv : v.rest.head? = some '(') (hg : (g.look levels v.inside).Attains u)
    (hu : u.Closes w) : (look levels (Grammar.parens g) v).Attains w := by
  rcases ho : look levels (Grammar.parens g) v with ⟨w', a⟩ | _ | _ | _ | _
  · obtain ⟨-, u', ha, hu'⟩ := look_parens_eq_found.1 ho
    rw [ha] at hg
    obtain rfl : u = u' := hg.symm
    obtain ⟨r, hr, rfl⟩ := hu
    obtain ⟨r', hr', rfl⟩ := hu'
    rw [hr] at hr'
    simp_all [Finding.Attains]
  · rcases hg' : g.look levels v.inside with ⟨u', a⟩ | _ | _ | _ | _
    · rw [hg'] at hg
      obtain rfl : u = u' := hg.symm
      have := look_parens_eq_found.2 ⟨hv, u, hg', hu⟩
      rw [ho] at this
      simp at this
    · rw [hg'] at hg
      exact hg.elim
    all_goals
      obtain ⟨b, rest⟩ := v
      rcases rest with _ | ⟨c, s⟩
      · simp at hv
      · obtain rfl : c = '(' := by simpa using hv
        rw [look_parens] at ho
        simp only [View.inside, List.tail_cons] at hg'
        rw [hg'] at ho
        simp [Finding.andThen] at ho
  all_goals exact trivial

/-- A form is there if its head word and the part behind it are. -/
theorem attains_form_of_word {z : String} {n : Nat} (hv : v.rest.head? = some '(')
    (hz : keywordLength? z v.inside.rest = some n)
    (hg : (g.look levels (v.inside.advance n).skipBlanks).Attains u) (hu : u.Closes w) :
    (look levels (Grammar.form z g) v).Attains w := by
  refine attains_parens hv ?_ hu
  rw [look_seqRight, look_seqRight, look_word_eq, hz]
  exact hg

/-- A form is there if the part behind its head word is, where another rule reads the word as a
symbol. -/
theorem attains_form {kind : SymbolKind} (hk : kind.sigil = "") {x : Symbol kind} {z : String}
    (hx : x.text = z) (hz : IsWord z)
    (hf : look levels (Grammar.parens (Grammar.headed (Grammar.symbol kind) h)) v = .found w (x, b))
    (hg : ∀ u u', u.skipBlanks = u → look levels h u = .found u' b →
      u'.skipBlanks.rest.head? = some ')' → (look levels g u).Attains u') :
    (look levels (Grammar.form z g) v).Attains w := by
  obtain ⟨hv, u, hu, hc⟩ := look_parens_eq_found.1 hf
  obtain ⟨u₁, hsym, hb⟩ := look_headed_eq_found.1 hu
  rw [look_symbol, lexeme_eq_found] at hsym
  obtain ⟨n, hn, rfl⟩ := hsym
  obtain ⟨rest, hrest, rfl, hr⟩ := symbolLexeme?_eq_some hn
  have hword : keywordLength? z v.inside.rest = some (kind.sigil.toList ++ x.text.toList).length := by
    rw [hrest, hk, hx]
    exact keywordLength?_append_self hz hr
  exact attains_form_of_word hv hword (hg _ u (View.skipBlanks_skipBlanks _) hb hc.head?) hc

end Rule

end Pddl
