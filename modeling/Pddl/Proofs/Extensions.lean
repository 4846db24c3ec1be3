import Mathlib.Data.Set.Prod
import Pddl.Proofs.Flattening

/-!
# Readings that extend others

One rule may read everything that another one reads, changed by a function, and more besides.  Lists
are delicate: where the first list ends, the second one may go on.  But there stands no closing
parenthesis then, so lists are compared together with the parenthesis behind them.

* `Finding.Extends`, `Rule.Extends` : the second reading finds what the first one finds, changed,
  and otherwise nothing that the function gives, unless the levels of one are used up.
* `Rule.closed` : a construct and a closing parenthesis behind it.
* `Rule.Extends.closed_pair`, `Rule.Extends.closed_many`, … : how the shapes of rules extend.
-/

namespace Pddl

/-! ### Readings that extend others -/

namespace Finding

variable {α β γ δ : Type} {f : α → β} {h : γ → δ} {o o' : Finding α} {p p' : Finding β}

/-- The second finding is the first one, changed by the function, or the first one is missing and
the second one is nothing that the function gives, unless the levels of one of them are used up. -/
def Extends (f : α → β) (o : Finding α) (p : Finding β) : Prop :=
  Tracks f o p ∨ o = .missing ∧ ∀ w a, p ≠ .found w (f a)

theorem andThen_assoc {k : View → α → Finding β} {k' : View → β → Finding γ} :
    (o.andThen k).andThen k' = o.andThen fun w a => (k w a).andThen k' := by
  cases o <;> rfl

theorem Extends.andThen {k : View → α → Finding γ} {k' : View → β → Finding δ}
    (hop : Extends f o p) (hk : ∀ w a, o = .found w a → Extends h (k w a) (k' w (f a)))
    (hout : ∀ w b, o = .missing → p = .found w b → b ∉ Set.range f →
      ∀ w' c, k' w b ≠ .found w' (h c)) : Extends h (o.andThen k) (p.andThen k') := by
  obtain (rfl | rfl | rfl) | ⟨rfl, hp⟩ := hop
  · exact .inl (.inl rfl)
  · exact .inl (.inr (.inl rfl))
  · rcases o with ⟨w, a⟩ | _ | _ | _ | _
    · exact hk w a rfl
    all_goals exact .inl (.inr (.inr rfl))
  · refine .inr ⟨rfl, ?_⟩
    rcases p with ⟨w, b⟩ | _ | _ | _ | _
    · exact hout w b rfl rfl fun ⟨a, ha⟩ => hp w a (by rw [ha])
    all_goals exact nofun

/-- An optional construct and what follows it. -/
theorem Extends.opt_andThen {v : View} {k : View → Option α → Finding γ}
    {k' : View → Option β → Finding δ} (hop : Extends f o p)
    (hsome : ∀ w a, o = .found w a → Extends h (k w (some a)) (k' w (some (f a))))
    (hnone : Extends h (k v none) (k' v none)) (hmissing : ¬p.Misses → k v none = .missing)
    (hout : ∀ w b, p = .found w b → b ∉ Set.range f → ∀ w' c, k' w (some b) ≠ .found w' (h c)) :
    Extends h (((o.andThen fun w a => .found w (some a)).orElse (.found v none)).andThen k)
      (((p.andThen fun w b => .found w (some b)).orElse (.found v none)).andThen k') := by
  obtain (rfl | rfl | rfl) | ⟨rfl, hp⟩ := hop
  · exact .inl (.inl rfl)
  · exact .inl (.inr (.inl rfl))
  · rcases o with ⟨w, a⟩ | _ | _ | _ | _
    · exact hsome w a rfl
    · exact hnone
    all_goals exact .inl (.inr (.inr rfl))
  · rcases p with ⟨w, b⟩ | _ | _ | _ | _
    · exact .inr ⟨hmissing (by simp [Misses]), hout w b rfl fun ⟨a, ha⟩ => hp w a (by rw [ha])⟩
    · exact hnone
    · exact .inr ⟨hmissing (by simp [Misses]), nofun⟩
    · exact .inl (.inr (.inl rfl))
    · exact .inr ⟨hmissing (by simp [Misses]), nofun⟩

/-- Where the extension is missing, nothing is there to be extended. -/
theorem Extends.misses (hop : Extends f o p) (hp : p = .missing) : o.Misses := by
  obtain (ho | hp' | hp') | ⟨ho, -⟩ := hop
  · exact .inl ho
  · cases hp.symm.trans hp'
  · exact .inr (map_eq_missing.1 (hp'.symm.trans hp))
  · exact .inr ho

/-- What is found is found, changed. -/
theorem Extends.eq_found {w : View} {a : α} (hop : Extends f o p) (ho : o = .found w a)
    (hp : p ≠ .tooDeep) : p = .found w (f a) := by
  subst ho
  obtain (h | h | rfl) | ⟨h, -⟩ := hop
  · cases h
  · exact absurd h hp
  · rfl
  · cases h

/-- What is found and is something that the function gives comes of what is found. -/
theorem Extends.exists_found {w : View} {b : β} (hop : Extends f o p) (hp : p = .found w b)
    (ho : o ≠ .tooDeep) (hb : b ∈ Set.range f) : ∃ a, o = .found w a ∧ f a = b := by
  subst hp
  obtain (h | h | h) | ⟨rfl, h⟩ := hop
  · exact absurd h ho
  · cases h
  · obtain ⟨w', a, ha, heq⟩ := andThen_eq_found.1 h.symm
    obtain ⟨rfl, rfl⟩ := found.inj heq
    exact ⟨a, ha, rfl⟩
  · obtain ⟨a, rfl⟩ := hb
    exact absurd rfl (h w a)

end Finding

namespace Rule

open Grammar

variable {α β γ δ : Type} {levels : Nat} {f : α → β} {g : Rule α} {g' : Rule β} {v w : View}

/-- What the second rule finds extends what the first one finds. -/
def Extends (levels : Nat) (f : α → β) (g : Rule α) (g' : Rule β) : Prop :=
  ∀ v, (g.look levels v).Extends f (g'.look levels v)

/-- The construct and a closing parenthesis behind it. -/
def closed (g : Rule α) : Rule α := g <* (blanks *> terminal (.char ')'))

theorem look_closed : look levels (closed g) v = (g.look levels v).andThen fun w a =>
    (look levels (terminal (.char ')')) w.skipBlanks).andThen fun w' _ => .found w' a := by
  simp only [closed, look_seqLeft, look_seqRight, look_blanks, Finding.andThen]

/-- Without a parenthesis, there is nothing in parentheses. -/
theorem look_parens_missing (hv : v.rest.head? ≠ some '(') :
    look levels (parens g) v = .missing := by
  have hopen : look levels (terminal (.char '(')) v = .missing := by
    simp [look, Grammar.denote, Terminal.lexeme?, Finding.lexeme, hv]
  rw [parens, look_seqLeft, look_seqRight, hopen]
  rfl

/-- Inside parentheses, a construct is a closed one. -/
theorem look_parens_closed (hv : v.rest.head? = some '(') :
    look levels (parens g) v = look levels (closed g) v.inside := by
  obtain ⟨b, rest⟩ := v
  obtain ⟨s, rfl⟩ := List.head?_eq_some_iff.1 hv
  rw [look_parens, look_closed]
  rfl

/-- Behind what does not stand in front of a closing parenthesis, nothing is closed. -/
theorem look_closed_ne_found {a : α} (ho : g.look levels v = .found w a)
    (hw : w.skipBlanks.rest.head? ≠ some ')') : look levels (closed g) v = .missing := by
  have hclose : look levels (terminal (.char ')')) w.skipBlanks = .missing := by
    simp [look, Grammar.denote, Terminal.lexeme?, Finding.lexeme, hw]
  rw [look_closed, ho]
  simp only [Finding.andThen, hclose]

theorem look_closed_separated : look levels (closed (separated g)) v =
    Reader.separated (look levels (closed g)) v := by
  rw [look_closed, look_separated, Reader.separated, Reader.separated]
  split
  · rw [look_closed]
  · rfl

theorem look_closed_pair {h : Rule β} : look levels (closed (pair g h)) v =
    (g.look levels v).andThen fun w a =>
      (look levels (closed (separated h)) w).andThen fun w' b => .found w' (a, b) := by
  simp only [look_closed, look_pair, look_separated, Finding.andThen_assoc]
  rfl

/-- The further elements of a list may always be none. -/
theorem more_ne_missing : Reader.more (g.look levels) v ≠ .missing := by
  induction hn : v.rest.length using Nat.strong_induction_on generalizing v with
  | _ n ih =>
  subst hn
  rw [Reader.more_eq (forward_look g levels), ← look_optional]
  rcases ho : look levels (Grammar.optional g) v with ⟨w, a?⟩ | _ | _ | _ | _
  · rcases a? with _ | a
    · rintro ⟨⟩
    · simp only [Finding.andThen]
      split
      · rintro ⟨⟩
      · have hle := (forward_look (Grammar.optional g) levels ho).length_le
        exact fun h => ih w.rest.length (by omega) rfl (Finding.map_eq_missing.1 h)
  · cases (Finding.orElse_eq_missing.1 ho).2
  all_goals rintro ⟨⟩

/-- No elements, and a closing parenthesis. -/
def noElements (α : Type) : Rule (List α) := closed (terminal (.pure []))

theorem look_noElements : look levels (noElements α) v =
    (look levels (terminal (.char ')')) v.skipBlanks).andThen fun w _ => .found w [] := by
  rw [noElements, look_closed]
  rfl

theorem look_noElements_missing (hv : v.skipBlanks.rest.head? ≠ some ')') :
    look levels (noElements α) v = .missing :=
  look_closed_ne_found (g := terminal (.pure [])) rfl hv

theorem look_closed_more : look levels (closed (.more g)) v =
    (look levels (Grammar.optional g) v).andThen fun w a? =>
      match a? with
      | none => look levels (noElements α) v
      | some a =>
        if w.rest.length = v.rest.length then look levels (noElements α) v
        else (look levels (closed (.more g)) w).andThen fun w' as => .found w' (a :: as) := by
  have hmore : ∀ w, look levels (.more g) w = Reader.more (g.look levels) w := fun _ => rfl
  rw [look_closed, hmore, Reader.more_eq (forward_look g levels), ← look_optional,
    Finding.andThen_assoc]
  refine Finding.andThen_congr fun w a? _ => ?_
  rcases a? with _ | a
  · exact look_noElements.symm
  · simp only
    split
    · exact look_noElements.symm
    · simp only [look_closed, hmore, Finding.andThen_assoc]
      rfl

/-- A closed list is its first element and others, or nothing where there is none. -/
theorem look_closed_many : look levels (closed (many g)) v =
    (look levels (.opt g) v).andThen fun w a? =>
      match a? with
      | none => look levels (noElements α) v
      | some a => (look levels (closed (.more g)) w).andThen fun w' as => .found w' (a :: as) := by
  have hopt : look levels (.opt g) v = Reader.opt (g.look levels) v := rfl
  rw [look_closed, look_many, Reader.opt, look_many1, hopt, Reader.opt]
  rcases g.look levels v with ⟨w, a⟩ | _ | _ | _ | _
  · simp only [Finding.andThen, Finding.orElse]
    rw [look_closed]
    show _ = Finding.andThen (Finding.andThen (Reader.more (g.look levels) w) _) _
    rcases hmore : Reader.more (g.look levels) w with ⟨w', as⟩ | _ | _ | _ | _
    · simp only [Finding.andThen]
      rcases look levels (terminal (.char ')')) w'.skipBlanks with ⟨w'', c⟩ | _ | _ | _ | _ <;> rfl
    · exact absurd hmore more_ne_missing
    all_goals rfl
  · exact look_noElements.symm
  all_goals rfl

/-- What is there does not stand in front of a closing parenthesis. -/
theorem head?_ne_close (hclose : ∀ r, g.Misses (')' :: r)) (hne : ¬(g.look levels v).Misses) :
    v.rest.head? ≠ some ')' := fun hv => hne (misses_look_close hclose hv)

namespace Extends

theorem refine {m : α → Except Complaint γ} {k : β → Except Complaint δ} {h : γ → δ}
    (hg : Extends levels f g g') (hm : ∀ a, k (f a) = (m a).map h)
    (hrange : ∀ b c, k b = .ok c → c ∈ Set.range h → b ∈ Set.range f) :
    Extends levels h (.refine m g) (.refine k g') := fun v => by
  refine (hg v).andThen (fun w a _ => ?_) fun w b _ _ hb w' c hc => ?_
  · rw [hm]
    rcases m a with e | c
    · cases e <;> exact .inl (.inr (.inr rfl))
    · exact .inl (Finding.tracks_found w c)
  · cases hk : k b with
    | ok c' =>
      simp only [hk] at hc
      exact hb (hrange b c' hk ⟨c, (Finding.found.inj hc).2.symm⟩)
    | error e =>
      simp only [hk] at hc
      cases e <;> cases hc

theorem parens (hg : Extends levels f (closed g) (closed g')) :
    Extends levels f (parens g) (parens g') := fun v => by
  by_cases hv : v.rest.head? = some '('
  · rw [look_parens_closed hv, look_parens_closed hv]
    exact hg v.inside
  · rw [look_parens_missing hv, look_parens_missing hv]
    exact .inl (.inr (.inr rfl))

theorem closed_separated (hg : Extends levels f (closed g) (closed g')) :
    Extends levels f (closed (separated g)) (closed (separated g')) := fun v => by
  rw [look_closed_separated, look_closed_separated, Reader.separated, Reader.separated]
  split
  · exact hg _
  · exact .inl (.inr (.inr rfl))

theorem closed_pair {h : Rule γ} {h' : Rule δ} {f' : γ → δ} (hg : Extends levels f g g')
    (hh : Extends levels f' (closed (separated h)) (closed (separated h'))) :
    Extends levels (Prod.map f f') (closed (pair g h)) (closed (pair g' h')) := fun v => by
  rw [look_closed_pair, look_closed_pair]
  refine (hg v).andThen (fun w a _ => (hh w).andThen (fun w' b _ => ?_) ?_) ?_
  · exact .inl (Finding.tracks_found w' (a, b))
  · rintro w' b - - hb u ⟨c, d⟩ heq
    exact hb ⟨d, (congrArg Prod.snd (Finding.found.inj heq).2).symm⟩
  · rintro w b - - hb u ⟨c, d⟩ heq
    obtain ⟨w', b', -, heq⟩ := Finding.andThen_eq_found.1 heq
    exact hb ⟨c, (congrArg Prod.fst (Finding.found.inj heq).2).symm⟩

/-- Lists without elements, closed or not. -/
theorem noElements (levels : Nat) (f : α → β) :
    Extends levels (List.map f) (noElements α) (Rule.noElements β) := fun v => by
  rw [look_noElements, look_noElements]
  exact .inl ((Finding.tracks_refl _).andThen fun w _ _ => Finding.tracks_found w [])

variable (hg : Extends levels f g g') (hclose : ∀ r, g'.Misses (')' :: r))

include hg hclose

/-- The further elements of a closed list extend each other if single elements do: where only the
second list goes on, the first one is not closed. -/
theorem closed_more : Extends levels (List.map f) (closed (.more g)) (closed (.more g')) := by
  intro v
  induction hn : v.rest.length using Nat.strong_induction_on generalizing v with
  | _ n ih =>
  subst hn
  have hsep : (look levels (separated g) v).Extends f (look levels (separated g') v) := by
    rw [look_separated, look_separated, Reader.separated, Reader.separated]
    split
    · exact hg _
    · exact .inl (.inr (.inr rfl))
  have hend : ∀ γ, ¬(look levels (separated g') v).Misses →
      look levels (Rule.noElements γ) v = .missing := by
    intro γ hne
    rw [look_separated, Reader.separated] at hne
    split at hne
    · exact look_noElements_missing (head?_ne_close hclose hne)
    · exact absurd (.inr rfl) hne
  rw [look_closed_more, look_closed_more]
  refine hsep.opt_andThen (fun w a hw => ?_) (noElements levels f v) (hend α) fun w b hb hout => ?_
  · simp only
    split
    · exact noElements levels f v
    · have hle := (forward_look (separated g) levels hw).length_le
      refine (ih w.rest.length (by omega) w rfl).andThen (fun w' as _ => ?_) ?_
      · exact .inl (Finding.tracks_found w' (a :: as))
      · rintro w' bs - - hbs u (_ | ⟨c, cs⟩) heq
        · cases heq
        · exact hbs ⟨cs, (List.cons.inj (Finding.found.inj heq).2).2.symm⟩
  · simp only
    split
    · rw [hend β (by rw [hb]; simp [Finding.Misses])]
      rintro _ _ ⟨⟩
    · rintro w' (_ | ⟨c, cs⟩) heq
      · obtain ⟨u, bs, -, heq⟩ := Finding.andThen_eq_found.1 heq
        cases heq
      · obtain ⟨u, bs, -, heq⟩ := Finding.andThen_eq_found.1 heq
        exact hout ⟨c, (List.cons.inj (Finding.found.inj heq).2).1.symm⟩

/-- Closed lists extend each other if single elements do. -/
theorem closed_many (hv : v.skipBlanks = v) :
    (look levels (closed (many g)) v).Extends (List.map f) (look levels (closed (many g')) v) := by
  have hend : ∀ γ, ¬(g'.look levels v).Misses → look levels (Rule.noElements γ) v = .missing :=
    fun γ hne => look_noElements_missing (by rw [hv]; exact head?_ne_close hclose hne)
  rw [look_closed_many, look_closed_many]
  refine (hg v).opt_andThen (fun w a _ => ?_) (noElements levels f v) (hend α) fun w b _ hout => ?_
  · refine (hg.closed_more hclose w).andThen (fun w' as _ => ?_) ?_
    · exact .inl (Finding.tracks_found w' (a :: as))
    · rintro w' bs - - hbs u (_ | ⟨c, cs⟩) heq
      · cases heq
      · exact hbs ⟨cs, (List.cons.inj (Finding.found.inj heq).2).2.symm⟩
  · rintro w' (_ | ⟨c, cs⟩) heq
    · obtain ⟨u, bs, -, heq⟩ := Finding.andThen_eq_found.1 heq
      cases heq
    · obtain ⟨u, bs, -, heq⟩ := Finding.andThen_eq_found.1 heq
      exact hout ⟨c, (List.cons.inj (Finding.found.inj heq).2).1.symm⟩

theorem closed_separated_many :
    Extends levels (List.map f) (closed (separated (many g))) (closed (separated (many g'))) :=
  fun v => by
    rw [look_closed_separated, look_closed_separated, Reader.separated, Reader.separated]
    split
    · exact hg.closed_many hclose v.skipBlanks_skipBlanks
    · exact .inl (.inr (.inr rfl))

end Extends

/-- On numbers of levels that suffice, what extends on every number of levels does so. -/
theorem Extends.of_ne_tooDeep (hg : ∀ levels, Extends levels f g g') {j k : Nat}
    (hj : g.look j v ≠ .tooDeep) (hk : g'.look k v ≠ .tooDeep) :
    (g.look j v).Extends f (g'.look k v) := by
  -- both are found as on the larger number of levels
  have hextends := hg (max j k) v
  rwa [look_eq_of_le (le_max_left j k) hj, look_eq_of_le (le_max_right j k) hk] at hextends

/-- Closing parentheses do not matter. -/
theorem Extends.closed {f : α → β} {g : Rule α} {g' : Rule β} (hg : Extends levels f g g') :
    Extends levels f (closed g) (closed g') := fun v => by
  rw [look_closed, look_closed]
  refine (hg v).andThen (fun w a _ => ?_) fun w b _ _ hb w' a heq => ?_
  · exact .inl ((Finding.tracks_refl _).andThen fun w' _ _ => Finding.tracks_found w' a)
  · obtain ⟨_, _, -, heq⟩ := Finding.andThen_eq_found.1 heq
    exact hb ⟨a, (Finding.found.inj heq).2.symm⟩

end Rule

end Pddl
