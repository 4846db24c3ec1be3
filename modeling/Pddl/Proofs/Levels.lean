import Pddl.Proofs.Enclosure

/-!
# Enough levels of nesting

A nonterminal that calls another one without a parenthesis in between has a higher rank, and behind
a parenthesis the ranks start anew.  So the forms that are open at once in a text bound the levels
that reading it can open.

* `balance`, `nesting` : how many forms are open behind some characters, and how many of them are
  open at once; what a comment holds does not count.
* `Nonterminal.rank` : how often a nonterminal may be called before a parenthesis is opened.
* `Grammar.lead` : a bound on the ranks of what a grammar calls outside of the forms that it opens.
* `Nonterminal.shallow_denote`, `Rule.look_ne_tooDeep` : **with more than twice as many levels as
  forms are open at once, and one level more, the levels are never used up.**
* `Rule.look_succ` : **one more level changes nothing where the levels were not used up.**
-/

namespace Pddl

/-! ### Open forms -/

/-- How many more forms are open behind the characters than before them, with a comment open
there or not. -/
def balance : (inComment : Bool) → List Char → Int
  | _, [] => 0
  | true, c :: cs => balance (c != '\n') cs
  | false, c :: cs =>
    if c == '(' then balance false cs + 1
    else if c == ')' then balance false cs - 1
    else balance (c == ';') cs

/-- How many more forms are open somewhere in the characters than before them. -/
def nesting : (inComment : Bool) → List Char → Nat
  | _, [] => 0
  | true, c :: cs => nesting (c != '\n') cs
  | false, c :: cs =>
    if c == '(' then nesting false cs + 1
    else if c == ')' then nesting false cs - 1
    else nesting (c == ';') cs

theorem balance_take_le (b : Bool) (cs : List Char) (n : Nat) :
    balance b (cs.take n) ≤ nesting b cs := by
  induction cs generalizing b n with
  | nil => simp [balance, nesting]
  | cons c cs ih =>
    cases n with
    | zero => simp [balance]
    | succ n =>
      cases b with
      | true => exact ih _ n
      | false =>
        have h := ih false n
        simp only [List.take_succ_cons, balance, nesting]
        split
        · omega
        · split
          · omega
          · exact ih _ n

/-- The most forms that are open at once are open behind some of the characters. -/
theorem exists_balance_take (b : Bool) (cs : List Char) :
    ∃ n ≤ cs.length, balance b (cs.take n) = nesting b cs := by
  induction cs generalizing b with
  | nil => exact ⟨0, Nat.le_refl _, by simp [balance, nesting]⟩
  | cons c cs ih =>
    cases b with
    | true =>
      obtain ⟨n, hn, h⟩ := ih (c != '\n')
      exact ⟨n + 1, Nat.succ_le_succ hn, h⟩
    | false =>
      obtain ⟨n, hn, h⟩ := ih false
      simp only [nesting]
      split
      · rename_i hc
        exact ⟨n + 1, Nat.succ_le_succ hn, by simp [balance, hc, h]⟩
      · rename_i hopen
        split
        · rename_i hc
          -- a form that is closed makes room for one that is opened behind it
          rcases hk : nesting false cs with _ | k
          · exact ⟨0, Nat.zero_le _, by simp [balance]⟩
          · refine ⟨n + 1, Nat.succ_le_succ hn, ?_⟩
            simp [balance, hopen, hc, h, hk]
        · rename_i hclose
          obtain ⟨n, hn, h⟩ := ih (c == ';')
          exact ⟨n + 1, Nat.succ_le_succ hn, by simp [balance, hopen, hclose, h]⟩

theorem nesting_le_length (b : Bool) (cs : List Char) : nesting b cs ≤ cs.length := by
  induction cs generalizing b with
  | nil => simp [nesting]
  | cons c cs ih =>
    have hfalse := ih false
    have hsemicolon := ih (c == ';')
    cases b with
    | true => exact (ih (c != '\n')).trans (Nat.le_succ _)
    | false =>
      simp only [nesting, List.length_cons]
      split_ifs <;> omega

theorem nesting_plain {c : Char} (h : isPlain c = true) (cs : List Char) :
    nesting false (c :: cs) = nesting false cs := by
  simp only [isPlain, Bool.and_eq_true, bne_iff_ne] at h
  simp [nesting, h.1.1, h.1.2, beq_false_of_ne h.2]

theorem nesting_append {p : List Char} (h : ∀ c ∈ p, isPlain c = true) (cs : List Char) :
    nesting false (p ++ cs) = nesting false cs := by
  induction p with
  | nil => rfl
  | cons c p ih =>
    rw [List.cons_append, nesting_plain (h c (by simp)), ih fun d hd => h d (List.mem_cons_of_mem _ hd)]

/-- Blanks and comments open no form. -/
theorem nesting_drop_blankLength (b : Bool) (cs : List Char) :
    nesting false (cs.drop (blankLength b cs)) = nesting b cs := by
  induction cs generalizing b with
  | nil => cases b <;> rfl
  | cons c cs ih =>
    simp only [blankLength]
    cases b with
    | true => simpa [Nat.add_comm 1, nesting] using ih (c != '\n')
    | false =>
      simp only [Bool.false_eq_true, ↓reduceIte]
      split
      · rename_i hb
        rw [nesting_plain (isPlain_of_isBlank hb)]
        simpa [Nat.add_comm 1] using ih false
      · split
        · rename_i hc
          rw [beq_iff_eq] at hc
          subst hc
          simpa [Nat.add_comm 1, nesting] using ih true
        · rfl

/-! ### Readings close what they open -/

/-- No more forms are open at once behind what is read than were before it, counting those that
the reading has left open. -/
def View.Settles (opened opened' : Nat) (v w : View) : Prop :=
  nesting false w.rest + opened' ≤ nesting false v.rest + opened

theorem View.path_settles {opened : Nat} : View.Path (View.Settles opened opened) where
  refl _ := Nat.le_refl _
  trans h k := Nat.le_trans k h
  skipBlanks v := by
    rw [Settles, skipBlanks, rest_advance, nesting_drop_blankLength]

/-- A lexeme of plain characters opens and closes nothing. -/
theorem View.settles_of_contained {α : Type} {f : Recogniser α} (hf : f.Contained) {v : View}
    {n : Nat} {a : α} (h : f v.rest = some (n, a)) {φ : Phase} {opened opened' : Nat}
    (hφ : φ = .within opened) (ht : φ.token = some (.within opened')) :
    View.Settles opened opened' v (v.advance n) := by
  subst hφ
  obtain rfl := Phase.within.inj (Option.some.inj ht)
  rw [Settles, rest_advance]
  conv => rhs; rw [← List.take_append_drop n v.rest, nesting_append (hf.plain h)]

theorem Terminal.settles {α : Type} {t : Terminal α} {opened opened' : Nat}
    (ht : t.next (.within opened) = some (.within opened')) {v : View} {n : Nat} {a : α}
    (h : t.lexeme? v = some (n, a)) : View.Settles opened opened' v (v.advance n) := by
  cases moves_of_next ht with
  | pure b hi =>
    obtain ⟨rfl, -⟩ := Prod.mk.inj (Option.some.inj h)
    obtain rfl := Phase.within.inj (Option.some.inj hi)
    exact View.path_settles.refl v
  | blanks hi =>
    obtain ⟨rfl, -⟩ := Prod.mk.inj (Option.some.inj h)
    obtain rfl := Phase.within.inj (Option.some.inj hi)
    exact View.path_settles.skipBlanks v
  | separator hi =>
    simp only [lexeme?] at h
    split at h
    · obtain ⟨rfl, -⟩ := Prod.mk.inj (Option.some.inj h)
      obtain rfl := Phase.within.inj (Option.some.inj hi)
      exact View.path_settles.skipBlanks v
    · simp at h
  | char c hc =>
    simp only [lexeme?] at h
    split at h
    · rename_i hhead
      obtain ⟨rfl, -⟩ := Prod.mk.inj (Option.some.inj h)
      obtain ⟨rest, hr⟩ := rest_of_head? hhead
      simp only [Phase.character] at hc
      simp only [View.Settles, View.rest_advance, hr, List.drop_succ_cons, List.drop_zero]
      split at hc
      · rename_i hopen
        obtain rfl := Phase.within.inj (Option.some.inj hc)
        simp only [nesting, hopen, beq_self_eq_true, ↓reduceIte]
        omega
      · rename_i hopen
        split at hc
        · rename_i hclose
          rcases opened with _ | opened
          · simp at hc
          · obtain rfl := Phase.within.inj (Option.some.inj hc)
            simp only [nesting, hclose, beq_self_eq_true, ↓reduceIte]
            split <;> omega
        · split at hc
          · rename_i hplain
            obtain rfl := Phase.within.inj (Option.some.inj hc)
            rw [nesting_plain hplain]
          · simp at hc
    · simp at h
  | lexeme hf he hφ => exact View.settles_of_contained hf (he v ▸ h) rfl hφ

/-- What is found settles all that is opened. -/
abbrev Reader.Settles {α : Type} (opened opened' : Nat) (r : Reader α) : Prop :=
  r.Follows (View.Settles opened opened')

theorem Reader.settles_emptyParens {opened opened' : Nat}
    (ht : (Phase.within opened).token = some (.within opened')) {v : View} {n : Nat}
    (hn : emptyParensLength? v.rest = some n) : View.Settles opened opened' v (v.advance n) := by
  obtain rfl := Phase.within.inj (Option.some.inj ht)
  obtain ⟨blanks, rest, hr, hb, rfl⟩ := emptyParensLength?_eq_some.1 hn
  have hp : ∀ c ∈ blanks, isPlain c = true := fun c hc => isPlain_of_isWideBlank (hb c hc)
  have hrest : (v.advance (blanks.length + 2)).rest = rest := by simp [hr]
  have hopen : nesting false ('(' :: (blanks ++ ')' :: rest)) =
      nesting false (blanks ++ ')' :: rest) + 1 := rfl
  have hclose : nesting false (')' :: rest) = nesting false rest - 1 := rfl
  rw [View.Settles, hrest, hr, hopen, nesting_append hp, hclose]
  omega

/-- What a grammar reads within some open forms settles what it opens and closes. -/
theorem Grammar.settles_denote {N : Type → Type} {read : {α : Type} → N α → Reader α}
    (hn : ∀ {α : Type} (n : N α) {opened : Nat}, (read n).Settles opened opened) {α : Type}
    (g : Grammar N α) {opened opened' : Nat}
    (hg : g.next (.within opened) = some (.within opened')) :
    (g.denote read).Settles opened opened' := by
  induction g generalizing opened opened' with
  | terminal t =>
    intro v w a h
    rcases hl : t.lexeme? v with _ | ⟨n, b⟩
    · simp [denote, hl, Finding.lexeme] at h
    · simp only [denote, hl, Finding.lexeme] at h
      obtain ⟨rfl, rfl⟩ := Finding.found.inj h
      exact t.settles hg hl
  | call n =>
    obtain rfl := Phase.within.inj (Option.some.inj hg)
    exact hn n
  | seq g h ihg ihh =>
    intro v w ab hab
    obtain ⟨χ, hχ, hψ⟩ := Option.bind_eq_some_iff.1 hg
    obtain ⟨u, hu, hw⟩ := Reader.seq_eq_found.1 hab
    cases χ with
    | before => exact absurd hχ (next_ne_before g _)
    | within k => exact Nat.le_trans (ihh hψ hw) (ihg hχ hu)
    | behind => simp [next_behind] at hψ
  | refine f g ih =>
    intro v w b hb
    obtain ⟨a, ha, -⟩ := Reader.refine_eq_found.1 hb
    exact ih hg ha
  | orElse g h ihg ihh =>
    intro v w a ha
    simp only [next] at hg
    split at hg
    · rename_i heq
      obtain ha | ⟨-, ha⟩ := Finding.orElse_eq_found.1 ha
      · exact ihg hg ha
      · exact ihh (heq ▸ hg) ha
    · simp at hg
  | opt g ih =>
    simp only [next] at hg
    split at hg
    · rename_i heq
      obtain rfl := Phase.within.inj (Option.some.inj hg)
      exact Reader.follows_opt View.path_settles (ih heq)
    · simp at hg
  | more g ih =>
    simp only [next] at hg
    split at hg
    · rename_i heq
      obtain rfl := Phase.within.inj (Option.some.inj hg)
      exact fun h => Reader.follows_moreWithin View.path_settles (ih heq) _ h
    · simp at hg
  | emptyOr g ih =>
    intro v w x hx
    simp only [next] at hg
    split at hg
    · rename_i heq
      simp only [denote, Reader.emptyOr] at hx
      rcases hn : emptyParensLength? v.rest with _ | n
      · simp only [hn] at hx
        obtain ⟨u, a, ha, hw⟩ := Finding.andThen_eq_found.1 hx
        obtain ⟨rfl, -⟩ := Finding.found.inj hw
        exact ih (heq.trans hg) ha
      · simp only [hn] at hx
        obtain ⟨rfl, -⟩ := Finding.found.inj hx
        exact Reader.settles_emptyParens hg hn
    · simp at hg
  | typedList default group values ihg ihv =>
    simp only [next] at hg
    split at hg
    · rename_i heq
      obtain rfl := Phase.within.inj (Option.some.inj hg)
      exact Reader.follows_typedList View.path_settles (ihg heq.1) (ihv heq.2.1)
    · simp at hg

theorem Nonterminal.settles_denote (levels : Nat) {α : Type} (n : Nonterminal α) {opened : Nat} :
    (n.denote levels).Settles opened opened := by
  induction levels generalizing α opened with
  | zero => intro v w a h; simp [Nonterminal.denote] at h
  | succ levels ih =>
    -- what a production settles within no form it settles within any number of them
    intro v w a h
    have hw : View.Settles 0 0 v w :=
      Grammar.settles_denote (fun n => ih n) _ n.next_production_within h
    exact Nat.add_le_add_right hw opened

/-! ### Ranks -/

/-- How many calls may follow one another before a form is opened. -/
def Nonterminal.rank : {α : Type} → Nonterminal α → Nat
  | _, durativeExpression => 1
  | _, preconditions => 1
  | _, effects => 1
  | _, operand => 1
  | _, preferredConstraint => 1
  | _, _ => 0

theorem Nonterminal.rank_le {α : Type} (n : Nonterminal α) : n.rank ≤ 1 := by
  cases n <;> decide

/-- Whatever the grammar calls has a lower rank, where it stands outside of all forms. -/
def Grammar.lead {α : Type} : Rule α → Phase → Nat
  | terminal _, _ => 0
  | call n, φ => if φ = .within 0 then n.rank + 1 else 0
  | seq g h, φ => max (g.lead φ) (((g.next φ).map h.lead).getD 0)
  | refine _ g, φ => g.lead φ
  | orElse g h, φ => max (g.lead φ) (h.lead φ)
  | opt g, φ => g.lead φ
  | more g, φ => g.lead φ
  | emptyOr g, φ => g.lead φ
  | typedList _ group values, φ => max (group.lead φ) (values.lead φ)

set_option maxRecDepth 4000 in
theorem Nonterminal.lead_production_le {α : Type} (n : Nonterminal α) :
    n.production.lead (.within 0) ≤ n.rank := by
  cases n <;> decide

/-! ### Findings that are not too deep -/

namespace Finding

variable {α β : Type}

theorem found_ne_tooDeep {v : View} {a : α} : found v a ≠ .tooDeep := nofun

theorem missing_ne_tooDeep : (missing : Finding α) ≠ .tooDeep := nofun

theorem andThen_ne_tooDeep {o : Finding α} {k : View → α → Finding β} (ho : o ≠ .tooDeep)
    (hk : ∀ v a, o = .found v a → k v a ≠ .tooDeep) : o.andThen k ≠ .tooDeep := by
  rcases o with ⟨v, a⟩ | _ | _ | _ | _
  · exact hk v a rfl
  all_goals simp_all [andThen]

theorem orElse_ne_tooDeep {o o' : Finding α} (ho : o ≠ .tooDeep) (ho' : o' ≠ .tooDeep) :
    o.orElse o' ≠ .tooDeep := by
  rcases o with ⟨v, a⟩ | _ | _ | _ | _ <;> simp_all [orElse]

theorem complaint_ne_tooDeep (e : Complaint) : (complaint e : Finding α) ≠ .tooDeep := by
  cases e <;> simp [complaint]

end Finding

/-- Within some open forms, reading is never too deep where no more forms than the given number are
open at once. -/
def Reader.Shallow {α : Type} (k opened : Nat) (r : Reader α) : Prop :=
  ∀ v : View, nesting false v.rest + opened ≤ k → r v ≠ .tooDeep

namespace Reader

variable {α β : Type} {k i : Nat}

theorem shallow_opt {r : Reader α} (h : r.Shallow k i) : (opt r).Shallow k i := fun v hv =>
  Finding.orElse_ne_tooDeep (Finding.andThen_ne_tooDeep (h v hv) fun _ _ _ => Finding.found_ne_tooDeep)
    Finding.found_ne_tooDeep

theorem shallow_separated {r : Reader α} (h : r.Shallow k i) : (separated r).Shallow k i := by
  intro v hv
  unfold separated
  split
  · exact h _ ((View.path_settles.skipBlanks v).trans hv)
  · exact Finding.missing_ne_tooDeep

theorem shallow_separatedUnless {r : Reader α} (h : r.Shallow k i) (first : Bool) :
    (separatedUnless first r).Shallow k i := by
  cases first with
  | false => exact shallow_separated h
  | true => exact h

theorem shallow_moreWithin {r : Reader α} (hs : r.Settles i i) (h : r.Shallow k i)
    (fuel : List Char) : (moreWithin r fuel).Shallow k i := by
  have ho := shallow_opt (shallow_separated h)
  have hos := @follows_opt _ _ _ View.path_settles (follows_separated View.path_settles hs)
  induction fuel with
  | nil => exact fun v hv => Finding.andThen_ne_tooDeep (ho v hv) fun _ _ _ =>
      Finding.found_ne_tooDeep
  | cons c fuel ih =>
    intro v hv
    refine Finding.andThen_ne_tooDeep (ho v hv) fun w a? hw => ?_
    rcases a? with _ | a
    · exact Finding.found_ne_tooDeep
    · simp only
      split
      · exact Finding.found_ne_tooDeep
      · exact Finding.andThen_ne_tooDeep (ih w ((hos hw).trans hv)) fun _ _ _ =>
          Finding.found_ne_tooDeep

theorem shallow_groupsWithin {r : Reader (List α)} (hs : r.Settles i i) (h : r.Shallow k i)
    (fuel : List Char) (first : Bool) : (groupsWithin r first fuel).Shallow k i := by
  have ho := fun first => shallow_opt (shallow_separatedUnless h first)
  have hos := fun first =>
    @follows_opt _ _ _ View.path_settles (follows_separatedUnless View.path_settles hs first)
  induction fuel generalizing first with
  | nil => exact fun v hv => Finding.andThen_ne_tooDeep (ho first v hv) fun _ _ _ =>
      Finding.found_ne_tooDeep
  | cons c fuel ih =>
    intro v hv
    refine Finding.andThen_ne_tooDeep (ho first v hv) fun w as? hw => ?_
    rcases as? with _ | as
    · exact Finding.found_ne_tooDeep
    · exact Finding.andThen_ne_tooDeep (ih _ w ((hos _ hw).trans hv)) fun _ _ _ =>
        Finding.found_ne_tooDeep

theorem shallow_untypedTail {r : Reader (List α)} (h : r.Shallow k i) (first : Bool) :
    (untypedTail first r).Shallow k i := by
  intro v hv
  refine Finding.andThen_ne_tooDeep (shallow_opt (shallow_separatedUnless h first) v hv)
    fun w as? _ => ?_
  rcases as? with _ | as <;> exact Finding.found_ne_tooDeep

theorem shallow_typedList {default : TypeSpec} {r : Reader (List (Typed α))} {s : Reader (List α)}
    (hs : r.Settles i i) (hr : r.Shallow k i) (hv : s.Shallow k i) :
    (typedList default r s).Shallow k i := by
  intro v hk
  refine Finding.andThen_ne_tooDeep (shallow_groupsWithin hs hr _ _ v hk) fun w typed hw => ?_
  have hle := follows_groupsWithin View.path_settles hs _ _ hw
  exact Finding.andThen_ne_tooDeep (shallow_untypedTail hv _ w (hle.trans hk)) fun _ _ _ =>
    Finding.found_ne_tooDeep

end Reader

/-! ### Grammars -/

namespace Grammar

variable {read : {α : Type} → Nonterminal α → Reader α}

/-- A grammar is never too deep where so many forms are open at once if neither its nonterminals are
where fewer forms are, nor those of a rank below its lead where as many are. -/
theorem shallow_denote {k m : Nat}
    (hs : ∀ {α : Type} (n : Nonterminal α) {opened : Nat}, (read n).Settles opened opened)
    (hless : ∀ {α : Type} (n : Nonterminal α) (j : Nat), j < k → (read n).Shallow j 0)
    (hsame : ∀ {α : Type} (n : Nonterminal α), n.rank < m → (read n).Shallow k 0)
    {α : Type} {g : Rule α} {i i' : Nat} (hg : g.next (.within i) = some (.within i'))
    (hm : g.lead (.within i) ≤ m) : (g.denote read).Shallow k i := by
  induction g generalizing i i' with
  | terminal t =>
    intro v _
    simp only [denote, Finding.lexeme]
    split
    · exact Finding.found_ne_tooDeep
    · exact Finding.missing_ne_tooDeep
  | call n =>
    intro v hv
    rcases i with _ | i
    · rw [lead, if_pos rfl] at hm
      exact hsame n hm v hv
    · -- within a form that the grammar has opened, fewer forms are left to open
      exact hless n (k - (i + 1)) (by omega) v (by omega)
  | seq g h ihg ihh =>
    obtain ⟨χ, hχ, hψ⟩ := Option.bind_eq_some_iff.1 hg
    simp only [lead, hχ, Option.map_some, Option.getD_some] at hm
    cases χ with
    | before => exact absurd hχ (next_ne_before g _)
    | behind => simp [next_behind] at hψ
    | within j =>
      intro v hv
      refine Finding.andThen_ne_tooDeep (ihg hχ (by omega) v hv) fun w a hw => ?_
      have hle : View.Settles i j v w := settles_denote hs g hχ hw
      exact Finding.andThen_ne_tooDeep (ihh hψ (by omega) w (hle.trans hv)) fun _ _ _ =>
        Finding.found_ne_tooDeep
  | refine f g ih =>
    intro v hv
    refine Finding.andThen_ne_tooDeep (ih hg hm v hv) fun w a _ => ?_
    rcases f a with e | b
    · exact Finding.complaint_ne_tooDeep e
    · exact Finding.found_ne_tooDeep
  | orElse g h ihg ihh =>
    simp only [lead] at hm
    simp only [next] at hg
    split at hg
    · rename_i heq
      exact fun v hv => Finding.orElse_ne_tooDeep (ihg hg (by omega) v hv)
        (ihh (heq ▸ hg) (by omega) v hv)
    · simp at hg
  | opt g ih =>
    simp only [next] at hg
    split at hg
    · rename_i heq
      exact Reader.shallow_opt (ih (heq.trans hg) hm)
    · simp at hg
  | more g ih =>
    simp only [next] at hg
    split at hg
    · rename_i heq
      exact fun v => Reader.shallow_moreWithin (settles_denote hs g heq) (ih heq hm) _ v
    · simp at hg
  | emptyOr g ih =>
    simp only [next] at hg
    split at hg
    · rename_i heq
      intro v hv
      simp only [denote, Reader.emptyOr]
      split
      · exact Finding.found_ne_tooDeep
      · exact Finding.andThen_ne_tooDeep (ih (heq.trans hg) hm v hv) fun _ _ _ =>
          Finding.found_ne_tooDeep
    · simp at hg
  | typedList default group values ihg ihv =>
    simp only [lead] at hm
    simp only [next] at hg
    split at hg
    · rename_i heq
      exact Reader.shallow_typedList (settles_denote hs group heq.1) (ihg heq.1 (by omega))
        (ihv heq.2.1 (by omega))
    · simp at hg

end Grammar

/-- A nonterminal that may open twice as many levels as forms are open at once, and a few more,
never uses them up. -/
theorem Nonterminal.shallow_denote {α : Type} (n : Nonterminal α) {k levels : Nat}
    (h : 2 * k + n.rank < levels) : (n.denote levels).Shallow k 0 := by
  induction levels generalizing α k with
  | zero => omega
  | succ levels ih =>
    refine Grammar.shallow_denote (m := n.rank) (fun n => n.settles_denote levels) ?_ ?_
      n.next_production_within n.lead_production_le
    · intro β m j hj
      have := m.rank_le
      exact ih m (by omega)
    · intro β m hm
      exact ih m (by omega)

/-- **Twice as many levels as forms are open at once, and two more, are never used up.** -/
theorem Rule.look_ne_tooDeep {α : Type} {g : Rule α} (hg : g.next (.within 0) = some (.within 0))
    {levels : Nat} {v : View} (h : 2 * nesting false v.rest + 1 < levels) :
    g.look levels v ≠ .tooDeep := by
  refine Grammar.shallow_denote (m := g.lead (.within 0)) (fun n => n.settles_denote levels) ?_ ?_
    hg le_rfl v le_rfl
  · intro β m j hj
    have := m.rank_le
    exact m.shallow_denote (by omega)
  · intro β m _
    have := m.rank_le
    exact m.shallow_denote (by omega)

/-! ### More levels -/

/-- Wherever the first reader is not too deep, the second one finds the same. -/
def Reader.Refines {α : Type} (r s : Reader α) : Prop := ∀ v, r v ≠ .tooDeep → s v = r v

namespace Finding

variable {α β : Type}

theorem andThen_eq_of_ne_tooDeep {o o' : Finding α} {k k' : View → α → Finding β}
    (h : o.andThen k ≠ .tooDeep) (ho : o ≠ .tooDeep → o' = o)
    (hk : ∀ v a, o = .found v a → k v a ≠ .tooDeep → k' v a = k v a) :
    o'.andThen k' = o.andThen k := by
  have hne : o ≠ .tooDeep := by
    rintro rfl
    exact h rfl
  rw [ho hne]
  rcases o with ⟨v, a⟩ | _ | _ | _ | _
  · exact hk v a rfl h
  all_goals rfl

theorem orElse_eq_of_ne_tooDeep {o o' q q' : Finding α} (h : o.orElse q ≠ .tooDeep)
    (ho : o ≠ .tooDeep → o' = o) (hq : q ≠ .tooDeep → q' = q) : o'.orElse q' = o.orElse q := by
  have hne : o ≠ .tooDeep := by
    rintro rfl
    exact h rfl
  rw [ho hne]
  rcases o with ⟨v, a⟩ | _ | _ | _ | _
  · rfl
  · exact hq h
  all_goals rfl

end Finding

namespace Reader

variable {α β : Type}

theorem refines_opt {r s : Reader α} (h : r.Refines s) : (opt r).Refines (opt s) := fun v hv =>
  Finding.orElse_eq_of_ne_tooDeep hv
    (fun ho => Finding.andThen_eq_of_ne_tooDeep ho (h v) fun _ _ _ _ => rfl) fun _ => rfl

theorem refines_separated {r s : Reader α} (h : r.Refines s) :
    (separated r).Refines (separated s) := by
  intro v hv
  unfold separated at hv ⊢
  split
  · rename_i hs
    rw [if_pos hs] at hv
    exact h _ hv
  · rfl

theorem refines_separatedUnless {r s : Reader α} (h : r.Refines s) (first : Bool) :
    (separatedUnless first r).Refines (separatedUnless first s) := by
  cases first with
  | false => exact refines_separated h
  | true => exact h

theorem refines_moreWithin {r s : Reader α} (h : r.Refines s) (fuel : List Char) :
    (moreWithin r fuel).Refines (moreWithin s fuel) := by
  have ho := refines_opt (refines_separated h)
  induction fuel with
  | nil => exact fun v hv => Finding.andThen_eq_of_ne_tooDeep hv (ho v) fun _ _ _ _ => rfl
  | cons c fuel ih =>
    intro v hv
    refine Finding.andThen_eq_of_ne_tooDeep hv (ho v) fun w a? _ hw => ?_
    rcases a? with _ | a
    · rfl
    · simp only at hw ⊢
      split
      · rfl
      · rename_i hlen
        rw [if_neg hlen] at hw
        exact Finding.andThen_eq_of_ne_tooDeep hw (ih w) fun _ _ _ _ => rfl

theorem refines_groupsWithin {r s : Reader (List α)} (h : r.Refines s) (fuel : List Char)
    (first : Bool) : (groupsWithin r first fuel).Refines (groupsWithin s first fuel) := by
  have ho := fun first => refines_opt (refines_separatedUnless h first)
  induction fuel generalizing first with
  | nil => exact fun v hv => Finding.andThen_eq_of_ne_tooDeep hv (ho first v) fun _ _ _ _ => rfl
  | cons c fuel ih =>
    intro v hv
    refine Finding.andThen_eq_of_ne_tooDeep hv (ho first v) fun w as? _ hw => ?_
    rcases as? with _ | as
    · rfl
    · exact Finding.andThen_eq_of_ne_tooDeep hw (ih _ w) fun _ _ _ _ => rfl

theorem refines_untypedTail {r s : Reader (List α)} (h : r.Refines s) (first : Bool) :
    (untypedTail first r).Refines (untypedTail first s) := fun v hv =>
  Finding.andThen_eq_of_ne_tooDeep hv (refines_opt (refines_separatedUnless h first) v)
    fun _ _ _ _ => rfl

theorem refines_typedList {default : TypeSpec} {r r' : Reader (List (Typed α))}
    {s s' : Reader (List α)} (hr : r.Refines r') (hs : s.Refines s') :
    (typedList default r s).Refines (typedList default r' s') := fun v hv =>
  Finding.andThen_eq_of_ne_tooDeep hv (refines_groupsWithin hr _ _ v) fun w _ _ hw =>
    Finding.andThen_eq_of_ne_tooDeep hw (refines_untypedTail hs _ w) fun _ _ _ _ => rfl

end Reader

/-- A grammar finds the same with readers of nonterminals that find the same. -/
theorem Grammar.refines_denote {N : Type → Type} {read read' : {α : Type} → N α → Reader α}
    (hread : ∀ {α : Type} (n : N α), (read n).Refines (read' n)) {α : Type} (g : Grammar N α) :
    (g.denote read).Refines (g.denote read') := by
  induction g with
  | terminal t => exact fun _ _ => rfl
  | call n => exact hread n
  | seq g h ihg ihh =>
    exact fun v hv => Finding.andThen_eq_of_ne_tooDeep hv (ihg v) fun w _ _ hw =>
      Finding.andThen_eq_of_ne_tooDeep hw (ihh w) fun _ _ _ _ => rfl
  | refine f g ih =>
    exact fun v hv => Finding.andThen_eq_of_ne_tooDeep hv (ih v) fun _ _ _ _ => rfl
  | orElse g h ihg ihh => exact fun v hv => Finding.orElse_eq_of_ne_tooDeep hv (ihg v) (ihh v)
  | opt g ih => exact Reader.refines_opt ih
  | more g ih => exact fun v hv => Reader.refines_moreWithin ih v.rest v hv
  | emptyOr g ih =>
    intro v hv
    simp only [denote, Reader.emptyOr] at hv ⊢
    split
    · rfl
    · rename_i hn
      rw [hn] at hv
      exact Finding.andThen_eq_of_ne_tooDeep hv (ih v) fun _ _ _ _ => rfl
  | typedList default group values ihg ihv => exact Reader.refines_typedList ihg ihv

theorem Nonterminal.refines_denote {α : Type} (n : Nonterminal α) (levels : Nat) :
    (n.denote levels).Refines (n.denote (levels + 1)) := by
  induction levels generalizing α with
  | zero => exact fun v hv => absurd rfl hv
  | succ levels ih => exact Grammar.refines_denote (fun n => ih n) n.production

/-- **One more level changes nothing where the levels were not used up.** -/
theorem Rule.look_succ {α : Type} (g : Rule α) {levels : Nat} {v : View}
    (h : g.look levels v ≠ .tooDeep) : g.look (levels + 1) v = g.look levels v :=
  Grammar.refines_denote (fun n => n.refines_denote levels) g v h

/-- More levels change nothing where the levels were not used up. -/
theorem Rule.look_eq_of_le {α : Type} {g : Rule α} {j k : Nat} {v : View} (hjk : j ≤ k)
    (h : g.look j v ≠ .tooDeep) : g.look k v = g.look j v := by
  induction hjk with
  | refl => rfl
  | step _ ih => rw [look_succ g (by rwa [ih]), ih]

/-- What is found is also found with more levels. -/
theorem Rule.look_of_le {α : Type} {g : Rule α} {j k : Nat} {v w : View} {a : α} (hjk : j ≤ k)
    (h : g.look j v = .found w a) : g.look k v = .found w a := by
  rw [look_eq_of_le hjk (by rw [h]; exact Finding.found_ne_tooDeep), h]

end Pddl
