import Pddl.Proofs.TypedLists

/-!
# Which alternative reads a text

A written construct is read by the first alternative that takes it.  So every alternative in front
of the right one has to be missing, and where the same word may stand at the head of two forms, that
depends on the parts: a form is missing as soon as one of its parts is.

* `Rule.MissesText`, `Rule.Decides` : for alternatives, nonterminals, forms and lists.
* `Rule.missesText_form_many`, `Rule.missesText_headed`, … : what it takes for a form to be missing.
* `Rule.recovers_keyword` : the words of a vocabulary are told apart.
-/

namespace Pddl

/-! ### Vocabularies -/

/-- A word is not in front of another one that is not longer. -/
theorem apart_of_length_le {w : String} (hw : IsWord w) {cs : List Char}
    (hlen : cs.length ≤ w.toList.length)
    (hne : cs ≠ w.toList) : Apart w cs = true := by
  unfold Apart
  rw [hw.2]
  rcases hp : w.toList.isPrefixOf? cs with _ | rest
  · simp [hp]
  · obtain rfl := isPrefixOf?_eq_some.1 hp
    rw [List.length_append] at hlen
    have hrest : rest = [] := List.length_eq_zero_iff.1 (by omega)
    simp [hrest] at hne

/-- The words are tried with the longer ones first. -/
theorem pairwise_longestFirst {α : Type} (entries : List (String × α)) :
    (Terminal.longestFirst entries).Pairwise fun a b => b.1.length ≤ a.1.length := by
  have h : (Terminal.longestFirst entries).Pairwise
      fun a b => decide (b.1.length ≤ a.1.length) = true :=
    List.pairwise_mergeSort (by simp; omega) (by simp; omega) entries
  simpa using h

/-- Of words with the longer ones first, a written one is found. -/
theorem firstMatch?_of_pairwise {α : Type} {r : List Char} {entries : List (String × α)}
    (hsorted : entries.Pairwise fun a b => b.1.length ≤ a.1.length)
    (hwords : ∀ e ∈ entries, IsWord e.1) {e : String × α} (he : e ∈ entries)
    (hunique : ∀ e' ∈ entries, e'.1 = e.1 → e' = e) (hr : Delimited r) :
    Terminal.firstMatch? (e.1.toList ++ r) entries = some (e.1.toList.length, e.2) := by
  induction entries with
  | nil => simp at he
  | cons e' entries ih =>
    rw [List.pairwise_cons] at hsorted
    rw [Terminal.firstMatch?]
    by_cases heq : e' = e
    · rw [heq, keywordLength?_self (hwords e he) hr]
    · -- the words in front are no shorter, and so they are missing
      have he : e ∈ entries := (List.mem_cons.1 he).resolve_left fun h => heq h.symm
      have hword := hwords e' (by simp)
      have hapart : Apart e'.1 e.1.toList = true :=
        apart_of_length_le hword (hsorted.1 e he)
          fun h => heq (hunique e' (by simp) (String.toList_inj.1 h).symm)
      rw [keywordLength?_of_apart hapart hword.1 hr]
      exact ih hsorted.2 (fun x hx => hwords x (by simp [hx])) he fun x hx => hunique x (by simp [hx])

theorem firstMatch?_eq_none {α : Type} {s : List Char} {entries : List (String × α)}
    (h : ∀ e ∈ entries, keywordLength? e.1 s = none) : Terminal.firstMatch? s entries = none := by
  induction entries with
  | nil => rfl
  | cons e entries ih =>
    rw [Terminal.firstMatch?, h e (by simp)]
    exact ih fun x hx => h x (by simp [hx])

/-- A vocabulary of single words that are all different. -/
class PlainVocabulary (ω : Type) [Vocabulary ω] : Prop where
  isWord : ∀ a : ω, IsWord (Vocabulary.keyword a)
  injective : ∀ a b : ω, Vocabulary.keyword a = Vocabulary.keyword b → a = b

instance : PlainVocabulary Comparator where
  isWord a := by cases a <;> decide
  injective a b := by cases a <;> cases b <;> decide

instance : PlainVocabulary ArithmeticOp where
  isWord a := by cases a <;> decide
  injective a b := by cases a <;> cases b <;> decide

instance : PlainVocabulary Optimization where
  isWord a := by cases a <;> decide
  injective a b := by cases a <;> cases b <;> decide

namespace Rule

open Grammar

variable {α β : Type} {g : Rule α} {h : Rule β} {s r gap : List Char} {P : α → Prop} {Q : β → Prop}

/-! ### Alternatives -/

theorem MissesText.map {f : α → β} (hg : g.MissesText s) : MissesText (f <$> g) s :=
  fun r hr => (hg r hr).map

theorem MissesText.refine {f : α → Except Complaint β} (hg : g.MissesText s) :
    MissesText (.refine f g) s := fun r hr => (hg r hr).refine

theorem MissesText.orElse {h : Rule α} (hg : g.MissesText s) (hh : h.MissesText s) :
    MissesText (g <|> h) s := fun r hr => (hg r hr).orElse (hh r hr)

theorem missesText_call {n : Nonterminal α} (h : n.production.MissesText s) :
    MissesText (.call n) s := fun r hr => misses_call (h r hr)

/-- A rule that begins with a parenthesis is missing in front of another construct. -/
theorem missesText_of_opens (hg : g.opens = true) (hs : IsSolid s) (hhead : s.head? ≠ some '(') :
    g.MissesText s := by
  obtain ⟨c, cs, rfl, -⟩ := hs
  exact fun r _ => misses_of_opens hg hhead

theorem Recovers.behind {h : Rule α} (hg : g.MissesText s) (hh : h.Recovers s P) :
    Recovers (g <|> h) s P := .right (fun hr => hg _ hr) hh

variable {p q : Prop}

theorem Recovers.decides (hg : g.Recovers s P) (hp : p) : g.Decides s p :=
  .inl ⟨hg.mono fun _ _ => trivial, hp⟩

theorem Decides.mono (hg : g.Decides s p) (hpq : p → q) : g.Decides s q :=
  hg.imp_left (And.imp_right hpq)

/-- What the rule takes only if the proposition holds is missing if it does not. -/
theorem Decides.missesText (hg : g.Decides s p) (hp : ¬p) : g.MissesText s :=
  hg.elim (fun h => absurd h.2 hp) And.right

theorem Decides.map {f : α → β} (hg : g.Decides s p) : Decides (f <$> g) s p :=
  hg.imp (fun hg => ⟨hg.1.map fun _ _ => trivial, hg.2⟩) fun hg => ⟨hg.1, hg.2.map⟩

theorem Decides.orElse {h : Rule α} (hg : g.Decides s p) (hh : h.Decides s p) :
    Decides (g <|> h) s p :=
  hg.elim (fun hg => .inl ⟨hg.1.left, hg.2⟩) fun hg =>
    hh.imp (fun hh => ⟨.behind hg.2 hh.1, hh.2⟩) fun hh => ⟨hh.1, hg.2.orElse hh.2⟩

theorem Decides.behind {h : Rule α} (hg : g.MissesText s) (hh : h.Decides s p) :
    Decides (g <|> h) s p :=
  .orElse (.inr ⟨hh.solid, hg⟩) hh

theorem decides_call {n : Nonterminal α} (h : n.production.Decides s p) : Decides (.call n) s p :=
  h.imp (And.imp_left recovers_call) fun h => ⟨h.1, missesText_call h.2⟩

/-! ### Fixed words -/

theorem recovers_word {w : String} (hw : IsWord w) : Recovers (word w) w.toList fun _ => True :=
  ⟨(isHead_of_isWord hw).solid, fun hr => reads_word hw hr⟩

/-- A fixed word is missing where something else begins. -/
theorem misses_word_of_head {w : String} (hw : IsWord w) (hs : s.head? ≠ w.toList.head?) :
    Misses (word w) s := by
  refine misses_terminal fun b => ?_
  rcases hn : keywordLength? w s with _ | n
  · simp [Terminal.lexeme?, hn]
  · obtain ⟨hn, -⟩ := keywordLength?_eq_some.1 hn
    rw [hw.2] at hn
    obtain ⟨rest, rfl, -⟩ := wordsLength?_cons.1 hn
    obtain ⟨c, cs, hc, -⟩ := (isHead_of_isWord hw).solid
    simp [hc] at hs

/-! ### Lists and pairs -/

variable {head w : String} {parts : List (List Char)}

/-- Up to a closing parenthesis, the rule reads the parts, and only if the proposition holds, or it
does not. -/
def Fits (g : Rule α) (gap : List Char) (parts : List (List Char)) (p : Prop) : Prop :=
  ReadsParts g gap parts (fun _ => True) ∧ p ∨ StallsAt g gap parts

variable {p q : Prop}

theorem Fits.mono (hg : Fits g gap parts p) (hpq : p → q) : Fits g gap parts q :=
  hg.imp_left (And.imp_right hpq)

/-- A list fits if all its elements are there. -/
theorem fits_many {ι : Type} {t : ι → List Char} {l : List ι} {p : ι → Prop} (hgap : IsGap gap)
    (hg : ∀ x ∈ l, g.Decides (t x) (p x)) (hclose : ∀ r, g.Misses (')' :: r)) :
    Fits (many g) gap (l.map t) (∀ x ∈ l, p x) := by
  by_cases hx : ∃ x ∈ l, g.MissesText (t x)
  · exact .inr (stallsAt_many hgap hg hx)
  · have hreads : ∀ x ∈ l, g.Recovers (t x) (fun _ => True) ∧ p x := fun x hmem =>
      (hg x hmem).resolve_right fun h => hx ⟨x, hmem, h.2⟩
    exact .inl ⟨(readsParts_many hgap (fun x hmem => (hreads x hmem).1) hclose).mono
      fun _ _ => trivial, fun x hmem => (hreads x hmem).2⟩

/-- A single construct fits if it is there and nothing else is. -/
theorem fits_one (hgap : IsGap gap) (hg : ∀ s ∈ parts, g.Decides s p)
    (hclose : ∀ r, g.Misses (')' :: r)) : Fits g gap parts p := by
  rcases parts with _ | ⟨s, _ | ⟨s', ss⟩⟩
  · exact .inr (stallsAt_nil hgap hclose)
  · exact (hg s (by simp)).imp (And.imp_left (.one hgap))
      fun h => stallsAt_of_missesText hgap h.1 h.2 []
  · exact .inr (stallsAt_long hgap (hg s (by simp)) (hg s' (by simp)).solid ss)

/-- A pair fits if the first construct is there and the others fit. -/
theorem fits_pair (hgap : IsGap gap) (hg : ∀ s ∈ parts.head?, g.Decides s p)
    (hh : Fits h gap parts.tail q) (hclose : ∀ r, g.Misses (')' :: r)) :
    Fits (pair g h) gap parts (p ∧ q) := by
  rcases parts with _ | ⟨s, ss⟩
  · exact .inr (stallsAt_nil hgap fun r => (hclose r).pair)
  obtain ⟨hs, hp⟩ | hs := hg s rfl
  · exact hh.imp (fun hh => ⟨(ReadsParts.pair hs hh.1).mono fun _ _ => trivial, hp, hh.2⟩)
      fun hh => stallsAt_pair (.inl ⟨hs, trivial⟩) hh
  · exact .inr (stallsAt_of_missesText hgap hs.1 (fun r hr => (hs.2 r hr).pair) ss)

/-! ### Forms -/

/-- A form is missing where another head word stands. -/
theorem missesText_form (hw : IsPlainWord w) (hh : IsSolid head.toList)
    (ha : Apart w head.toList = true) (parts : List (List Char)) :
    MissesText (form w g) (oneLine head parts) := fun _ _ => misses_form ha hw hh isGap_blank parts

theorem missesText_form_of_stallsAt (hw : IsHead w) (hg : g.StallsAt [' '] parts) :
    MissesText (form w g) (oneLine w parts) := fun _ _ => misses_form_of_stallsAt hw hg

theorem Misses.headed (hg : g.Misses s) : Misses (headed g h) s := fun levels b =>
  (hg levels b).andThen

theorem missesText_headed_of_stallsAt (hg : g.Recovers head.toList P) (hh : h.StallsAt [' '] parts) :
    MissesText (parens (headed g h)) (oneLine head parts) :=
  fun _ _ => misses_headed_of_stallsAt hg hh

theorem decides_form_of_fits (hw : IsHead w) (hg : Fits g [' '] parts p) :
    Decides (form w g) (oneLine w parts) p :=
  hg.imp (And.imp_left (recovers_form hw)) fun hg =>
    ⟨isSolid_enclose _ _ _, missesText_form_of_stallsAt hw hg⟩

theorem decides_headed_of_fits (hg : g.Recovers head.toList P) (hh : Fits h [' '] parts p) :
    Decides (parens (headed g h)) (oneLine head parts) p :=
  hh.imp (And.imp_left fun hh => (recovers_headed hg hh).mono fun _ _ => trivial)
    fun hh => ⟨isSolid_enclose _ _ _, missesText_headed_of_stallsAt hg hh⟩

/-- A name is a symbol of every kind without a sigil. -/
theorem recovers_symbol_of_isName (kind : SymbolKind) (hk : kind.sigil = "")
    (hn : isName head.toList = true) : Recovers (symbol kind) head.toList fun _ => True := by
  have h := recovers_symbol (⟨head, hn⟩ : Symbol kind)
  rw [Symbol.written_of_sigil hk] at h
  exact h.mono fun _ _ => trivial

theorem isSolid_of_isName (hn : isName head.toList = true) : IsSolid head.toList :=
  (recovers_symbol_of_isName .name rfl hn).solid

/-- Behind a name, a form is missing unless the name is its head word. -/
theorem missesText_form_of_isName (hw : IsWord w) (hn : isName head.toList = true) (hne : head ≠ w)
    (parts : List (List Char)) : MissesText (form w g) (oneLine head parts) :=
  missesText_form hw.1 (isSolid_of_isName hn)
    (apart_of_isName hw hn fun h => hne (String.toList_inj.1 h)) parts

/-- Behind a name, a form is decided if its parts are where the name is its head word. -/
theorem decides_form_of_isName (hw : IsWord w) (hn : isName head.toList = true)
    (hg : head = w → Fits g [' '] parts p) : Decides (form w g) (oneLine head parts) p := by
  by_cases hhead : head = w
  · rw [hhead]
    exact decides_form_of_fits (isHead_of_isWord hw) (hg hhead)
  · exact .inr ⟨isSolid_enclose _ _ _, missesText_form_of_isName hw hn hhead parts⟩

/-- Behind an operator, a form with a name for its head word is missing. -/
theorem missesText_form_of_operator (hw : IsWord w) (hn : isName w.toList = true)
    (hh : IsSolid head.toList) (hs : head.toList.head?.any isNameStart = false)
    (parts : List (List Char)) : MissesText (form w g) (oneLine head parts) := by
  intro r _
  have hword : Misses (word w) (head.toList ++ (spread [' '] parts ++ ')' :: r)) := by
    refine misses_word_of_head hw fun h => ?_
    obtain ⟨c, cs, hc, -⟩ := hh
    obtain ⟨c', cs', hc', -⟩ := (isHead_of_isWord hw).solid
    rw [hc'] at hn h
    rw [hc] at hs h
    obtain rfl : c = c' := by simpa using h
    simp only [isName, Bool.and_eq_true] at hn
    simp [hn.1] at hs
  have hstalls : Stalls (word w *> blanks *> g)
      (head.toList ++ (spread [' '] parts ++ ')' :: r)) := by
    refine Misses.stalls fun levels b => ?_
    rw [look_seqRight, look_seqRight]
    exact (hword levels b).andThen.andThen
  exact misses_parens_enclose hh hstalls

/-- An operator is no symbol. -/
theorem missesText_headed_of_operator {kind : SymbolKind} (hk : kind.sigil = "")
    (hh : IsSolid head.toList) (hs : head.toList.head?.any isNameStart = false)
    (parts : List (List Char)) :
    MissesText (parens (headed (symbol kind) g)) (oneLine head parts) := by
  intro r _
  have hsymbol : Misses (symbol kind) (head.toList ++ (spread [' '] parts ++ ')' :: r)) := by
    refine misses_symbol hk ?_
    obtain ⟨c, cs, hc, -⟩ := hh
    simpa [hc] using hs
  exact misses_parens_enclose hh hsymbol.headed.stalls

/-! ### Parameters -/

/-- Where the first item is missing, a typed list is empty. -/
theorem look_items_of_misses (hg : g.Misses s) (levels : Nat) (b : Option Char) :
    look levels (items g) ⟨b, s⟩ = .tooDeep ∨ look levels (items g) ⟨b, s⟩ = .found ⟨b, s⟩ {} := by
  have hmany1 : (look levels (many1 g) ⟨b, s⟩).Misses := by
    rw [many1, look_map, look_seq]
    exact (hg levels b).andThen.andThen
  have hgroup : (look levels (typedGroup g) ⟨b, s⟩).Misses := by
    rw [typedGroup, look_map, look_seq]
    exact hmany1.andThen.andThen
  show Reader.typedList .object (look levels (typedGroup g)) (look levels (many g)) ⟨b, s⟩ = _ ∨
    Reader.typedList .object (look levels (typedGroup g)) (look levels (many g)) ⟨b, s⟩ = _
  obtain hgroup | hgroup := hgroup
  · left
    cases s <;> simp [Reader.typedList, Reader.groupsWithin, Reader.separatedUnless, Reader.opt,
      hgroup, Finding.andThen, Finding.orElse]
  obtain hmany1 | hmany1 := hmany1
  · left
    have hmany : look levels (many g) ⟨b, s⟩ = .tooDeep := by
      rw [look_many, Reader.opt, hmany1]
      rfl
    cases s <;> simp [Reader.typedList, Reader.groupsWithin, Reader.separatedUnless, Reader.opt,
      Reader.untypedTail, hgroup, hmany, Finding.andThen, Finding.orElse]
  · right
    have hmany : look levels (many g) ⟨b, s⟩ = .found ⟨b, s⟩ [] := by
      rw [look_many, Reader.opt, hmany1]
      rfl
    cases s <;> simp [Reader.typedList, Reader.groupsWithin, Reader.separatedUnless, Reader.opt,
      Reader.untypedTail, hgroup, hmany, Finding.andThen, Finding.orElse]

/-- A form with a head word is no list of parameters. -/
theorem missesText_parameters (hh : IsSolid head.toList) (hvar : head.toList.head? ≠ some '?')
    (parts : List (List Char)) : MissesText parameters (oneLine head parts) := by
  intro r _
  have hsolid := hh.append (spread [' '] parts ++ ')' :: r)
  have hvar : Misses (symbol .var) (head.toList ++ (spread [' '] parts ++ ')' :: r)) := by
    obtain ⟨c, cs, hc, -⟩ := hh
    exact misses_var (by simpa [hc] using hvar)
  have h : Stalls (items (symbol .var)) (head.toList ++ (spread [' '] parts ++ ')' :: r)) := by
    intro levels b
    obtain h | h := look_items_of_misses hvar levels b
    · exact .inl (.inl h)
    · refine .inr ⟨_, _, h, ?_⟩
      rw [View.skipBlanks_of_isSolid hsolid]
      obtain ⟨c, cs, hc, -, -, hne⟩ := hsolid
      simpa [hc] using hne
  exact misses_parens_enclose hh h

/-! ### Texts that are no terms -/

/-- Behind a parenthesis, a term begins with a name. -/
theorem misses_term_of_open (hb : blankLength false s = 0) (hs : s.head?.any isNameStart = false) :
    Misses term ('(' :: s) :=
  misses_call (.orElse (.map (misses_var (by simp)))
    (.orElse (.map (.map (misses_parens_of_stalls hb (misses_symbol rfl hs).headed.stalls)))
      (.map (misses_symbol rfl (by simp [isNameStart])))))

/-- A term begins with a name, a question mark or a parenthesis. -/
theorem misses_term_of_head (hvar : s.head? ≠ some '?') (hopen : s.head? ≠ some '(')
    (hs : s.head?.any isNameStart = false) : Misses term s :=
  misses_call (.orElse (.map (misses_var hvar)) (.orElse (.map (.map (misses_parens hopen)))
    (.map (misses_symbol rfl hs))))

/-- An operator with operands is no term. -/
theorem missesText_term_of_operator (hh : IsSolid head.toList)
    (hs : head.toList.head?.any isNameStart = false) (parts : List (List Char)) :
    MissesText term (oneLine head parts) := by
  intro r _
  have h := misses_term_of_open (s := head.toList ++ (spread [' '] parts ++ ')' :: r))
    (blankLength_of_isSolid (hh.append _)) (by
      obtain ⟨c, cs, hc, -⟩ := hh
      simpa [hc] using hs)
  simpa [oneLine, enclose] using h

/-- Parameters are no term. -/
theorem missesText_term_enclosedItems (l : TypedList Variable) :
    MissesText term (enclosedItems l) := by
  intro r _
  rw [enclosedItems, List.cons_append, List.append_assoc]
  rcases hp : itemParts .object l with _ | ⟨p, ps⟩
  · exact misses_term_of_open (blankLength_close r) (by simp [isNameStart])
  · obtain ⟨⟨v, t⟩, -, rfl⟩ : ∃ a ∈ l.items, p = spelling a.value :=
      exists_of_mem_head?_itemParts (by rw [hp]; exact rfl)
    rw [intercalate_cons, List.append_assoc]
    have hv : spelling v = '?' :: v.text.toList := by
      simp [spelling, Symbol.written, SymbolKind.sigil, String.toList_append]
    rw [hv]
    exact misses_term_of_open (by simp [blankLength, isBlank]) (by simp [isNameStart])

/-! ### Words of a vocabulary -/

section

variable {ω : Type} [Vocabulary ω] [PlainVocabulary ω]

/-- Every word of a vocabulary is read back. -/
theorem recovers_keyword (a : ω) : Recovers (keyword ω) (Vocabulary.keyword a).toList (· = a) where
  solid := (isHead_of_isWord (PlainVocabulary.isWord a)).solid
  reads {r} hr := by
    refine reads_terminal fun b => ?_
    have hmem : ∀ e ∈ Terminal.longestFirst (Vocabulary.entries ω),
        e = (Vocabulary.keyword e.2, e.2) := by
      intro e he
      obtain ⟨x, -, rfl⟩ := List.mem_map.1 (mem_longestFirst.1 he)
      rfl
    have ha : (Vocabulary.keyword a, a) ∈ Terminal.longestFirst (Vocabulary.entries ω) :=
      mem_longestFirst.2 (List.mem_map.2 ⟨a, Vocabulary.complete a, rfl⟩)
    have hfirst := firstMatch?_of_pairwise (pairwise_longestFirst (Vocabulary.entries ω))
      (fun e he => by rw [hmem e he]; exact PlainVocabulary.isWord e.2) ha
      (fun e he h => by
        rw [hmem e he] at h ⊢
        rw [PlainVocabulary.injective _ _ h]) hr
    simpa [Terminal.lexeme?] using hfirst

/-- No word of the vocabulary is in front of a name. -/
theorem misses_keyword (h : ∀ a : ω, Apart (Vocabulary.keyword a) s = true) :
    MissesText (keyword ω) s := by
  intro r hr
  refine misses_terminal fun b => ?_
  refine firstMatch?_eq_none fun e he => ?_
  obtain ⟨x, -, rfl⟩ := List.mem_map.1 (mem_longestFirst.1 he)
  exact keywordLength?_of_apart (h x) (PlainVocabulary.isWord x).1 hr

end

end Rule

end Pddl
