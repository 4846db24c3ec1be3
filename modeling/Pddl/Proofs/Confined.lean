import Pddl.Proofs.Enclosure
import Pddl.Proofs.Remembering

/-!
# Mismatches inside a form

Reading a construct that begins with a parenthesis does not look behind the matching one.  So what
is remembered on the way, and the mismatch that is reported if the construct is not there, lie in
front of what stands behind the construct.

* `Cursor.Stands` : the place where a reading stands, with what is remembered there.
* `Parser.Confined` : whatever the parser reads, remembers and reports lies in the construct.
* `Rule.confined_parse` : **every rule that stays in its form is confined to it.**
-/

namespace Pddl

/-! ### Places in front of what is not reached -/

/-- In front of the given characters stands what is left of a construct, and everything that is
remembered lies in front of them, too. -/
structure Cursor.Stands (outer : Nat) (φ : Phase) (s : List Char) (c : Cursor) : Prop where
  alike : View.Alike outer φ s s c.view c.view
  place : c.offset + c.rest.length = c.text.length
  remembers : ∀ m, c.furthest = some m → m.offset + s.length ≤ c.text.length

namespace Cursor.Stands

variable {outer n : Nat} {φ ψ : Phase} {s : List Char} {c : Cursor}

theorem offset_le (h : c.Stands outer φ s) : c.offset + s.length ≤ c.text.length := by
  obtain ⟨x, -, hx, -⟩ := h.alike
  have hplace := h.place
  rw [show c.rest = x ++ s from hx, List.length_append] at hplace
  omega

/-- A mismatch to report is remembered or lies at the place. -/
theorem mismatch_le (h : c.Stands outer φ s) (x : Expectation) :
    (c.mismatch x).offset + s.length ≤ c.text.length := by
  unfold Cursor.mismatch
  split
  · rename_i m hm
    split
    · exact h.remembers m hm
    · exact h.offset_le
  · exact h.offset_le

theorem advance (h : c.Stands outer φ s) (hn : n ≤ c.rest.length)
    (halike : View.Alike outer ψ s s (c.advance n).view (c.advance n).view) :
    (c.advance n).text = c.text ∧ (c.advance n).Stands outer ψ s := by
  have hl := leadsTo_advance hn
  have hplace := h.place
  refine ⟨hl.text, halike, ?_, fun m hm => hl.text ▸ h.remembers m ?_⟩
  · rw [offset_advance, hl.text]
    have hrest : (c.advance n).rest.length = c.rest.length - n := by
      rw [show (c.advance n).rest = c.rest.drop n by cases n <;> rfl, List.length_drop]
    omega
  · cases n <;> exact hm

theorem recovered (h : c.Stands outer φ s) {m : Mismatch} (hm : m.offset + s.length ≤ c.text.length) :
    (c.recovered m).text = c.text ∧ (c.recovered m).Stands outer φ s := by
  have change : { c with furthest := some m }.Stands outer φ s :=
    ⟨h.alike, h.place, fun m' hm' => Option.some.inj hm' ▸ hm⟩
  unfold Cursor.recovered
  split
  · exact ⟨rfl, h⟩
  · split
    · split
      · exact ⟨rfl, h⟩
      · exact ⟨rfl, change⟩
    · exact ⟨rfl, change⟩

theorem withDepth (h : c.Stands outer φ s) (n : Nat) : (c.withDepth n).Stands outer φ s :=
  ⟨h.alike, h.place, h.remembers⟩

theorem failure_le (h : c.Stands outer φ s) {x : Complaint} {m : Mismatch}
    (hx : x.failure c = .mismatch m) : m.offset + s.length ≤ c.text.length := by
  cases x with
  | unmet x =>
    obtain rfl := Failure.mismatch.inj hx
    exact h.mismatch_le x
  | unknownRequirement =>
    obtain rfl := Failure.mismatch.inj hx
    exact h.offset_le
  | infiniteNumber => cases hx

theorem skipBlanks {k : Nat} (h : c.Stands outer (.within k) s) :
    c.skipBlanks.text = c.text ∧ c.skipBlanks.Stands outer (.within k) s :=
  h.advance (blankLength_le _ _) (by
    have hblanks := Terminal.alike_blanks h.alike
    rwa [← Cursor.view_skipBlanks] at hblanks)

end Cursor.Stands

/-! ### Parsers -/

/-- From a place in a construct, the parser goes on in the construct, and what it reports lies in
front of what stands behind the construct. -/
structure Parser.Confined (outer : Nat) (φ ψ : Phase) {α : Type} (p : Parser α) : Prop where
  found : ∀ {s c d a}, c.Stands outer φ s → p c = .ok (d, a) → d.text = c.text ∧ d.Stands outer ψ s
  failed : ∀ {s c m}, c.Stands outer φ s → p c = .error (.mismatch m) →
    m.offset + s.length ≤ c.text.length

namespace Parser

variable {α β : Type} {outer k : Nat} {φ χ ψ : Phase} {p : Parser α} {q : Parser β}

theorem confined_terminal {t : Terminal α} (ht : t.next φ = some ψ)
    (hfit : Phase.Fits outer φ ψ) : Confined outer φ ψ t.parse where
  found {s c d a} h hd := by
    obtain ⟨n, hn, rfl⟩ := terminal_eq_ok.1 hd
    have halike := Terminal.alike ht hfit h.alike
    rw [hn] at halike
    exact h.advance (Terminal.lexeme?_le hn) (by rw [Cursor.view_advance]; exact halike.1)
  failed h he := by
    obtain ⟨x, hx⟩ := terminal_eq_error he
    obtain rfl := Failure.mismatch.inj hx
    exact h.mismatch_le x

theorem confined_seq (hp : Confined outer φ χ p) (hq : Confined outer χ ψ q) :
    Confined outer φ ψ (seq p q) where
  found h hd := by
    obtain ⟨u, hu, hd⟩ := seq_eq_ok.1 hd
    obtain ⟨htext, hu⟩ := hp.found h hu
    obtain ⟨htext', hd⟩ := hq.found hu hd
    exact ⟨htext'.trans htext, hd⟩
  failed h he := by
    obtain he | ⟨u, a, hu, he⟩ := seq_eq_error.1 he
    · exact hp.failed h he
    · obtain ⟨htext, hu⟩ := hp.found h hu
      exact htext ▸ hq.failed hu he

theorem confined_refine (f : α → Except Complaint β) (hp : Confined outer φ ψ p) :
    Confined outer φ ψ (refine f p) where
  found h hd := by
    obtain ⟨a, ha, -⟩ := refine_eq_ok.1 hd
    exact hp.found h ha
  failed h he := by
    obtain he | ⟨u, a, x, -, -, hx⟩ := refine_eq_error.1 he
    · exact hp.failed h he
    · exact h.failure_le hx.symm

theorem confined_orElse {q : Parser α} (hp : Confined outer φ ψ p) (hq : Confined outer φ ψ q) :
    Confined outer φ ψ (orElse p q) where
  found h hd := by
    obtain hd | ⟨m, -, -, hd⟩ := orElse_eq_ok.1 hd
    · exact hp.found h hd
    · exact hq.found h hd
  failed h he := (orElse_eq_error he).elim (hp.failed h) (hq.failed h)

theorem confined_emptyOr (ht : φ.token = some ψ) (hp : Confined outer φ ψ p) :
    Confined outer φ ψ (emptyOr p) where
  found {s c d x} h hd := by
    obtain ⟨n, hn, rfl, -⟩ | ⟨-, a, ha, -⟩ := emptyOr_eq_ok.1 hd
    · obtain ⟨x, hx, hr, -⟩ := h.alike
      obtain ⟨he, hspans⟩ := Reader.emptyParensLength?_append ht hx s
      have hlen : emptyParensLength? x = some n := by rw [← he, ← hn]; exact congrArg _ hr.symm
      obtain ⟨hle, hs, h0⟩ := hspans n hlen
      refine h.advance (emptyParensLength?_le hn) ?_
      rw [Cursor.view_advance]
      exact .advance hr hr hle hs fun h => absurd h h0
    · exact hp.found h ha
  failed h he := hp.failed h (emptyOr_eq_error he)

theorem confined_nested (hp : Confined outer φ ψ p) : Confined outer φ ψ (nested p) where
  found h hd := by
    obtain ⟨u, hu, rfl⟩ := nested_eq_ok hd
    obtain ⟨htext, hu⟩ := hp.found (h.withDepth _) hu
    exact ⟨htext, hu.withDepth _⟩
  failed {s c m} h he := by
    obtain he | he := nested_eq_error he
    · exact hp.failed (c := c.withDepth (c.depth + 1)) (h.withDepth _) he
    · cases he

section

variable (hp : Confined outer (.within k) (.within k) p)

include hp

theorem confined_opt : Confined outer (.within k) (.within k) (opt p) where
  found h hd := by
    obtain ⟨a, ha, -⟩ | ⟨m, hm, -, rfl, -⟩ := opt_eq_ok.1 hd
    · exact hp.found h ha
    · exact h.recovered (hp.failed h hm)
  failed h he := hp.failed h (opt_eq_error he)

theorem confined_separated : Confined outer (.within k) (.within k) (separated p) where
  found h hd := by
    obtain ⟨htext, hu⟩ := h.skipBlanks
    obtain ⟨htext', hd⟩ := hp.found hu (separated_eq_ok.1 hd).2
    exact ⟨htext'.trans htext, hd⟩
  failed h he := by
    obtain he | he := separated_eq_error he
    · obtain ⟨htext, hu⟩ := h.skipBlanks
      exact htext ▸ hp.failed hu he
    · obtain rfl := Failure.mismatch.inj he
      exact h.mismatch_le _

theorem confined_separatedUnless (first : Bool) :
    Confined outer (.within k) (.within k) (separatedUnless first p) := by
  cases first with
  | false => exact confined_separated hp
  | true => exact hp

theorem confined_moreWithin (fuel : List Char) :
    Confined outer (.within k) (.within k) (moreWithin p fuel) := by
  have hs := confined_separated hp
  induction fuel with
  | nil =>
    constructor
    · intro s c d as h hd
      obtain ⟨m, hm, rfl⟩ | rfl | ⟨u, a, x, fuel, as', hf, -⟩ := moreWithin_eq_ok hd
      · exact h.recovered (hs.failed h hm)
      · exact ⟨rfl, h⟩
      · cases hf
    · intro s c m h he
      obtain he | ⟨u, a, x, fuel, hf, -⟩ := moreWithin_eq_error he
      · exact hs.failed h he
      · cases hf
  | cons x fuel ih =>
    constructor
    · intro s c d as h hd
      obtain ⟨m, hm, rfl⟩ | rfl | ⟨u, a, x', fuel', as', hf, hu, hd⟩ := moreWithin_eq_ok hd
      · exact h.recovered (hs.failed h hm)
      · exact ⟨rfl, h⟩
      · obtain ⟨rfl, rfl⟩ := List.cons.inj hf
        obtain ⟨htext, hu⟩ := hs.found h hu
        obtain ⟨htext', hd⟩ := ih.found hu hd
        exact ⟨htext'.trans htext, hd⟩
    · intro s c m h he
      obtain he | ⟨u, a, x', fuel', hf, hu, he⟩ := moreWithin_eq_error he
      · exact hs.failed h he
      · obtain ⟨rfl, rfl⟩ := List.cons.inj hf
        obtain ⟨htext, hu⟩ := hs.found h hu
        exact htext ▸ ih.failed hu he

theorem confined_more : Confined outer (.within k) (.within k) (more p) where
  found h hd := (confined_moreWithin hp _).found h hd
  failed h he := (confined_moreWithin hp _).failed h he

end

variable {r : Parser (List α)} {t : Parser (List α)}

theorem confined_groupsWithin (hr : Confined outer (.within k) (.within k) r) (first : Bool)
    (fuel : List Char) : Confined outer (.within k) (.within k) (groupsWithin r first fuel) := by
  have hs := confined_separatedUnless hr
  induction fuel generalizing first with
  | nil =>
    constructor
    · intro s c d as h hd
      obtain ⟨m, hm, rfl⟩ | ⟨bs, hbs⟩ | ⟨u, bs, x, fuel, as', hf, -⟩ := groupsWithin_eq_ok hd
      · exact h.recovered ((hs first).failed h hm)
      · exact (hs first).found h hbs
      · cases hf
    · intro s c m h he
      obtain he | ⟨u, bs, x, fuel, hf, -⟩ := groupsWithin_eq_error he
      · exact (hs first).failed h he
      · cases hf
  | cons x fuel ih =>
    constructor
    · intro s c d as h hd
      obtain ⟨m, hm, rfl⟩ | ⟨bs, hbs⟩ | ⟨u, bs, x', fuel', as', hf, hu, hd⟩ := groupsWithin_eq_ok hd
      · exact h.recovered ((hs first).failed h hm)
      · exact (hs first).found h hbs
      · obtain ⟨rfl, rfl⟩ := List.cons.inj hf
        obtain ⟨htext, hu⟩ := (hs first).found h hu
        obtain ⟨htext', hd⟩ := (ih _).found hu hd
        exact ⟨htext'.trans htext, hd⟩
    · intro s c m h he
      obtain he | ⟨u, bs, x', fuel', hf, hu, he⟩ := groupsWithin_eq_error he
      · exact (hs first).failed h he
      · obtain ⟨rfl, rfl⟩ := List.cons.inj hf
        obtain ⟨htext, hu⟩ := (hs first).found h hu
        exact htext ▸ (ih _).failed hu he

theorem confined_untypedTail (ht : Confined outer (.within k) (.within k) t) (first : Bool) :
    Confined outer (.within k) (.within k) (untypedTail first t) where
  found h hd := by
    obtain ⟨m, hm, rfl⟩ | rfl | hd := untypedTail_eq_ok hd
    · exact h.recovered ((confined_separatedUnless ht first).failed h hm)
    · exact ⟨rfl, h⟩
    · exact (confined_separatedUnless ht first).found h hd
  failed h he := (confined_separatedUnless ht first).failed h (untypedTail_eq_error he)

theorem confined_typedList (default : TypeSpec) {r : Parser (List (Typed α))}
    (hr : Confined outer (.within k) (.within k) r)
    (ht : Confined outer (.within k) (.within k) t) :
    Confined outer (.within k) (.within k) (typedList default r t) where
  found h hd := by
    obtain ⟨u, typed, untyped, hu, hd⟩ := typedList_eq_ok hd
    obtain ⟨htext, hu⟩ := (confined_groupsWithin hr _ _).found h hu
    obtain ⟨htext', hd⟩ := (confined_untypedTail ht _).found hu hd
    exact ⟨htext'.trans htext, hd⟩
  failed h he := by
    obtain he | ⟨u, typed, hu, he⟩ := typedList_eq_error he
    · exact (confined_groupsWithin hr _ _).failed h he
    · obtain ⟨htext, hu⟩ := (confined_groupsWithin hr _ _).found h hu
      exact htext ▸ (confined_untypedTail ht _).failed hu he

end Parser

/-- A grammar that stays in its form is confined to it if its nonterminals are. -/
theorem Grammar.confined_run {N : Type → Type} {parse : {α : Type} → N α → Parser α}
    (hn : ∀ {α : Type} (n : N α) {outer : Nat} {φ ψ : Phase}, φ.token = some ψ →
      Phase.Fits outer φ ψ → (parse n).Confined outer φ ψ)
    {α : Type} (g : Grammar N α) {outer : Nat} {φ ψ : Phase} (hg : g.next φ = some ψ)
    (hfit : Phase.Fits outer φ ψ) : (g.run parse).Confined outer φ ψ := by
  induction g generalizing φ ψ with
  | terminal t => exact Parser.confined_terminal hg hfit
  | call n => exact Parser.confined_nested (hn n hg hfit)
  | seq g h ihg ihh =>
    obtain ⟨χ, hχ, hψ⟩ := Option.bind_eq_some_iff.1 hg
    have hb : χ ≠ .behind := by rintro rfl; simp [next_behind] at hψ
    have ha : χ ≠ .before := by rintro rfl; exact next_ne_before g φ hχ
    exact Parser.confined_seq (ihg hχ fun h => hfit (h.imp_right fun h => absurd h hb))
      (ihh hψ fun h => hfit (h.imp_left fun h => absurd h ha))
  | refine f g ih => exact Parser.confined_refine f (ih hg hfit)
  | orElse g h ihg ihh =>
    simp only [next] at hg
    split at hg
    · rename_i heq
      exact Parser.confined_orElse (ihg hg hfit) (ihh (heq ▸ hg) hfit)
    · cases hg
  | opt g ih =>
    simp only [next] at hg
    split at hg
    · rename_i heq
      obtain ⟨k, rfl, rfl⟩ := Phase.inner_eq_some.1 hg
      exact Parser.confined_opt (ih heq hfit)
    · cases hg
  | more g ih =>
    simp only [next] at hg
    split at hg
    · rename_i heq
      obtain ⟨k, rfl, rfl⟩ := Phase.inner_eq_some.1 hg
      exact Parser.confined_more (ih heq hfit)
    · cases hg
  | emptyOr g ih =>
    simp only [next] at hg
    split at hg
    · rename_i heq
      exact Parser.confined_emptyOr hg (ih (heq.trans hg) hfit)
    · cases hg
  | typedList default group values ihg ihv =>
    simp only [next] at hg
    split at hg
    · rename_i heq
      obtain ⟨k, rfl, rfl⟩ := Phase.inner_eq_some.1 hg
      exact Parser.confined_typedList default (ihg heq.1 hfit) (ihv heq.2.1 hfit)
    · cases hg

theorem Cursor.stands_within {outer k : Nat} {s : List Char} {c : Cursor} :
    c.Stands outer (.within k) s ↔ c.Stands (outer + k) (.within 0) s :=
  ⟨fun h => ⟨Nonterminal.alike_within.1 h.alike, h.place, h.remembers⟩,
    fun h => ⟨Nonterminal.alike_within.2 h.alike, h.place, h.remembers⟩⟩

/-- A production may stand in any number of forms. -/
theorem Nonterminal.confined_parse (levels : Nat) {α : Type} (n : Nonterminal α) {outer : Nat}
    {φ ψ : Phase} (ht : φ.token = some ψ) (hfit : Phase.Fits outer φ ψ) :
    (n.parse levels).Confined outer φ ψ := by
  induction levels generalizing α outer φ ψ with
  | zero =>
    constructor
    · intro s c d a _ hd
      cases hd
    · intro s c m _ he
      cases he
  | succ levels ih =>
    cases φ with
    | before =>
      obtain rfl := Option.some.inj ht
      exact Grammar.confined_run ih _ n.next_production_before hfit
    | within k =>
      obtain rfl := Option.some.inj ht
      have hconfined : (n.parse (levels + 1)).Confined (outer + k) (.within 0) (.within 0) :=
        Grammar.confined_run ih _ n.next_production_within (by simp [Phase.Fits])
      constructor
      · intro s c d a h hd
        obtain ⟨htext, hd⟩ := hconfined.found (Cursor.stands_within.1 h) hd
        exact ⟨htext, Cursor.stands_within.2 hd⟩
      · exact fun h he => hconfined.failed (Cursor.stands_within.1 h) he
    | behind => cases ht

/-- **Every rule that stays in its form is confined to it.** -/
theorem Rule.confined_parse {α : Type} {g : Rule α} {φ ψ : Phase} (hg : g.next φ = some ψ) :
    g.parse.Confined 0 φ ψ where
  found h hd := (Grammar.confined_run (fun n => n.confined_parse _) g hg fun _ => rfl).found h hd
  failed h he := (Grammar.confined_run (fun n => n.confined_parse _) g hg fun _ => rfl).failed h he

end Pddl
