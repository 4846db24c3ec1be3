import Pddl.Proofs.Rounding
import Pddl.Proofs.Terms

/-!
# Numbers are read back

A number without a sign is written with all its digits if it is whole and as its shortest decimal
otherwise.  Both are digits, perhaps with a point and further digits, and both denote a decimal that
rounds to the number.

* `Decimal.positionalParts` : the digits before and behind the point.
* `decimalParts?_append` : digits with a point are in front where nothing goes on behind them.
* `Rule.recovers_number` : **every number without a sign is read back from its text.**
-/

namespace Pddl

/-! ### Digits -/

theorem natOfDigits_eq (cs : List Char) : natOfDigits cs = Nat.ofDigitChars 10 cs 0 := rfl

theorem natOfDigits_toDigits (n : Nat) : natOfDigits (Nat.toDigits 10 n) = n :=
  Nat.ofDigitChars_ten_toDigits

/-- Zeros in front of digits do not count. -/
theorem natOfDigits_replicate_append (k : Nat) (cs : List Char) :
    natOfDigits (List.replicate k '0' ++ cs) = natOfDigits cs := by
  rw [natOfDigits_eq, Nat.ofDigitChars_append, Nat.ofDigitChars_replicate_zero, Nat.mul_zero]
  rfl

/-- Zeros behind digits are powers of ten. -/
theorem natOfDigits_append_replicate (cs : List Char) (k : Nat) :
    natOfDigits (cs ++ List.replicate k '0') = natOfDigits cs * tenTo k := by
  rw [natOfDigits_eq, Nat.ofDigitChars_append, Nat.ofDigitChars_replicate_zero, Nat.mul_comm]
  rfl

theorem isDigit_of_mem_toDigits {n : Nat} {c : Char} (h : c ∈ Nat.toDigits 10 n) :
    c.isDigit = true := Nat.isDigit_of_mem_toDigits (by omega) (by omega) h

/-- The digits of a decimal number, before the point and behind it. -/
structure IsDecimal (whole places : List Char) : Prop where
  ne_nil : whole ≠ []
  isDigit : ∀ c ∈ whole ++ places, c.isDigit = true

/-- A decimal number is in front where neither a digit nor a point goes on behind it. -/
theorem decimalParts?_append_of_head {whole places r : List Char} (h : IsDecimal whole places)
    (hdigit : r.head?.any Char.isDigit = false) (hpoint : r.head? ≠ some '.') :
    decimalParts? (decimalLexeme whole places ++ r) = some (whole, places) := by
  have hwhole : ∀ c ∈ whole, c.isDigit = true := fun c hc => h.isDigit c (by simp [hc])
  have hplaces : ∀ c ∈ places, c.isDigit = true := fun c hc => h.isDigit c (by simp [hc])
  have hempty : whole.isEmpty = false := by simpa using h.ne_nil
  rcases hp : places with _ | ⟨c, cs⟩
  · have htake := takeWhile_append_of_delimited hwhole hdigit
    have hdrop := dropWhile_append_of_delimited hwhole hdigit
    simp only [decimalLexeme, List.isEmpty_nil, ↓reduceIte, List.append_nil, decimalParts?, htake,
      hempty, hdrop, Bool.false_eq_true]
    split
    · rename_i rest
      exact absurd rfl hpoint
    · rfl
  · have hdot : (('.' :: (c :: cs ++ r)).head?.any Char.isDigit) = false :=
      show Char.isDigit '.' = false by decide
    have htake := takeWhile_append_of_delimited hwhole hdot
    have hdrop := dropWhile_append_of_delimited hwhole hdot
    have hrest : (c :: cs ++ r).takeWhile Char.isDigit = c :: cs :=
      takeWhile_append_of_delimited (fun x hx => hplaces x (hp ▸ hx)) hdigit
    rw [show decimalLexeme whole (c :: cs) ++ r = whole ++ '.' :: (c :: cs ++ r) by
      simp [decimalLexeme]]
    simp only [decimalParts?, htake, hempty, hdrop, hrest, Bool.false_eq_true, ↓reduceIte]

/-- A decimal number is in front where nothing goes on behind it. -/
theorem decimalParts?_append {whole places r : List Char} (h : IsDecimal whole places)
    (hr : Delimited r) :
    decimalParts? (decimalLexeme whole places ++ r) = some (whole, places) :=
  decimalParts?_append_of_head h hr.any_isDigit (hr.head?_ne (by decide) (by decide))

/-! ### Spellings -/

/-- The digits of a decimal before the point and behind it. -/
def Decimal.positionalParts (d : Decimal) : List Char × List Char :=
  let digits := Nat.toDigits 10 d.digits
  if 0 ≤ d.exponent then (digits ++ List.replicate d.exponent.toNat '0', [])
  else
    let places := (-d.exponent).toNat
    let padded := List.replicate (places + 1 - digits.length) '0' ++ digits
    (padded.take (padded.length - places), padded.drop (padded.length - places))

namespace Decimal

variable (d : Decimal)

theorem positional_eq : d.positional = decimalLexeme d.positionalParts.1 d.positionalParts.2 := by
  simp only [positional, positionalParts]
  split
  · simp [decimalLexeme]
  · rw [decimalLexeme, if_neg]
    simp only [List.isEmpty_iff, List.drop_eq_nil_iff, List.length_append, List.length_replicate]
    omega

theorem isDecimal_positionalParts : IsDecimal d.positionalParts.1 d.positionalParts.2 := by
  have hdigits : ∀ c ∈ Nat.toDigits 10 d.digits, c.isDigit = true :=
    fun c hc => isDigit_of_mem_toDigits hc
  have hzeros : ∀ k, ∀ c ∈ List.replicate k '0', c.isDigit = true := by
    intro k c hc
    rw [List.eq_of_mem_replicate hc]
    decide
  simp only [positionalParts]
  split
  · refine ⟨by simp [Nat.toDigits_ne_nil], fun c hc => ?_⟩
    rw [List.append_nil] at hc
    exact (List.mem_append.1 hc).elim (hdigits c) (hzeros _ c)
  · constructor
    · simp only [ne_eq, List.take_eq_nil_iff, List.append_eq_nil_iff, Nat.toDigits_ne_nil, and_false,
        or_false, List.length_append, List.length_replicate]
      omega
    · rw [List.take_append_drop]
      exact fun c hc => (List.mem_append.1 hc).elim (hzeros _ c) (hdigits c)

/-- The decimal that the digits before and behind the point denote. -/
def reread : Decimal :=
  ⟨natOfDigits (d.positionalParts.1 ++ d.positionalParts.2), -d.positionalParts.2.length⟩

/-- The digits denote the decimal that they were made of. -/
theorem num_reread : d.num * d.reread.den = d.reread.num * d.den := by
  obtain ⟨n, e⟩ := d
  simp only [reread, positionalParts]
  split
  · rename_i he
    rw [List.append_nil, natOfDigits_append_replicate, natOfDigits_toDigits]
    simp only [num, den]
    generalize unitsPerOne = one
    rw [show (-e).toNat = 0 by omega]
    simp [tenTo]
  · rename_i he
    have hlength : (List.drop ((List.replicate ((-e).toNat + 1 - (Nat.toDigits 10 n).length) '0' ++
        Nat.toDigits 10 n).length - (-e).toNat)
          (List.replicate ((-e).toNat + 1 - (Nat.toDigits 10 n).length) '0' ++
            Nat.toDigits 10 n)).length = (-e).toNat := by
      simp only [List.length_drop, List.length_append, List.length_replicate]
      omega
    rw [List.take_append_drop, natOfDigits_replicate_append, natOfDigits_toDigits, hlength,
      show -((-e).toNat : Int) = e by omega]

end Decimal

/-! ### Reading numbers -/

open RoundingInterval

/-- A whole number is the value of its digits. -/
theorem ofDecimal_of_isInteger {x : Number} (hx : x.negative = false) (hi : x.isInteger = true) :
    Binary64.ofDecimal false ⟨x.units / unitsPerOne, 0⟩ = .finite x := by
  have hunits : x.units / unitsPerOne * unitsPerOne = x.units :=
    Nat.div_mul_cancel (Nat.dvd_of_mod_eq_zero (by simpa [Number.isInteger] using hi))
  rcases Nat.eq_zero_or_pos x.units with h | hpos
  · obtain ⟨negative, units, hrep⟩ := x
    obtain rfl : negative = false := hx
    obtain rfl : units = 0 := h
    have hround : roundUnits 0 1 = 0 := by
      have hpos : 0 < 1 * spacing (0 / 1) := Nat.mul_pos Nat.one_pos (spacing_pos _)
      simp [roundUnits, roundHalfEven]
    simp [Binary64.ofDecimal, Binary64.ofRatio, hround, unitsLimit_pos]
  · refine Binary64.ofDecimal_eq hx hpos ?_
    have hnum : Decimal.num ⟨x.units / unitsPerOne, 0⟩ = x.units * 1 := by
      rw [Decimal.num, show tenTo (0 : Int).toNat = 1 from rfl, Nat.mul_one, Nat.mul_one, hunits]
    rw [hnum, show Decimal.den ⟨x.units / unitsPerOne, 0⟩ = 1 from rfl]
    exact holds_self hpos Nat.one_pos

/-- The shortest decimal of a number has the number as its value. -/
theorem ofDecimal_shortestDecimal {x : Number} (hx : x.negative = false) (hpos : 0 < x.units) :
    Binary64.ofDecimal false (shortestDecimal x.units).reread = .finite x :=
  Binary64.ofDecimal_eq hx hpos ((shortestDecimal_holds hpos x.representable.1).of_eq
    (Decimal.den_pos _) (Decimal.den_pos _) (Decimal.num_reread _))

/-- A number without a sign is written as a decimal that rounds to it. -/
theorem Number.exists_written {x : Number} (hx : x.negative = false) :
    ∃ whole places, x.written.toList = decimalLexeme whole places ∧ IsDecimal whole places ∧
      Binary64.ofDecimal false ⟨natOfDigits (whole ++ places), -places.length⟩ = .finite x := by
  have hsign : ¬x.signedUnits < 0 := by simp [signedUnits, hx]
  have hwritten : x.written.toList = x.plainMagnitude := by
    simp [written, hsign, plain, hx]
  rw [hwritten, plainMagnitude]
  split
  · rename_i hi
    refine ⟨Nat.toDigits 10 (x.units / unitsPerOne), [], by simp [decimalLexeme],
      ⟨Nat.toDigits_ne_nil, by simpa using fun c hc => isDigit_of_mem_toDigits hc⟩, ?_⟩
    rw [List.append_nil, natOfDigits_toDigits]
    exact ofDecimal_of_isInteger hx hi
  · rename_i hi
    have hpos : 0 < x.units := by
      refine Nat.pos_of_ne_zero fun h => hi ?_
      simp [isInteger, h]
    exact ⟨_, _, Decimal.positional_eq _, Decimal.isDecimal_positionalParts _,
      ofDecimal_shortestDecimal hx hpos⟩

theorem isSolid_of_isDigit {s : List Char} (hne : s ≠ []) (h : ∀ c ∈ s, c.isDigit = true)
    (r : List Char) : IsSolid (s ++ r) := by
  obtain ⟨c, cs, rfl⟩ := List.exists_cons_of_ne_nil hne
  have hc := h c (by simp)
  have hname : isNameChar c = true := by simp [isNameChar, Char.isAlphanum, hc]
  refine ⟨c, cs ++ r, rfl, isBlank_eq_false_of_isNameChar hname, ?_, ?_⟩ <;> rintro rfl <;>
    exact absurd hc (by decide)

namespace Rule

open Grammar

/-- **Every number without a sign is read back from its text.** -/
theorem recovers_number {x : Number} (hx : x.negative = false) :
    Recovers number (spelling x) (· = x) := by
  obtain ⟨whole, places, hwritten, hdec, hvalue⟩ := x.exists_written hx
  have hspelling : spelling x = decimalLexeme whole places := hwritten
  rw [hspelling]
  refine Recovers.refine (P := (· = ⟨natOfDigits (whole ++ places), -places.length⟩)) ⟨?_, ?_⟩ ?_
  · exact isSolid_of_isDigit hdec.ne_nil (fun c hc => hdec.isDigit c (by simp [hc])) _
  · intro r hr
    refine reads_terminal fun b => ?_
    simp [Terminal.lexeme?, Terminal.decimalLexeme?, decimalParts?_append hdec hr]
  · rintro _ rfl
    exact ⟨x, by rw [hvalue], rfl⟩

/-- The text of a number begins with a digit. -/
theorem head?_number {x : Number} (hx : x.negative = false) (r : List Char) :
    ∃ c, (spelling x ++ r).head? = some c ∧ c.isDigit = true := by
  obtain ⟨whole, places, hwritten, hdec, -⟩ := x.exists_written hx
  obtain ⟨c, cs, rfl⟩ := List.exists_cons_of_ne_nil hdec.ne_nil
  refine ⟨c, ?_, hdec.isDigit c (by simp)⟩
  rw [show spelling x = decimalLexeme (c :: cs) places from hwritten]
  rfl

/-- Every whole number is read back from its digits. -/
theorem recovers_integer (n : Nat) :
    Recovers (terminal .integer) (Nat.toDigits 10 n) (· = n) where
  solid := by
    simpa using isSolid_of_isDigit Nat.toDigits_ne_nil (fun c hc => isDigit_of_mem_toDigits hc) []
  reads {r} hr := by
    refine reads_terminal fun b => ?_
    have htake := takeWhile_append_of_delimited (fun c hc => isDigit_of_mem_toDigits (n := n) hc)
      hr.any_isDigit
    simp only [Terminal.lexeme?, Terminal.integerLexeme?, htake]
    split
    · rename_i h
      exact absurd h Nat.toDigits_ne_nil
    · rw [natOfDigits_toDigits]

end Rule

end Pddl
