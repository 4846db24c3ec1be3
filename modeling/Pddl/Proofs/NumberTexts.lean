import Mathlib.Data.Nat.Cast.Field
import Pddl.Number.Order
import Pddl.Proofs.ListedItems
import Pddl.Proofs.PrintedExpressions

/-!
# What the text of a number denotes

The digits of a decimal denote a rational, whether the decimal is written with an exponent or
without one.  A number is displayed as its shortest decimal, with an exponent if it is very large or
very small; in planning texts, which have no exponents, the same decimal is spelled out, and a whole
number has all its digits.

* `Decimal.value`, `Number.value` : the rational that a decimal or a number is.
* `Numeral.decimal?` : the decimal that the digits of a numeral show, which may have an exponent.
* `Decimal.decimal?_positional`, `Decimal.decimal?_scientific` : both spellings show the decimal.
* `Number.plain_denotes` : **the text of a number is a numeral of planning texts, denotes what the
  number or its display does, and is parsed as an equal number.**
-/

namespace Pddl

/-! ### The values of decimals and numbers -/

/-- The rational that the decimal is. -/
def Decimal.value (d : Decimal) : ℚ := d.digits * 10 ^ d.exponent

/-- The rational that the number is. -/
def Number.value (x : Number) : ℚ := x.signedUnits / unitsPerOne

namespace Decimal

variable {d e : Decimal}

theorem value_eq (d : Decimal) : d.value = d.num / (d.den * unitsPerOne) := by
  have hone : (unitsPerOne : ℚ) ≠ 0 := Nat.cast_ne_zero.2 unitsPerOne_pos.ne'
  rw [num, Nat.cast_mul, mul_div_mul_right _ _ hone, value, den, tenTo, tenTo]
  push_cast
  obtain ⟨k, hk | hk⟩ := d.exponent.eq_nat_or_neg
  · simp [hk]
  · simp [hk, div_eq_mul_inv]

/-- Decimals are equal in value if their quotients of units are. -/
theorem value_eq_value_iff : d.value = e.value ↔ d.num * e.den = e.num * d.den := by
  have hone : (unitsPerOne : ℚ) ≠ 0 := Nat.cast_ne_zero.2 unitsPerOne_pos.ne'
  have hd : (d.den : ℚ) ≠ 0 := Nat.cast_ne_zero.2 d.den_pos.ne'
  have he : (e.den : ℚ) ≠ 0 := Nat.cast_ne_zero.2 e.den_pos.ne'
  rw [value_eq, value_eq, div_eq_div_iff (mul_ne_zero hd hone) (mul_ne_zero he hone),
    ← mul_assoc, ← mul_assoc, mul_left_inj' hone]
  exact_mod_cast Iff.rfl

theorem value_reread (d : Decimal) : d.reread.value = d.value :=
  (value_eq_value_iff.2 d.num_reread).symm

end Decimal

/-! ### The decimals that numerals show -/

namespace Numeral

/-- The decimal that the digits of an unsigned numeral show. -/
def decimal? (cs : List Char) : Option Decimal :=
  let whole := cs.takeWhile Char.isDigit
  let (places, rest) := fraction (cs.dropWhile Char.isDigit)
  if whole.isEmpty && places.isEmpty then none
  else (exponent? rest).map fun e => ⟨natOfDigits (whole ++ places), e - places.length⟩

/-- What shows a decimal begins with a digit or with a point. -/
theorem exists_cons_of_decimal? {cs : List Char} {d : Decimal} (h : decimal? cs = some d) :
    ∃ c rest, cs = c :: rest ∧ (c.isDigit = true ∨ c = '.') := by
  rcases cs with _ | ⟨c, rest⟩
  · cases h
  refine ⟨c, rest, rfl, ?_⟩
  by_contra! hc
  have hdigit : c.isDigit = false := Bool.not_eq_true _ ▸ hc.1
  have hfraction : fraction (c :: rest) = ([], c :: rest) := by
    unfold fraction
    split
    · rename_i heq
      exact absurd (List.cons.inj heq).1 hc.2
    · rfl
  simp [decimal?, hdigit, hfraction] at h

theorem toLower_of_isDigit {c : Char} (hc : c.isDigit = true) : c.toLower = c := by
  simp only [Char.isDigit, ge_iff_le, Bool.and_eq_true, decide_eq_true_eq] at hc
  exact dif_neg fun h => absurd (UInt32.le_trans h.1 hc.2) (by decide)

/-- A numeral is rounded from the decimal that it shows. -/
theorem magnitude?_of_decimal? {cs : List Char} {d : Decimal} (h : decimal? cs = some d)
    (negative : Bool) : magnitude? negative cs = some (.ofDecimal negative d) := by
  obtain ⟨c, rest, rfl, hc⟩ := exists_cons_of_decimal? h
  have hlower : c.toLower = c := hc.elim toLower_of_isDigit (by rintro rfl; decide)
  -- the words for values that are no numbers begin with letters
  have hword (w : String) {l : Char} {ls : List Char} (hw : w.toList = l :: ls)
      (hdigit : l.isDigit = false) (hpoint : l ≠ '.') :
      (String.ofList ((c :: rest).map Char.toLower) == w) = false := by
    refine beq_false_of_ne fun hcs => ?_
    rw [← hcs, String.toList_ofList, List.map_cons, hlower] at hw
    obtain ⟨rfl, -⟩ := List.cons.inj hw
    exact hc.elim (fun h => Bool.false_ne_true (hdigit.symm.trans h)) hpoint
  have hnan := hword "nan" (l := 'n') rfl rfl (by decide)
  have hinf := hword "inf" (l := 'i') rfl rfl (by decide)
  have hinfinity := hword "infinity" (l := 'i') rfl rfl (by decide)
  have hmap := congrArg (Option.map (Binary64.ofDecimal negative)) h
  rw [Option.map_some, decimal?] at hmap
  rw [← hmap, magnitude?]
  simp only [hnan, hinf, hinfinity, Bool.or_self, Bool.false_eq_true, ↓reduceIte]
  split
  · rfl
  · rw [Option.map_map]
    rfl

variable {whole places r : List Char}

/-- Digits, perhaps with a point and further digits, are read up to where something else begins. -/
theorem decimal?_append (h : IsDecimal whole places) (hdigit : r.head?.any Char.isDigit = false)
    (hpoint : r.head? ≠ some '.') :
    decimal? (decimalLexeme whole places ++ r) =
      (exponent? r).map fun e => ⟨natOfDigits (whole ++ places), e - places.length⟩ := by
  have hwhole : ∀ c ∈ whole, c.isDigit = true := fun c hc => h.isDigit c (by simp [hc])
  have hplaces : ∀ c ∈ places, c.isDigit = true := fun c hc => h.isDigit c (by simp [hc])
  have hempty : whole.isEmpty = false := by simpa using h.ne_nil
  rcases hp : places with _ | ⟨c, cs⟩
  · have hfraction : fraction r = ([], r) := by
      unfold fraction
      split
      · exact absurd rfl hpoint
      · rfl
    simp only [decimal?, decimalLexeme, List.isEmpty_nil, ↓reduceIte, List.append_nil,
      takeWhile_append_of_delimited hwhole hdigit, dropWhile_append_of_delimited hwhole hdigit,
      hfraction, hempty, Bool.false_and, Bool.false_eq_true]
  · have hdot : (('.' :: (c :: cs ++ r)).head?.any Char.isDigit) = false :=
      show Char.isDigit '.' = false by decide
    have hfraction : fraction ('.' :: (c :: cs ++ r)) = (c :: cs, r) := by
      rw [← hp]
      exact Prod.ext (takeWhile_append_of_delimited hplaces hdigit)
        (dropWhile_append_of_delimited hplaces hdigit)
    rw [show decimalLexeme whole (c :: cs) ++ r = whole ++ '.' :: (c :: cs ++ r) by
      simp [decimalLexeme]]
    simp only [decimal?, takeWhile_append_of_delimited hwhole hdot,
      dropWhile_append_of_delimited hwhole hdot, hfraction, hempty, Bool.false_and,
      Bool.false_eq_true, ↓reduceIte]

/-- Without an exponent, the digits are all there is. -/
theorem decimal?_decimalLexeme (h : IsDecimal whole places) :
    decimal? (decimalLexeme whole places) =
      some ⟨natOfDigits (whole ++ places), -places.length⟩ := by
  have hread := decimal?_append (r := []) h rfl (by simp)
  rw [List.append_nil] at hread
  rw [hread, exponent?, Option.map_some, Int.zero_sub]

/-- An exponent is read from its sign and its digits, with zeros in front of them. -/
theorem exponent?_written (e : Int) (k : Nat) :
    exponent? ('e' :: (if e < 0 then '-' else '+') ::
      (List.replicate k '0' ++ Nat.toDigits 10 e.natAbs)) = some e := by
  have hdigits : (List.replicate k '0' ++ Nat.toDigits 10 e.natAbs).all Char.isDigit = true := by
    have hwritten : (Nat.toDigits 10 e.natAbs).all Char.isDigit = true :=
      List.all_eq_true.2 fun c hc => isDigit_of_mem_toDigits hc
    rw [List.all_append, List.all_replicate, hwritten]
    simp
  have hempty : (List.replicate k '0' ++ Nat.toDigits 10 e.natAbs).isEmpty = false := by
    simp [Nat.toDigits_ne_nil]
  have hvalue := (natOfDigits_replicate_append k _).trans (natOfDigits_toDigits e.natAbs)
  split
  · have he : -(e.natAbs : Int) = e := by omega
    simp only [exponent?, sign, hdigits, hempty, hvalue, he]
    rfl
  · have he : (e.natAbs : Int) = e := by omega
    simp only [exponent?, sign, hdigits, hempty, hvalue, he]
    rfl

end Numeral

/-- The characters of a decimal number are a number of planning texts, all of them. -/
theorem Token.lexeme?_decimalLexeme {whole places : List Char} (h : IsDecimal whole places) :
    number.lexeme? (decimalLexeme whole places) = some (decimalLexeme whole places) := by
  have hparts := decimalParts?_append h Delimited.nil
  rw [List.append_nil] at hparts
  rw [lexeme?, hparts, Option.map_some]

/-! ### The spellings of decimals -/

namespace Decimal

variable (d : Decimal)

/-- Without an exponent, the digits show a decimal of the same value. -/
theorem decimal?_positional : Numeral.decimal? d.positional = some d.reread := by
  rw [positional_eq, Numeral.decimal?_decimalLexeme d.isDecimal_positionalParts]
  rfl

/-- With a decimal place that is zero, a whole decimal is shown as before. -/
theorem decimal?_positional_zero (hd : 0 ≤ d.exponent) :
    ∃ e, Numeral.decimal? (d.positional ++ ['.', '0']) = some e ∧ e.value = d.value := by
  have hplaces : d.positionalParts.2 = [] := by rw [positionalParts, if_pos hd]
  have hdec := d.isDecimal_positionalParts
  rw [hplaces] at hdec
  have hzero : IsDecimal d.positionalParts.1 ['0'] :=
    ⟨hdec.ne_nil, List.forall_mem_append.2
      ⟨(List.forall_mem_append.1 hdec.isDigit).1, List.forall_mem_singleton.2 rfl⟩⟩
  have htext : d.positional ++ ['.', '0'] = decimalLexeme d.positionalParts.1 ['0'] := by
    rw [positional_eq, hplaces]
    simp [decimalLexeme]
  have hdigits := natOfDigits_append_replicate d.positionalParts.1 1
  refine ⟨_, htext ▸ Numeral.decimal?_decimalLexeme hzero, ?_⟩
  rw [← d.value_reread, reread, hplaces, List.append_nil, value, value,
    show natOfDigits (d.positionalParts.1 ++ ['0']) = _ from hdigits]
  simp [tenTo]

/-- With an exponent, the digits show the decimal itself. -/
theorem decimal?_scientific : Numeral.decimal? d.scientific = some d := by
  obtain ⟨c, cs, hdigits⟩ := List.exists_cons_of_ne_nil
    (Nat.toDigits_ne_nil : Nat.toDigits 10 d.digits ≠ [])
  have hdec : IsDecimal [c] cs := ⟨List.cons_ne_nil c [], fun x hx => by
    rw [List.singleton_append, ← hdigits] at hx
    exact isDigit_of_mem_toDigits hx⟩
  have hvalue : natOfDigits ([c] ++ cs) = d.digits := by
    rw [List.singleton_append, ← hdigits, natOfDigits_toDigits]
  have htext : d.scientific = decimalLexeme [c] cs ++ 'e' ::
      (if d.exponent + cs.length < 0 then '-' else '+') ::
        (List.replicate (2 - (Nat.toDigits 10 (d.exponent + cs.length).natAbs).length) '0' ++
          Nat.toDigits 10 (d.exponent + cs.length).natAbs) := by
    have hexponent : d.exponent + (c :: cs).length - 1 = d.exponent + cs.length := by
      rw [List.length_cons]
      omega
    simp only [scientific, hdigits, hexponent, decimalLexeme]
    cases cs <;> simp
  have hdigit : Char.isDigit 'e' = false := by decide
  rw [htext, Numeral.decimal?_append (r := 'e' :: _) hdec hdigit (by simp),
    Numeral.exponent?_written, Option.map_some, hvalue]
  simp

end Decimal

/-! ### The texts of numbers -/

namespace Number

variable {x : Number}

/-- What is displayed for a magnitude shows a decimal of the value of its shortest decimal. -/
theorem decimal?_displayMagnitude {units : Nat} (hpos : 0 < units) :
    ∃ e, Numeral.decimal? (displayMagnitude units) = some e ∧
      e.value = (shortestDecimal units).value := by
  simp only [displayMagnitude, hpos.ne', ↓reduceIte]
  split
  · split
    · rename_i he
      exact Decimal.decimal?_positional_zero _ he
    · rw [List.append_nil]
      exact ⟨_, Decimal.decimal?_positional _, Decimal.value_reread _⟩
  · exact ⟨_, Decimal.decimal?_scientific _, rfl⟩

/-- A number that is not below zero is its magnitude. -/
theorem signedUnits_eq (hx : 0 ≤ x.signedUnits) : x.signedUnits = x.units := by
  rw [← signedUnits_unsigned hx]
  rfl

theorem negative_eq_false (hx : 0 ≤ x.signedUnits) (hpos : 0 < x.units) : x.negative = false := by
  by_contra hneg
  rw [signedUnits, if_pos (by simpa using hneg)] at hx
  omega

/-- A number that is not below zero has no sign in its text. -/
theorem toList_plain (hx : 0 ≤ x.signedUnits) : x.plain.toList = x.plainMagnitude := by
  rcases Nat.eq_zero_or_pos x.units with hzero | hpos
  · simp [plain, hzero]
  · simp [plain, negative_eq_false hx hpos]

theorem isInteger_iff : x.isInteger = true ↔ unitsPerOne ∣ x.units := by
  rw [isInteger, beq_iff_eq, Nat.dvd_iff_mod_eq_zero]

/-- A whole number is its quotient by the units of one. -/
theorem value_of_isInteger (hx : 0 ≤ x.signedUnits) (hi : x.isInteger = true) :
    Decimal.value ⟨x.units / unitsPerOne, 0⟩ = x.value := by
  have hone : (unitsPerOne : ℚ) ≠ 0 := Nat.cast_ne_zero.2 unitsPerOne_pos.ne'
  rw [Decimal.value, value, signedUnits_eq hx, Nat.cast_div (isInteger_iff.1 hi) hone]
  simp only [zpow_zero, mul_one, Int.cast_natCast]

/-- A number that is not whole is not zero. -/
theorem units_pos_of_isInteger_eq_false (hi : x.isInteger = false) : 0 < x.units := by
  refine Nat.pos_of_ne_zero fun h => Bool.false_ne_true (hi.symm.trans ?_)
  rw [isInteger_iff, h]
  exact dvd_zero _

/-- A decimal of the value of the shortest one rounds to the number. -/
theorem ofDecimal_of_value_eq (hx : x.negative = false) (hpos : 0 < x.units) {d : Decimal}
    (hd : d.value = (shortestDecimal x.units).value) : Binary64.ofDecimal false d = .finite x :=
  Binary64.ofDecimal_eq hx hpos ((shortestDecimal_holds hpos x.representable.1).of_eq
    (Decimal.den_pos _) (Decimal.den_pos _) (Decimal.value_eq_value_iff.1 hd.symm))

/-- The text of a whole number denotes the number. -/
theorem decimal?_plainMagnitude_of_isInteger (hx : 0 ≤ x.signedUnits) (hi : x.isInteger = true) :
    ∃ whole places, x.plainMagnitude = decimalLexeme whole places ∧ IsDecimal whole places ∧
      ∃ d, Numeral.decimal? x.plainMagnitude = some d ∧ d.value = x.value := by
  have hdec : IsDecimal (Nat.toDigits 10 (x.units / unitsPerOne)) [] :=
    ⟨Nat.toDigits_ne_nil, by simpa using fun c hc => isDigit_of_mem_toDigits hc⟩
  have htext : x.plainMagnitude = decimalLexeme (Nat.toDigits 10 (x.units / unitsPerOne)) [] := by
    simp [plainMagnitude, hi, decimalLexeme]
  refine ⟨_, _, htext, hdec, _, htext ▸ Numeral.decimal?_decimalLexeme hdec, ?_⟩
  rw [List.append_nil, natOfDigits_toDigits]
  exact value_of_isInteger hx hi

/-- The text of any other number denotes its shortest decimal. -/
theorem decimal?_plainMagnitude_of_not_isInteger (hi : x.isInteger = false) :
    ∃ whole places, x.plainMagnitude = decimalLexeme whole places ∧ IsDecimal whole places ∧
      ∃ d, Numeral.decimal? x.plainMagnitude = some d ∧
        d.value = (shortestDecimal x.units).value := by
  have htext : x.plainMagnitude = (shortestDecimal x.units).positional := by
    rw [plainMagnitude, hi, if_neg Bool.false_ne_true]
  rw [htext]
  exact ⟨_, _, Decimal.positional_eq _, Decimal.isDecimal_positionalParts _, _,
    Decimal.decimal?_positional _, Decimal.value_reread _⟩

/-- What is displayed of a number without a sign denotes its shortest decimal, and is read back as
the number. -/
theorem decimal?_display (hx : x.negative = false) (hpos : 0 < x.units) :
    ∃ e, Numeral.decimal? x.display.toList = some e ∧
      e.value = (shortestDecimal x.units).value ∧
      Numeral.magnitude? false x.display.toList = some (.finite x) := by
  obtain ⟨e, he, hvalue⟩ := decimal?_displayMagnitude hpos
  have hdisplay : x.display.toList = displayMagnitude x.units := by simp [display, hx]
  rw [hdisplay]
  refine ⟨e, he, hvalue, ?_⟩
  rw [Numeral.magnitude?_of_decimal? he, ofDecimal_of_value_eq hx hpos hvalue]

end Number

namespace Rule

open Grammar

theorem isFlat_number : IsFlat number where
  flagFree := by
    refine Grammar.flagFree_refine.2 ⟨fun d => ?_, trivial⟩
    split <;> nofun
  callFree := rfl
  next := rfl

/-- The text of a number that is not below zero is parsed as an equal number, all of it. -/
theorem exists_parse_number {x : Number} (hx : 0 ≤ x.signedUnits) (ceiling : Nat) :
    ∃ c y, Rule.parse number (Cursor.ofText x.plain.toList ceiling) = .ok (c, y) ∧ c.rest = [] ∧
      Comparand.equals y (.value (.finite x)) = true := by
  have hreads := (recovers_number (x := x.unsigned) rfl).reads Delimited.nil
  obtain ⟨c, hc, -, hrest⟩ := hreads.parse isFlat_number [] 0 ceiling
  have htext : spelling x.unsigned = x.plain.toList := by
    rw [Number.spelling_unsigned hx]
    show x.written.toList = _
    rw [Number.written, if_neg (by omega)]
  rw [List.nil_append, List.append_nil, htext] at hc
  refine ⟨c, x.unsigned, hc, hrest, ?_⟩
  rw [Comparand.equals, Number.signedUnits_unsigned hx, beq_self_eq_true]

end Rule

namespace Number

open Grammar

/-- The text of a number that is not below zero is a number of planning texts: digits, perhaps with
a point and further digits, and nothing else.  It denotes a whole number exactly, and of any other
number the same rational as the digits and the exponent that are displayed, which are read back as
the number.  All of the text is parsed, and the result is equal to the number. -/
theorem plain_denotes {x : Number} (hx : 0 ≤ x.signedUnits) :
    (∃ whole places, x.plain.toList = decimalLexeme whole places ∧ IsDecimal whole places) ∧
    Token.number.lexeme? x.plain.toList = some x.plain.toList ∧
    (∃ d, Numeral.decimal? x.plain.toList = some d ∧
      (x.isInteger = true → d.value = x.value) ∧
      (x.isInteger = false → ∃ e, Numeral.decimal? x.display.toList = some e ∧ d.value = e.value ∧
        Numeral.magnitude? false x.display.toList = some (.finite x))) ∧
    ∀ ceiling, ∃ c y, Rule.parse number (Cursor.ofText x.plain.toList ceiling) = .ok (c, y) ∧
      c.rest = [] ∧ Comparand.equals y (.value (.finite x)) = true := by
  have hparse := Rule.exists_parse_number hx
  rw [toList_plain hx] at hparse ⊢
  cases hi : x.isInteger with
  | true =>
    obtain ⟨whole, places, htext, hdec, d, hd, hvalue⟩ := decimal?_plainMagnitude_of_isInteger hx hi
    exact ⟨⟨whole, places, htext, hdec⟩, htext ▸ Token.lexeme?_decimalLexeme hdec,
      ⟨d, hd, fun _ => hvalue, nofun⟩, hparse⟩
  | false =>
    have hpos := units_pos_of_isInteger_eq_false hi
    obtain ⟨whole, places, htext, hdec, d, hd, hvalue⟩ :=
      decimal?_plainMagnitude_of_not_isInteger hi
    obtain ⟨e, he, heq, hread⟩ := decimal?_display (negative_eq_false hx hpos) hpos
    exact ⟨⟨whole, places, htext, hdec⟩, htext ▸ Token.lexeme?_decimalLexeme hdec,
      ⟨d, hd, nofun, fun _ => ⟨e, he, hvalue.trans heq.symm, hread⟩⟩, hparse⟩

/-- A small power of two is displayed with an exponent, which is spelled out in a planning text. -/
theorem plain_denotes_twoTo :
    let x : Number := ⟨false, twoTo 1054, by decide +kernel⟩
    x.display = "9.5367431640625e-07" ∧ x.plain = "0.00000095367431640625" ∧
    (∃ d e, Numeral.decimal? x.plain.toList = some d ∧
      Numeral.decimal? x.display.toList = some e ∧ d.value = e.value) ∧
    ∃ c y, Rule.parse number (Cursor.ofText x.plain.toList 40) = .ok (c, y) ∧ c.rest = [] ∧
      Comparand.equals y (.value (.finite x)) = true := by
  intro x
  have hx : 0 ≤ x.signedUnits := Int.natCast_nonneg _
  obtain ⟨-, -, ⟨d, hd, -, hdisplay⟩, hparse⟩ := plain_denotes hx
  obtain ⟨e, he, hvalue, -⟩ := hdisplay (by decide +kernel)
  exact ⟨by decide +kernel, by decide +kernel, ⟨d, e, hd, he, hvalue⟩, hparse 40⟩

end Number

end Pddl
