import Mathlib.Data.Rat.Floor
import Mathlib.Tactic.FieldSimp
import Mathlib.Tactic.Linarith
import Pddl.Number.Shortest

/-!
# Decimals round back

A decimal rounds to a magnitude if it lies in the rounding interval of that magnitude, and seventeen
significant digits are enough to find one that does.  So the shortest decimal of a number rounds
to that number.

* `Decimal.magnitude` : a decimal in units, as a quotient.
* `roundUnits_of_mem` : **a quotient in the rounding interval of a magnitude rounds to it.**
* `contains_shortestDecimal` : the shortest decimal of a positive magnitude lies in its interval.
* `Binary64.ofDecimal_of_mem` : a decimal in the interval of a number has that number as its value.
-/

namespace Pddl

/-! ### Rounding to whole numbers -/

/-- A whole number is the nearest one to a quotient that is at most half away from it, and less far
if it is odd. -/
theorem roundHalfEven_eq {num den m : Nat} (hden : 0 < den) (hlo : 2 * m * den ≤ 2 * num + den)
    (hhi : 2 * num ≤ 2 * m * den + den)
    (hodd : m % 2 = 1 → 2 * m * den < 2 * num + den ∧ 2 * num < 2 * m * den + den) :
    roundHalfEven num den = m := by
  have hdiv := Nat.div_add_mod num den
  have hmod := Nat.mod_lt num hden
  rw [roundHalfEven]
  generalize num / den = f at *
  generalize num % den = r at *
  -- the number is the floor or the one above it
  have hle : f ≤ m := by
    by_contra hlt
    have : (m + 1) * den ≤ f * den := Nat.mul_le_mul_right den (by omega)
    nlinarith
  have hge : m ≤ f + 1 := by
    by_contra hlt
    have : (f + 2) * den ≤ m * den := Nat.mul_le_mul_right den (by omega)
    nlinarith
  obtain rfl | rfl : m = f ∨ m = f + 1 := by omega
  · have h : 2 * r ≤ den := by nlinarith
    have hodd : m % 2 = 1 → 2 * r < den := fun ho => by nlinarith [hodd ho]
    split
    · rfl
    · split <;> omega
  · have h : den ≤ 2 * r := by nlinarith
    have hodd : (f + 1) % 2 = 1 → den < 2 * r := fun ho => by nlinarith [hodd ho]
    split
    · omega
    · split <;> omega

/-- A quotient is at most half away from the nearest whole number. -/
theorem roundHalfEven_near (num : Nat) {den : Nat} (hden : 0 < den) :
    2 * roundHalfEven num den * den ≤ 2 * num + den ∧
      2 * num ≤ 2 * roundHalfEven num den * den + den := by
  have hdiv := Nat.div_add_mod num den
  have hmod := Nat.mod_lt num hden
  rw [roundHalfEven]
  generalize num / den = f at *
  generalize num % den = r at *
  split
  · constructor <;> nlinarith
  · split
    · constructor <;> nlinarith
    · obtain h | h : f % 2 = 0 ∨ f % 2 = 1 := by omega
      · rw [h]
        constructor <;> nlinarith
      · rw [h]
        constructor <;> nlinarith

theorem roundHalfEven_eq_floor_or (num den : Nat) :
    roundHalfEven num den = num / den ∨ roundHalfEven num den = num / den + 1 := by
  rw [roundHalfEven]
  split
  · exact .inl rfl
  · split
    · exact .inr rfl
    · omega

/-- A quotient of units is rounded to a multiple of the spacing. -/
theorem roundHalfEven_eq_of_units {num den s m : Nat} (hden : 0 < den) (hs : 0 < s)
    (hlo : 4 * (m * s) * den ≤ 4 * num + 2 * s * den)
    (hhi : 4 * num ≤ 4 * (m * s) * den + 2 * s * den)
    (hodd : m % 2 = 1 → 4 * (m * s) * den < 4 * num + 2 * s * den ∧
      4 * num < 4 * (m * s) * den + 2 * s * den) : roundHalfEven num (den * s) = m := by
  have hm : 4 * (m * s) * den = 2 * (2 * m * (den * s)) := by ring
  have hs' : 2 * s * den = 2 * (den * s) := by ring
  rw [hm, hs'] at hlo hhi hodd
  exact roundHalfEven_eq (Nat.mul_pos hden hs) (by omega) (by omega)
    fun ho => by have := hodd ho; omega

/-! ### Rounding intervals -/

namespace RoundingInterval

/-- The quotient of units lies in the interval. -/
def Holds (i : RoundingInterval) (num den : Nat) : Prop :=
  if i.closed then i.lower * den ≤ 4 * num ∧ 4 * num ≤ i.upper * den
  else i.lower * den < 4 * num ∧ 4 * num < i.upper * den

variable {i : RoundingInterval} {num den : Nat}

theorem Holds.lower_le (h : i.Holds num den) : i.lower * den ≤ 4 * num := by
  unfold Holds at h
  split at h <;> omega

theorem Holds.le_upper (h : i.Holds num den) : 4 * num ≤ i.upper * den := by
  unfold Holds at h
  split at h <;> omega

theorem Holds.lt (h : i.Holds num den) (hc : i.closed = false) :
    i.lower * den < 4 * num ∧ 4 * num < i.upper * den := by
  rwa [Holds, hc, if_neg Bool.false_ne_true] at h

theorem holds_of_lt (h : i.lower * den < 4 * num ∧ 4 * num < i.upper * den) : i.Holds num den := by
  unfold Holds
  split <;> omega

/-- Equal quotients lie in the same intervals. -/
theorem Holds.of_eq {num' den' : Nat} (h : i.Holds num den) (hden : 0 < den) (hden' : 0 < den')
    (heq : num * den' = num' * den) : i.Holds num' den' := by
  have hleft : ∀ a : Nat, a * den ≤ 4 * num ↔ a * den' ≤ 4 * num' := fun a =>
    calc a * den ≤ 4 * num
      _ ↔ a * den * den' ≤ 4 * num * den' := (Nat.mul_le_mul_right_iff hden').symm
      _ ↔ a * den' * den ≤ 4 * num' * den := by
        rw [Nat.mul_assoc 4 num, heq, Nat.mul_right_comm, Nat.mul_assoc 4 num']
      _ ↔ a * den' ≤ 4 * num' := Nat.mul_le_mul_right_iff hden
  have hright : ∀ a : Nat, 4 * num ≤ a * den ↔ 4 * num' ≤ a * den' := fun a =>
    calc 4 * num ≤ a * den
      _ ↔ 4 * num * den' ≤ a * den * den' := (Nat.mul_le_mul_right_iff hden').symm
      _ ↔ 4 * num' * den ≤ a * den' * den := by
        rw [Nat.mul_assoc 4 num, heq, Nat.mul_right_comm a, Nat.mul_assoc 4 num']
      _ ↔ 4 * num' ≤ a * den' := Nat.mul_le_mul_right_iff hden
  simpa only [Holds, ← not_le, hleft, hright] using h

end RoundingInterval

/-! ### Magnitudes -/

theorem unitsPerOne_pos : 0 < unitsPerOne := twoTo_pos 1074

theorem twoTo_succ (k : Nat) : twoTo (k + 1) = 2 * twoTo k := Nat.pow_succ'

/-- Magnitudes that are alike in size have the same spacing. -/
theorem spacing_eq_of_le {n k : Nat} (hlo : twoTo k ≤ n) (hhi : n < twoTo (k + 1)) :
    spacing n = twoTo (k - 52) := by
  have hn : n ≠ 0 := by have := twoTo_pos k; omega
  rw [spacing, (Nat.log2_eq_iff hn).2 ⟨hlo, hhi⟩]

/-- Small magnitudes are one unit apart. -/
theorem spacing_eq_one {n : Nat} (h : n < twoTo 53) : spacing n = 1 := by
  have hlog : n.log2 < 53 := by
    rcases Nat.eq_zero_or_pos n with rfl | hn
    · decide
    · exact (log2_lt_iff (by omega)).2 h
  rw [spacing, show n.log2 - 52 = 0 by omega]
  rfl

/-- The magnitude is within its binade. -/
theorem twoTo_log2_le {units : Nat} (h : 0 < units) : twoTo units.log2 ≤ units :=
  Nat.log2_self_le (by omega)

namespace RoundingInterval

variable {num den units : Nat}

/-- Different multiples are a whole step apart. -/
theorem add_le_of_dvd {s a b : Nat} (ha : s ∣ a) (hb : s ∣ b) (h : a < b) : a + s ≤ b := by
  have := Nat.le_of_dvd (by omega) (Nat.dvd_sub hb ha)
  omega

/-- A quotient in the interval of a magnitude lies below the end of its binade. -/
theorem Holds.lt_binade (h : (around units).Holds num den) (hden : 0 < den)
    (hrep : spacing units ∣ units) (hlarge : 52 ≤ units.log2) :
    num / den < twoTo (units.log2 + 1) := by
  have hle := add_le_of_dvd hrep (twoTo_dvd (by omega)) (lt_twoTo_log2 units)
  have hs := spacing_pos units
  have hhi := h.le_upper
  simp only [around] at hhi
  rw [Nat.div_lt_iff_lt_mul hden]
  nlinarith

theorem le_lower_add (hpos : 0 < units) (hrep : spacing units ∣ units) :
    4 * units ≤ (around units).lower + 2 * spacing units := by
  have hs := Nat.le_of_dvd hpos hrep
  simp only [around]
  split <;> omega

theorem Holds.above (h : (around units).Holds num den) (hpos : 0 < units)
    (hrep : spacing units ∣ units) : 4 * units * den ≤ 4 * num + 2 * spacing units * den := by
  have hle := Nat.mul_le_mul_right den (le_lower_add hpos hrep)
  have hlo := h.lower_le
  rw [Nat.add_mul] at hle
  omega

/-- With the spacing of the magnitude, a quotient in its interval rounds to it. -/
theorem Holds.roundUnits_of_spacing (h : (around units).Holds num den) (hden : 0 < den)
    (hpos : 0 < units) (hrep : spacing units ∣ units)
    (hstep : spacing (num / den) = spacing units) : roundUnits num den = units := by
  have hm : units / spacing units * spacing units = units := Nat.div_mul_cancel hrep
  have hhi := h.le_upper
  simp only [around, Nat.add_mul] at hhi
  rw [roundUnits, hstep,
    roundHalfEven_eq_of_units (m := units / spacing units) hden (spacing_pos units), hm]
  · rw [hm]
    exact h.above hpos hrep
  · rw [hm]
    exact hhi
  · intro hodd
    obtain ⟨hlo, hhi⟩ := h.lt (show (around units).closed = false by simp [around, hodd])
    have hle := Nat.mul_le_mul_right den (le_lower_add hpos hrep)
    simp only [around, Nat.add_mul] at hle hlo hhi
    rw [hm]
    omega

/-- Just below a power of two, a quotient in its interval rounds to it with half of its spacing. -/
theorem Holds.roundUnits_of_lt (h : (around units).Holds num den) (hden : 0 < den)
    (hpow : units = twoTo units.log2) (hlarge : 53 ≤ units.log2) (hlt : num < units * den) :
    roundUnits num den = units := by
  obtain ⟨k, hk⟩ : ∃ k, units.log2 = k + 53 := ⟨units.log2 - 53, by omega⟩
  have hunits : units = twoTo 53 * twoTo k := by rw [← twoTo_add, Nat.add_comm, ← hk]; exact hpow
  have hspacing : spacing units = 2 * twoTo k := by
    rw [spacing, hk, show k + 53 - 52 = k + 1 by omega, twoTo_succ]
  have hlower : 4 * units ≤ (around units).lower + 2 * twoTo k := by
    simp only [around]
    rw [if_pos ⟨hpow, hlarge⟩]
    omega
  have hlo : 4 * units * den ≤ 4 * num + 2 * twoTo k * den := by
    have hle := Nat.mul_le_mul_right den hlower
    have hlo := h.lower_le
    rw [Nat.add_mul] at hle
    omega
  have hstep : spacing (num / den) = twoTo k := by
    have hhalf : units = 2 * twoTo (k + 52) := by
      rw [hunits, ← twoTo_add, show 53 + k = k + 52 + 1 by omega, twoTo_succ]
    refine spacing_eq_of_le (k := k + 52) ((Nat.le_div_iff_mul_le hden).2 ?_)
      ((Nat.div_lt_iff_lt_mul hden).2 ?_)
    · have hle : twoTo k ≤ twoTo (k + 52) := twoTo_le (by omega)
      rw [hhalf] at hlo
      nlinarith
    · rw [twoTo_succ, ← hhalf]
      exact hlt
  rw [roundUnits, hstep, roundHalfEven_eq_of_units (m := twoTo 53) hden (twoTo_pos k), ← hunits]
  · rw [← hunits]
    exact hlo
  · rw [← hunits]
    have := Nat.mul_assoc 4 units den
    omega
  · intro hodd
    rw [twoTo_succ, Nat.mul_mod_right] at hodd
    omega

/-- **A quotient in the interval of a magnitude rounds to it.** -/
theorem Holds.roundUnits_eq (h : (around units).Holds num den) (hden : 0 < den) (hpos : 0 < units)
    (hrep : spacing units ∣ units) : roundUnits num den = units := by
  have habove := h.above hpos hrep
  have hhi := h.le_upper
  simp only [around] at hhi
  by_cases hsmall : units.log2 < 53
  · -- the quotient is not far above the magnitude, and so in its binade or a lower one
    have hunits : units < twoTo 53 := (log2_lt_iff (by omega)).1 hsmall
    have hone := spacing_eq_one hunits
    rw [hone] at hhi
    have hle : num / den < units + 1 := by
      rw [Nat.div_lt_iff_lt_mul hden]
      nlinarith
    exact h.roundUnits_of_spacing hden hpos hrep (by rw [hone, spacing_eq_one (by omega)])
  have hlt := h.lt_binade hden hrep (by omega)
  by_cases hge : twoTo units.log2 ≤ num / den
  · exact h.roundUnits_of_spacing hden hpos hrep (spacing_eq_of_le hge hlt)
  -- only the interval of a power of two reaches below the binade
  have hpow : units = twoTo units.log2 := by
    by_contra hne
    have hle := add_le_of_dvd (twoTo_dvd (Nat.sub_le _ _)) hrep
      (lt_of_le_of_ne (twoTo_log2_le hpos) (Ne.symm hne))
    refine hge ((Nat.le_div_iff_mul_le hden).2 ?_)
    change twoTo units.log2 + spacing units ≤ units at hle
    nlinarith
  refine h.roundUnits_of_lt hden hpow (by omega) ?_
  rw [hpow, ← Nat.div_lt_iff_lt_mul hden]
  omega

/-- A magnitude lies in its own interval. -/
theorem holds_self (hpos : 0 < units) (hden : 0 < den) : (around units).Holds (units * den) den := by
  have hs := spacing_pos units
  have hlo : (around units).lower < 4 * units := by
    simp only [around]
    split <;> omega
  have hhi : 4 * units < (around units).upper := by
    simp only [around]
    omega
  refine holds_of_lt ?_
  rw [← Nat.mul_assoc]
  exact ⟨Nat.mul_lt_mul_of_pos_right hlo hden, Nat.mul_lt_mul_of_pos_right hhi hden⟩

/-- The ends of the interval are not far from the magnitude. -/
theorem Holds.bounds (h : (around units).Holds num den) (hpos : 0 < units)
    (hrep : spacing units ∣ units) : units * den ≤ 2 * num ∧ 2 * num ≤ 3 * (units * den) := by
  have hs := Nat.mul_le_mul_right den (Nat.le_of_dvd hpos hrep)
  have hlo := h.above hpos hrep
  have hhi := h.le_upper
  simp only [around, Nat.add_mul, Nat.mul_assoc] at hlo hhi
  omega

end RoundingInterval

/-! ### Values of decimals -/

namespace Decimal

/-- The units of a decimal, times its denominator. -/
def num (d : Decimal) : Nat := d.digits * tenTo d.exponent.toNat * unitsPerOne

/-- The power of ten that divides a decimal. -/
def den (d : Decimal) : Nat := tenTo (-d.exponent).toNat

theorem den_pos (d : Decimal) : 0 < d.den := Nat.pow_pos (by omega)

theorem tenTo_add (j k : Nat) : tenTo (j + k) = tenTo j * tenTo k := Nat.pow_add 10 j k

theorem tenTo_pos (k : Nat) : 0 < tenTo k := Nat.pow_pos (by omega)

theorem tenTo_le {j k : Nat} (h : j ≤ k) : tenTo j ≤ tenTo k := Nat.pow_le_pow_right (by omega) h

theorem contains_iff {i : RoundingInterval} {d : Decimal} :
    i.contains d = true ↔ i.Holds d.num d.den := by
  unfold RoundingInterval.contains RoundingInterval.Holds
  split <;> simp [num, den]

theorem lt_tenTo_digitCount (n : Nat) : n < tenTo (digitCount n) :=
  (Nat.length_toDigits_le_iff (by omega) Nat.length_toDigits_pos).1 le_rfl

theorem tenTo_le_of_lt_digitCount {n k : Nat} (hn : n ≠ 0) (h : k < digitCount n) :
    tenTo k ≤ n := by
  rcases Nat.eq_zero_or_pos k with rfl | hk
  · exact Nat.one_le_iff_ne_zero.2 hn
  · by_contra hlt
    exact absurd ((Nat.length_toDigits_le_iff (b := 10) (by omega) hk).2 (not_le.1 hlt)) (by
      unfold digitCount at h
      omega)

end Decimal

open RoundingInterval Decimal

/-- A decimal in the interval of a magnitude is not too small. -/
theorem le_size_of_holds {units : Nat} {d : Decimal} (h : (around units).Holds d.num d.den)
    (hpos : 0 < units) (hrep : spacing units ∣ units) : -330 ≤ digitCount d.digits + d.exponent := by
  by_contra hsize
  obtain ⟨j, hj⟩ : ∃ j, (-d.exponent).toNat = digitCount d.digits + 331 + j :=
    ⟨(-d.exponent).toNat - (digitCount d.digits + 331), by omega⟩
  have hlt : d.num < tenTo (digitCount d.digits) * unitsPerOne := by
    rw [num, show d.exponent.toNat = 0 by omega]
    exact Nat.mul_lt_mul_of_pos_right (by simpa [tenTo] using lt_tenTo_digitCount d.digits)
      unitsPerOne_pos
  have hden : tenTo (digitCount d.digits) * tenTo 331 ≤ d.den := by
    rw [den, hj, ← tenTo_add]
    exact tenTo_le (by omega)
  have hunits : 2 * unitsPerOne ≤ tenTo 331 := by decide +kernel
  have hle := (h.bounds hpos hrep).1
  have := Nat.mul_le_mul_left (tenTo (digitCount d.digits)) hunits
  nlinarith [Nat.mul_le_mul_right d.den hpos]

/-- A decimal in the interval of a finite magnitude is not too large. -/
theorem size_le_of_holds {units : Nat} {d : Decimal} (h : (around units).Holds d.num d.den)
    (hpos : 0 < units) (hrep : IsRepresentable units) (hd : d.digits ≠ 0) :
    digitCount d.digits + d.exponent ≤ 310 := by
  by_contra hsize
  have hcount : 0 < digitCount d.digits := Nat.length_toDigits_pos
  have hdigits := tenTo_le_of_lt_digitCount hd (Nat.sub_lt hcount Nat.one_pos)
  have hnum : tenTo 310 * d.den * unitsPerOne ≤ d.num := by
    rw [num]
    refine Nat.mul_le_mul_right _ (le_trans ?_ (Nat.mul_le_mul_right _ hdigits))
    rw [den, ← tenTo_add, ← tenTo_add]
    exact tenTo_le (by omega)
  have hunits : 3 * unitsLimit ≤ 2 * (tenTo 310 * unitsPerOne) := by decide +kernel
  have hle := (h.bounds hpos hrep.1).2
  have hlt := Nat.mul_lt_mul_of_pos_right hrep.2 d.den_pos
  have := Nat.mul_le_mul_right d.den hunits
  nlinarith

/-- **A decimal in the interval of a number has that number as its value.** -/
theorem Binary64.ofDecimal_eq {x : Number} {d : Decimal} (hx : x.negative = false)
    (hpos : 0 < x.units) (h : (around x.units).Holds d.num d.den) :
    Binary64.ofDecimal false d = .finite x := by
  obtain ⟨negative, units, hrep⟩ := x
  obtain rfl : negative = false := hx
  simp only at hpos h
  have hd : d.digits ≠ 0 := by
    intro hd
    have hle := (h.bounds hpos hrep.1).1
    have := Nat.mul_pos hpos d.den_pos
    simp only [num, hd, Nat.zero_mul] at hle
    omega
  have hlow := le_size_of_holds h hpos hrep.1
  have hhigh := size_le_of_holds h hpos hrep hd
  have hround := h.roundUnits_eq d.den_pos hpos hrep.1
  simp only [num, den] at hround
  rw [Binary64.ofDecimal, if_neg (by omega), if_neg (by omega), Binary64.ofRatio]
  simp only [hround, hrep.2, ↓reduceDIte]

/-! ### Shortest decimals -/

/-- The power of ten of the first digit is not above the magnitude. -/
theorem tenTo_leadingExponent_le {units : Nat} (hpos : 0 < units) :
    unitsPerOne * tenTo (leadingExponent units).toNat ≤
      units * tenTo (-leadingExponent units).toNat := by
  rw [leadingExponent]
  split
  · rename_i hle
    have hne : units / unitsPerOne ≠ 0 := (Nat.div_pos hle unitsPerOne_pos).ne'
    have hcount : 0 < digitCount (units / unitsPerOne) := Nat.length_toDigits_pos
    have h := tenTo_le_of_lt_digitCount hne (Nat.sub_lt hcount Nat.one_pos)
    rw [show ((digitCount (units / unitsPerOne) : Int) - 1).toNat =
        digitCount (units / unitsPerOne) - 1 by omega,
      show (-((digitCount (units / unitsPerOne) : Int) - 1)).toNat = 0 by omega]
    calc unitsPerOne * tenTo (digitCount (units / unitsPerOne) - 1)
        ≤ unitsPerOne * (units / unitsPerOne) := Nat.mul_le_mul_left _ h
      _ ≤ units := Nat.mul_div_le _ _
      _ = units * tenTo 0 := (Nat.mul_one _).symm
  · have h := lt_tenTo_digitCount ((unitsPerOne - 1) / units)
    have hdiv : ∀ n, n ≤ units * ((n - 1) / units + 1) := fun n => by
      have := Nat.lt_mul_div_succ (n - 1) hpos
      omega
    rw [show (-(digitCount ((unitsPerOne - 1) / units) : Int)).toNat = 0 by omega, Int.neg_neg,
      Int.toNat_natCast]
    calc unitsPerOne * tenTo 0 = unitsPerOne := by rw [show tenTo 0 = 1 from rfl, Nat.mul_one]
      _ ≤ units * ((unitsPerOne - 1) / units + 1) := hdiv unitsPerOne
      _ ≤ _ := Nat.mul_le_mul_left _ h

/-- A magnitude has at most 53 binary digits in front of its spacing. -/
theorem lt_spacing_mul (units : Nat) : units < twoTo 53 * spacing units := by
  rw [spacing, ← twoTo_add]
  exact lt_of_lt_of_le (lt_twoTo_log2 units) (twoTo_le (by omega))

/-- A quotient whose distance from a magnitude is less than half the spacing lies in the interval;
above a power of two, the interval is half as wide below. -/
theorem holds_of_near {units num den d : Nat} (hpos : 0 < units) (hrep : spacing units ∣ units)
    (hlo : 2 * (units * den) ≤ 2 * num + d) (hhi : 2 * num ≤ 2 * (units * den) + d)
    (hdist : d < spacing units * den)
    (hpow : units = twoTo units.log2 ∧ 53 ≤ units.log2 → 2 * d < spacing units * den) :
    (around units).Holds num den := by
  have hs := Nat.mul_le_mul_right den (Nat.le_of_dvd hpos hrep)
  refine holds_of_lt ⟨?_, ?_⟩
  · simp only [around]
    split
    · rename_i h
      have := hpow h
      rw [Nat.sub_mul, Nat.mul_assoc]
      omega
    · rw [Nat.sub_mul, Nat.mul_assoc, Nat.mul_assoc]
      omega
  · simp only [around, Nat.add_mul, Nat.mul_assoc]
    omega

/-- Seventeen digits behind the first significant one are finer than the magnitude. -/
theorem grid_le {units : Nat} (hpos : 0 < units) {e : Int} (he : leadingExponent units - 16 = e) :
    tenTo 16 * (unitsPerOne * tenTo e.toNat) ≤ units * tenTo (-e).toNat := by
  have hlead := tenTo_leadingExponent_le hpos
  generalize leadingExponent units = lead at *
  generalize unitsPerOne = one at *
  refine Nat.le_of_mul_le_mul_right ?_ (tenTo_pos (-lead).toNat)
  have hpow : tenTo 16 * tenTo e.toNat * tenTo (-lead).toNat =
      tenTo lead.toNat * tenTo (-e).toNat := by
    rw [← tenTo_add, ← tenTo_add, ← tenTo_add]
    exact congrArg tenTo (by omega)
  calc tenTo 16 * (one * tenTo e.toNat) * tenTo (-lead).toNat
      = one * (tenTo 16 * tenTo e.toNat * tenTo (-lead).toNat) := by ring
    _ = one * tenTo lead.toNat * tenTo (-e).toNat := by rw [hpow, Nat.mul_assoc]
    _ ≤ units * tenTo (-lead).toNat * tenTo (-e).toNat := Nat.mul_le_mul_right _ hlead
    _ = units * tenTo (-e).toNat * tenTo (-lead).toNat := by ring

/-- Seventeen digits are enough. -/
theorem exists_nearestOnGrid {units : Nat} (hpos : 0 < units) (hrep : spacing units ∣ units) :
    ∃ d, nearestOnGrid? units (leadingExponent units - 16) = some d := by
  generalize he : leadingExponent units - 16 = e
  have hgrid := grid_le hpos he
  have hden := tenTo_pos (-e).toNat
  obtain ⟨hlo, hhi⟩ := roundHalfEven_near (units * tenTo (-e).toNat)
    (Nat.mul_pos unitsPerOne_pos (tenTo_pos e.toNat))
  have hholds : (around units).Holds
      (Decimal.num ⟨roundHalfEven (units * tenTo (-e).toNat) (unitsPerOne * tenTo e.toNat), e⟩)
      (tenTo (-e).toNat) := by
    have hnum : Decimal.num
        ⟨roundHalfEven (units * tenTo (-e).toNat) (unitsPerOne * tenTo e.toNat), e⟩ =
        roundHalfEven (units * tenTo (-e).toNat) (unitsPerOne * tenTo e.toNat) *
          (unitsPerOne * tenTo e.toNat) := by
      rw [num, Nat.mul_assoc, Nat.mul_comm (tenTo _)]
    rw [hnum]
    generalize roundHalfEven (units * tenTo (-e).toNat) (unitsPerOne * tenTo e.toNat) = n at *
    generalize unitsPerOne * tenTo e.toNat = step at *
    generalize tenTo (-e).toNat = den at *
    rw [Nat.mul_assoc] at hlo hhi
    have hlt := Nat.mul_lt_mul_of_pos_right (lt_spacing_mul units) hden
    rw [Nat.mul_assoc] at hlt
    have hs : 0 < spacing units * den := Nat.mul_pos (spacing_pos units) hden
    have hdigits : twoTo 53 < tenTo 16 := by decide +kernel
    refine holds_of_near (d := step) hpos hrep hhi hlo ?_ fun h => ?_
    · exact Nat.lt_of_mul_lt_mul_left
        ((hgrid.trans_lt hlt).trans_le (Nat.mul_le_mul_right _ hdigits.le))
    · have hunits : 2 * units = twoTo 53 * spacing units := by
        rw [spacing, ← twoTo_add, show 53 + (units.log2 - 52) = units.log2 + 1 by omega, twoTo_succ,
          ← h.1]
      refine Nat.lt_of_mul_lt_mul_left (a := tenTo 16) ?_
      calc tenTo 16 * (2 * step) = 2 * (tenTo 16 * step) := by ring
        _ ≤ 2 * (units * den) := Nat.mul_le_mul_left 2 hgrid
        _ = twoTo 53 * (spacing units * den) := by rw [← Nat.mul_assoc, hunits, Nat.mul_assoc]
        _ < tenTo 16 * (spacing units * den) := Nat.mul_lt_mul_of_pos_right hdigits hs
  have hcontains := Decimal.contains_iff.2 hholds
  simp only [nearestOnGrid?]
  obtain h | h := roundHalfEven_eq_floor_or (units * tenTo (-e).toNat)
    (unitsPerOne * tenTo e.toNat)
  · rw [if_pos h]
    rw [h] at hcontains
    exact ⟨_, List.find?_cons_of_pos hcontains⟩
  · rw [if_neg (by omega)]
    rw [h] at hcontains
    exact ⟨_, List.find?_cons_of_pos hcontains⟩

/-- Zeros at the end of the digits are a factor. -/
theorem div_mul_tenTo_zeros (n : Nat) :
    n / tenTo ((Nat.toDigits 10 n).reverse.takeWhile (· == '0')).length *
      tenTo ((Nat.toDigits 10 n).reverse.takeWhile (· == '0')).length = n := by
  generalize hz : (Nat.toDigits 10 n).reverse.takeWhile (· == '0') = zeros
  refine Nat.div_mul_cancel ?_
  have hzeros : zeros = List.replicate zeros.length '0' :=
    List.eq_replicate_of_mem fun c hc => by
      rw [← hz] at hc
      simpa using List.all_eq_true.1 List.all_takeWhile c hc
  -- the digits in front of the zeros denote the other factor
  have hdigits : Nat.toDigits 10 n =
      ((Nat.toDigits 10 n).reverse.dropWhile (· == '0')).reverse ++ zeros.reverse := by
    rw [← List.reverse_append, ← hz, List.takeWhile_append_dropWhile, List.reverse_reverse]
  have hvalue := Nat.ofDigitChars_ten_toDigits (n := n)
  rw [hdigits, Nat.ofDigitChars_append, hzeros, List.reverse_replicate,
    Nat.ofDigitChars_replicate_zero] at hvalue
  exact ⟨_, hvalue.symm⟩

/-- The trimmed decimal is the same quotient. -/
theorem Decimal.num_trim (d : Decimal) : d.num * d.trim.den = d.trim.num * d.den := by
  obtain ⟨n, e⟩ := d
  have hn := div_mul_tenTo_zeros n
  simp only [num, den, trim]
  generalize ((Nat.toDigits 10 n).reverse.takeWhile (· == '0')).length = z at *
  generalize n / tenTo z = m at *
  generalize unitsPerOne = one
  rw [← hn]
  have hpow : tenTo z * tenTo e.toNat * tenTo (-(e + z)).toNat =
      tenTo (e + z).toNat * tenTo (-e).toNat := by
    rw [← tenTo_add, ← tenTo_add, ← tenTo_add]
    exact congrArg tenTo (by omega)
  calc m * tenTo z * tenTo e.toNat * one * tenTo (-(e + z)).toNat
      = m * one * (tenTo z * tenTo e.toNat * tenTo (-(e + z)).toNat) := by ring
    _ = m * tenTo (e + z).toNat * one * tenTo (-e).toNat := by rw [hpow]; ring

/-- **The shortest decimal of a positive magnitude lies in its interval.** -/
theorem shortestDecimal_holds {units : Nat} (hpos : 0 < units) (hrep : spacing units ∣ units) :
    (around units).Holds (shortestDecimal units).num (shortestDecimal units).den := by
  have hfound : ∃ d, (List.range 17).findSome?
      (fun i : Nat => nearestOnGrid? units (leadingExponent units - i)) = some d := by
    refine Option.ne_none_iff_exists'.1 fun hnone => ?_
    obtain ⟨d, hd⟩ := exists_nearestOnGrid hpos hrep
    have h := List.findSome?_eq_none_iff.1 hnone 16 (by simp)
    rw [show ((16 : Nat) : Int) = 16 from rfl, hd] at h
    cases h
  obtain ⟨d, hd⟩ := hfound
  obtain ⟨i, -, hi⟩ := List.exists_of_findSome?_eq_some hd
  have hcontains : (around units).contains d = true := List.find?_some hi
  have hshortest : shortestDecimal units = d.trim := by simp only [shortestDecimal, hd]
  rw [hshortest]
  exact (Decimal.contains_iff.1 hcontains).of_eq d.den_pos d.trim.den_pos d.num_trim

end Pddl
