import KeyOrder.Number.Shortest
import Mathlib.Tactic.Ring
/-!
# Decimals of doubles

The magnitude nearest to a decimal depends on the value of the decimal alone, so
zeros may move between digits and exponent.  The decimal that is written for a
magnitude has that magnitude as the nearest one.
-/

namespace KeyOrder

/-! ## Units, places and quotients -/

/-- The units of a magnitude. -/
theorem Magnitude.units_eq (m : Magnitude) :
    m.units = if m.val < 2 ^ 52 then m.val
      else (2 ^ 52 + m.val % 2 ^ 52) * 2 ^ (m.val / 2 ^ 52 - 1) := by
  rfl

/-- The place of a quotient. -/
theorem placeNearest_eq (num den : Nat) :
    placeNearest num den = ((num / den).log2 - 52) * 2 ^ 52
      + divNearest num (den * 2 ^ ((num / den).log2 - 52)) := by
  rfl

/-- The magnitude of a quotient. -/
theorem Magnitude.ofRatio?_eq (num den : Nat) :
    ofRatio? num den = if h : placeNearest (num * 2 ^ unitExponent) den < 2047 * 2 ^ 52 then
      some ⟨placeNearest (num * 2 ^ unitExponent) den, h⟩ else none := by
  simp only [ofRatio?, Nat.pow_eq]

/-! ## Nearest whole numbers and places -/

/-- The nearest whole number depends on the quotient alone. -/
theorem divNearest_mul_right (num den : Nat) {k : Nat} (hk : 0 < k) :
    divNearest (num * k) (den * k) = divNearest num den := by
  have hquotient : num * k / (den * k) = num / den := Nat.mul_div_mul_right num den hk
  have hremainder : num * k % (den * k) = num % den * k := Nat.mul_mod_mul_right k num den
  simp only [divNearest, hquotient, hremainder, ← Nat.mul_assoc, Nat.mul_lt_mul_right hk]

/-- A whole quotient is its own nearest whole number. -/
theorem divNearest_mul_self (a : Nat) {b : Nat} (hb : 0 < b) : divNearest (a * b) b = a := by
  simp [divNearest, Nat.mul_div_cancel a hb, hb]

/-- The nearest place depends on the quotient alone. -/
theorem placeNearest_mul_right (num den : Nat) {k : Nat} (hk : 0 < k) :
    placeNearest (num * k) (den * k) = placeNearest num den := by
  simp only [placeNearest_eq, Nat.mul_div_mul_right num den hk, Nat.mul_right_comm den k,
    divNearest_mul_right _ _ hk]

/-- The units of a magnitude are nearest to that magnitude. -/
theorem placeNearest_units (m : Magnitude) : placeNearest m.units 1 = m.val := by
  have hbound : m.val < 2047 * 2 ^ 52 := m.isLt
  rw [m.units_eq]
  split
  · next hsmall =>
    -- Below `2 ^ 52` a place is its number of units.
    have hlog : m.val.log2 - 52 = 0 := by
      by_cases h0 : m.val = 0
      · rw [h0, Nat.log2_zero]
      · have := (Nat.log2_lt h0).mpr hsmall
        omega
    rw [placeNearest_eq, Nat.div_one, hlog]
    simpa using divNearest_mul_self m.val Nat.one_pos
  · next hlarge =>
    -- Above, the place tells the power of two and the digits after the first one.
    obtain ⟨stretch, hstretch⟩ : ∃ stretch, m.val / 2 ^ 52 = stretch + 1 :=
      ⟨m.val / 2 ^ 52 - 1, by omega⟩
    have hlog : ((2 ^ 52 + m.val % 2 ^ 52) * 2 ^ stretch).log2 = stretch + 52 := by
      have hpos : 0 < 2 ^ stretch := Nat.two_pow_pos stretch
      have hlow : 2 ^ 52 * 2 ^ stretch ≤ (2 ^ 52 + m.val % 2 ^ 52) * 2 ^ stretch :=
        Nat.mul_le_mul_right _ (Nat.le_add_right _ _)
      have hhigh : (2 ^ 52 + m.val % 2 ^ 52) * 2 ^ stretch < 2 ^ 53 * 2 ^ stretch :=
        (Nat.mul_lt_mul_right hpos).mpr (by omega)
      rw [Nat.log2_eq_iff (by omega), Nat.add_comm stretch 52, Nat.add_right_comm 52 stretch 1,
        Nat.pow_add, Nat.pow_add]
      exact ⟨hlow, hhigh⟩
    rw [hstretch, Nat.add_sub_cancel, placeNearest_eq, Nat.div_one, hlog, Nat.add_sub_cancel,
      Nat.one_mul, divNearest_mul_self _ (Nat.two_pow_pos stretch)]
    omega

/-- A quotient below one half is nearest to zero. -/
theorem placeNearest_of_lt {num den : Nat} (h : 2 * num < den) : placeNearest num den = 0 := by
  have hquotient : num / den = 0 := Nat.div_eq_of_lt (by omega)
  have hremainder : num % den = num := Nat.mod_eq_of_lt (by omega)
  simp [placeNearest_eq, divNearest, hquotient, hremainder, h]

/-- A great quotient has a great place. -/
theorem le_placeNearest {num den k e : Nat} (he : k + 52 ≤ e) (h : 2 ^ e ≤ num / den) :
    k * 2 ^ 52 ≤ placeNearest num den := by
  have hne : num / den ≠ 0 := (Nat.lt_of_lt_of_le (Nat.two_pow_pos _) h).ne'
  have hlog : e ≤ (num / den).log2 := (Nat.le_log2 hne).mpr h
  rw [placeNearest_eq]
  exact Nat.le_add_right_of_le (Nat.mul_le_mul_right _ (by omega))

/-! ## Magnitudes of quotients -/

/-- Equal quotients have the same nearest magnitude. -/
theorem Magnitude.ofRatio?_congr {num den num' den' : Nat} (hden : 0 < den) (hden' : 0 < den')
    (h : num * den' = num' * den) : ofRatio? num den = ofRatio? num' den' := by
  have hplace : placeNearest (num * 2 ^ unitExponent) den
      = placeNearest (num' * 2 ^ unitExponent) den' := by
    calc placeNearest (num * 2 ^ unitExponent) den
        = placeNearest (num * 2 ^ unitExponent * den') (den * den') :=
          (placeNearest_mul_right _ _ hden').symm
      _ = placeNearest (num' * 2 ^ unitExponent * den) (den' * den) := by
          rw [Nat.mul_right_comm num, h, Nat.mul_right_comm num', Nat.mul_comm den]
      _ = placeNearest (num' * 2 ^ unitExponent) den' := placeNearest_mul_right _ _ hden
  simp only [ofRatio?_eq, hplace]

/-- The quotient of the units of a magnitude has that magnitude. -/
theorem Magnitude.ofRatio?_units (m : Magnitude) :
    ofRatio? m.units (2 ^ unitExponent) = some m := by
  have hplace : placeNearest (m.units * 2 ^ unitExponent) (2 ^ unitExponent) = m.val := by
    have h := placeNearest_mul_right m.units 1 (Nat.two_pow_pos unitExponent)
    rw [Nat.one_mul] at h
    rw [h, placeNearest_units]
  simp only [ofRatio?_eq, hplace]
  have hbound : m.val < 2047 * 2 ^ 52 := m.isLt
  rw [dif_pos hbound]

/-- Nothing from ten to the power 401 on has a magnitude. -/
theorem Magnitude.ofRatio?_of_large {num e : Nat} (he : 401 ≤ e) (h : 10 ^ e ≤ num) :
    ofRatio? num 1 = none := by
  have hplace : 2047 * 2 ^ 52 ≤ placeNearest (num * 2 ^ unitExponent) 1 := by
    have hexponent : 2047 + 52 ≤ 3 * e + unitExponent := by unfold unitExponent; omega
    apply le_placeNearest hexponent
    rw [Nat.div_one]
    calc 2 ^ (3 * e + unitExponent)
        = 8 ^ e * 2 ^ unitExponent := by rw [Nat.pow_add, Nat.pow_mul]
      _ ≤ 10 ^ e * 2 ^ unitExponent :=
          Nat.mul_le_mul_right _ (Nat.pow_le_pow_left (by decide) e)
      _ ≤ num * 2 ^ unitExponent := Nat.mul_le_mul_right _ h
  simp only [ofRatio?_eq]
  rw [dif_neg (Nat.not_lt.mpr hplace)]

/-- What is small beside the unit has the magnitude zero. -/
theorem Magnitude.ofRatio?_of_small {num den : Nat} (h : 2 * (num * 2 ^ unitExponent) < den) :
    ofRatio? num den = ofRatio? 0 1 := by
  have hzero : placeNearest (0 * 2 ^ unitExponent) 1 = 0 := placeNearest_of_lt (by simp)
  simp only [ofRatio?_eq, placeNearest_of_lt h, hzero]

/-! ## Decimals as quotients -/

/-- The numerator of a decimal. -/
def Decimal.num (d : Decimal) : Nat :=
  d.digits * 10 ^ d.exponent.toNat

/-- The denominator of a decimal. -/
def Decimal.den (d : Decimal) : Nat :=
  10 ^ (-d.exponent).toNat

/-- The magnitude of a decimal is that of its quotient: where no power of ten is computed, it would
not have changed the answer. -/
theorem Decimal.magnitude?_eq (d : Decimal) : d.magnitude? = Magnitude.ofRatio? d.num d.den := by
  obtain ⟨digits, exponent⟩ := d
  unfold Decimal.magnitude?
  split
  · next h0 =>
    simp only at h0
    exact Magnitude.ofRatio?_congr Nat.one_pos (Nat.pow_pos (by decide)) (by simp [num, h0])
  · next h0 =>
    have hdigits : 1 ≤ digits := Nat.one_le_iff_ne_zero.mpr h0
    split
    · next hlarge =>
      simp only at hlarge
      have hden : (-exponent).toNat = 0 := by omega
      have hnum : 10 ^ exponent.toNat ≤ digits * 10 ^ exponent.toNat :=
        Nat.le_mul_of_pos_left _ hdigits
      simp only [num, den, hden, Nat.pow_zero]
      exact (Magnitude.ofRatio?_of_large (by omega) hnum).symm
    · split
      · next hsmall =>
        simp only at hsmall
        have hnum : exponent.toNat = 0 := by omega
        simp only [num, den, hnum, Nat.pow_zero, Nat.mul_one]
        refine (Magnitude.ofRatio?_of_small ?_).symm
        calc 2 * (digits * 2 ^ unitExponent)
            < 2 * (2 ^ (digits.log2 + 1) * 2 ^ unitExponent) := by
              have := (Nat.mul_lt_mul_right (Nat.two_pow_pos unitExponent)).mpr
                (Nat.lt_log2_self (n := digits))
              omega
          _ = 2 ^ (digits.log2 + 1 + unitExponent + 1) := by ring
          _ ≤ 2 ^ (3 * (digits.log2 + 402)) :=
              Nat.pow_le_pow_right (by decide) (by unfold unitExponent; omega)
          _ = 8 ^ (digits.log2 + 402) := by rw [Nat.pow_mul]
          _ ≤ 10 ^ (digits.log2 + 402) := Nat.pow_le_pow_left (by decide) _
          _ ≤ 10 ^ (-exponent).toNat := Nat.pow_le_pow_right (by decide) (by omega)
      · cases exponent with
        | ofNat e => simp [num, den]
        | negSucc e => simp [num, den, Int.neg_negSucc]

/-- Zeros at the end of the digits may go to the exponent. -/
theorem Decimal.magnitude?_shift (digits zeros : Nat) (exponent : Int) :
    Decimal.magnitude? ⟨digits * 10 ^ zeros, exponent⟩
      = Decimal.magnitude? ⟨digits, exponent + zeros⟩ := by
  rw [magnitude?_eq, magnitude?_eq]
  refine Magnitude.ofRatio?_congr (Nat.pow_pos (by decide)) (Nat.pow_pos (by decide)) ?_
  simp only [num, den, Nat.mul_assoc, ← Nat.pow_add]
  congr 2
  omega

/-! ## The decimal that is written -/

/-- The exact decimal of a magnitude has that magnitude. -/
theorem Magnitude.magnitude?_exactDecimal (m : Magnitude) : m.exactDecimal.magnitude? = some m := by
  rw [Decimal.magnitude?_eq, ← ofRatio?_units m]
  refine ofRatio?_congr (Nat.pow_pos (by decide)) (Nat.two_pow_pos _) ?_
  simp only [exactDecimal, Nat.pow_eq, Decimal.num, Decimal.den, Int.neg_neg, Int.toNat_natCast,
    Int.toNat_neg_natCast, Nat.pow_zero, Nat.mul_one, Nat.mul_assoc, ← Nat.mul_pow]

/-- The decimal that is written for a magnitude has that magnitude as the nearest one. -/
theorem Magnitude.magnitude?_shortest (m : Magnitude) : m.shortest.magnitude? = some m := by
  unfold shortest
  simp only
  generalize hfound : List.findSome? _ _ = found
  cases found with
  | none => exact m.magnitude?_exactDecimal
  | some d =>
      obtain ⟨places, -, hplaces⟩ := List.exists_of_findSome?_eq_some hfound
      simpa using List.find?_some hplaces

end KeyOrder
