import KeyOrder.Json.Decode
import KeyOrder.Proofs.Rounding
import KeyOrder.Proofs.Spelling
/-!
# Numbers as they are written

Integers and finite doubles are written as spelled numerals that stand for them
again: the digits of a decimal may be written with or without an exponent, and the
nearest magnitude is the same.
-/

namespace KeyOrder

open Json

/-! ## The digits that are shown -/

/-- A text is what is left of it without the zeros at its end, and these zeros. -/
theorem exists_eq_dropEnd_append_zeros (text : Text) :
    ∃ zeros, text = Text.dropEnd text (· == '0') ++ List.replicate zeros '0' := by
  refine ⟨(text.rtakeWhile (· == '0')).length, ?_⟩
  have hzeros : text.rtakeWhile (· == '0')
      = List.replicate (text.rtakeWhile (· == '0')).length '0' := by
    apply List.eq_replicate_of_mem
    intro c hc
    simpa using List.mem_rtakeWhile_imp hc
  rw [← hzeros]
  exact List.rdropWhile_append_rtakeWhile.symm

/-- The digits of a positive decimal are those that are shown and zeros behind them. -/
theorem exists_digitsOfNat_eq_shownDigits {d : Decimal} (h : d.digits ≠ 0) :
    IsLeading d.shownDigits ∧
      ∃ zeros, digitsOfNat d.digits = d.shownDigits ++ List.replicate zeros '0' := by
  obtain ⟨⟨hne, hdigits⟩, hhead⟩ := isLeading_digitsOfNat h
  obtain ⟨zeros, hsplit⟩ := exists_eq_dropEnd_append_zeros (digitsOfNat d.digits)
  unfold Decimal.shownDigits
  split
  · next hnil =>
    -- Then all digits were zeros, the first one too.
    rw [hnil, List.nil_append] at hsplit
    cases zeros with
    | zero => exact absurd hsplit hne
    | succ zeros => exact absurd (by rw [hsplit]; rfl) hhead
  · next hcons =>
    refine ⟨⟨⟨hcons, fun c hc => hdigits c ?_⟩, fun hzero => hhead ?_⟩, zeros, hsplit⟩
    · rw [hsplit]
      exact List.mem_append_left _ hc
    · rw [hsplit, List.head?_append, hzero]
      rfl

/-- The magnitude of a positive decimal is that of the digits that are shown. -/
theorem magnitude?_eq_shownDigits {d : Decimal} (h : d.digits ≠ 0) :
    d.magnitude?
      = Decimal.magnitude? ⟨natOfDigits d.shownDigits, d.power + 1 - d.shownDigits.length⟩ := by
  obtain ⟨-, zeros, hzeros⟩ := exists_digitsOfNat_eq_shownDigits h
  have hvalue : d.digits = natOfDigits d.shownDigits * 10 ^ zeros := by
    calc d.digits = natOfDigits (digitsOfNat d.digits) := (natOfDigits_digitsOfNat _).symm
      _ = natOfDigits d.shownDigits * 10 ^ zeros := by
          rw [hzeros, natOfDigits_append, natOfDigits_zeros, List.length_replicate, Nat.add_zero]
  have hpower : d.power + 1 - d.shownDigits.length = d.exponent + zeros := by
    have hlength := congrArg List.length hzeros
    rw [List.length_append, List.length_replicate] at hlength
    unfold Decimal.power
    omega
  rw [hpower, ← Decimal.magnitude?_shift, ← hvalue]

/-! ## The forms of a decimal -/

/-- A numeral that is written as a sign and some text and has the magnitude of a decimal. -/
structure Json.Numeral.Spells (n : Numeral) (text : Text) (d : Decimal) : Prop where
  spelled : n.IsSpelled
  text_eq : n.text = signText n.negative ++ text
  isInteger : n.isInteger = false
  magnitude : n.decimal.magnitude? = d.magnitude?

/-- Only the magnitude of the decimal counts. -/
theorem Json.Numeral.Spells.congr {n : Numeral} {text : Text} {d d' : Decimal}
    (h : n.Spells text d) (hd : d.magnitude? = d'.magnitude?) : n.Spells text d' :=
  { h with magnitude := h.magnitude.trans hd }

/-- Digits, a point and digits are a numeral; each digit behind the point counts a tenth less. -/
theorem spells_pointed (negative : Bool) {whole fraction : Text}
    (hwhole : whole = ['0'] ∨ IsLeading whole) (hfraction : IsDigits fraction) :
    Numeral.Spells ⟨negative, whole, some fraction, none⟩ (whole ++ '.' :: fraction)
      ⟨natOfDigits (whole ++ fraction), -fraction.length⟩ where
  spelled := by
    refine ⟨hwhole, ?_, ?_⟩
    · rintro _ ⟨⟩
      exact hfraction
    · rintro _ ⟨⟩
  text_eq := by simp [Numeral.text, signText]
  isInteger := rfl
  magnitude := by simp [Numeral.decimal, Numeral.power]

/-- Digits that all stand behind the point. -/
theorem spells_plainForm_negSucc (negative : Bool) {digits : Text} (h : IsLeading digits)
    (zeros : Nat) :
    Numeral.Spells ⟨negative, ['0'], some (List.replicate zeros '0' ++ digits), none⟩
      (plainForm digits (.negSucc zeros))
      ⟨natOfDigits digits, Int.negSucc zeros + 1 - digits.length⟩ := by
  refine (spells_pointed negative (Or.inl rfl) (h.1.append_left isDigit_of_mem_zeros)).congr ?_
  have hdigits : natOfDigits (['0'] ++ (List.replicate zeros '0' ++ digits))
      = natOfDigits digits := by
    rw [← List.append_assoc, ← List.replicate_one, ← List.replicate_add, natOfDigits_zeros_append]
  rw [hdigits, List.length_append, List.length_replicate]
  congr 2
  omega

/-- Digits that all stand in front of the point, with zeros behind them. -/
theorem spells_plainForm_of_length_le (negative : Bool) {digits : Text} (h : IsLeading digits)
    {power : Nat} (hlength : digits.length ≤ power + 1) :
    Numeral.Spells
      ⟨negative, digits ++ List.replicate (power + 1 - digits.length) '0', some ['0'], none⟩
      (plainForm digits (.ofNat power))
      ⟨natOfDigits digits, Int.ofNat power + 1 - digits.length⟩ := by
  have htext : plainForm digits (.ofNat power)
      = digits ++ List.replicate (power + 1 - digits.length) '0' ++ '.' :: ['0'] := by
    simp [plainForm, List.take_of_length_le hlength, List.drop_of_length_le hlength]
  rw [htext]
  refine (spells_pointed negative (Or.inr (h.append_right isDigit_of_mem_zeros))
    isDigits_zero).congr ?_
  have hdigits : natOfDigits (digits ++ List.replicate (power + 1 - digits.length) '0' ++ ['0'])
      = natOfDigits digits * 10 ^ (power + 1 - digits.length + 1) := by
    rw [List.append_assoc, ← List.replicate_one, ← List.replicate_add, natOfDigits_append,
      natOfDigits_zeros, List.length_replicate, Nat.add_zero]
  rw [hdigits, Decimal.magnitude?_shift]
  congr 2
  simp only [List.length_singleton, Int.ofNat_eq_natCast]
  omega

/-- Digits with the point between them. -/
theorem spells_plainForm_of_lt_length (negative : Bool) {digits : Text} (h : IsLeading digits)
    {power : Nat} (hlength : power + 1 < digits.length) :
    Numeral.Spells ⟨negative, digits.take (power + 1), some (digits.drop (power + 1)), none⟩
      (plainForm digits (.ofNat power))
      ⟨natOfDigits digits, Int.ofNat power + 1 - digits.length⟩ := by
  have hne : digits.drop (power + 1) ≠ [] := by
    intro hnil
    have := List.drop_eq_nil_iff.mp hnil
    omega
  have htext : plainForm digits (.ofNat power)
      = digits.take (power + 1) ++ '.' :: digits.drop (power + 1) := by
    have hzeros : power + 1 - digits.length = 0 := by omega
    simp [plainForm, hzeros, hne]
  rw [htext]
  refine (spells_pointed negative (Or.inr (h.take_succ power))
    ⟨hne, fun c hc => h.1.2 c (List.mem_of_mem_drop hc)⟩).congr ?_
  rw [List.take_append_drop, List.length_drop]
  congr 2
  simp only [Int.ofNat_eq_natCast]
  omega

/-- Digits with a point are a numeral, wherever the point stands. -/
theorem exists_spells_plainForm (negative : Bool) {digits : Text} (h : IsLeading digits)
    (power : Int) :
    ∃ n : Numeral, n.negative = negative ∧
      n.Spells (plainForm digits power) ⟨natOfDigits digits, power + 1 - digits.length⟩ := by
  cases power with
  | negSucc zeros => exact ⟨_, rfl, spells_plainForm_negSucc negative h zeros⟩
  | ofNat power =>
      by_cases hlength : digits.length ≤ power + 1
      · exact ⟨_, rfl, spells_plainForm_of_length_le negative h hlength⟩
      · exact ⟨_, rfl, spells_plainForm_of_lt_length negative h (not_le.mp hlength)⟩

/-- An exponent is written as it is spelled, with the power that it stands for. -/
theorem exists_exponentForm_eq (power : Int) :
    ∃ e : Exponent, e.IsSpelled ∧ exponentForm power = e.mark ++ e.digits ∧
      (if e.negative then -(natOfDigits e.digits : Int) else natOfDigits e.digits) = power := by
  obtain ⟨digits, hdigits, hvalue, htext⟩ : ∃ digits, IsDigits digits ∧
      natOfDigits digits = power.natAbs ∧
      exponentForm power = 'e' :: (if power < 0 then '-' else '+') :: digits := by
    have hdigits := isDigits_digitsOfNat power.natAbs
    unfold exponentForm
    by_cases hshort : (digitsOfNat power.natAbs).length < 2
    · refine ⟨['0'] ++ digitsOfNat power.natAbs, hdigits.append_left isDigits_zero.2, ?_, ?_⟩
      · rw [← List.replicate_one, natOfDigits_zeros_append, natOfDigits_digitsOfNat]
      · simp [hshort]
    · exact ⟨_, hdigits, natOfDigits_digitsOfNat _, by simp only [if_neg hshort]⟩
  refine ⟨⟨['e', if power < 0 then '-' else '+'], decide (power < 0), digits⟩,
    ⟨⟨'e', [if power < 0 then '-' else '+'], Or.inl rfl, ?_, rfl, ?_⟩, hdigits⟩, htext, ?_⟩
  · by_cases hnegative : power < 0 <;> simp [hnegative]
  · by_cases hnegative : power < 0 <;> simp [hnegative]
  · simp only [hvalue, decide_eq_true_eq]
    omega

/-- Digits with the point after the first one and an exponent are a numeral. -/
theorem exists_spells_scientificForm (negative : Bool) {digits : Text} (h : IsLeading digits)
    (power : Int) :
    ∃ n : Numeral, n.negative = negative ∧
      n.Spells (scientificForm digits power) ⟨natOfDigits digits, power + 1 - digits.length⟩ := by
  obtain ⟨e, he, htext, hpower⟩ := exists_exponentForm_eq power
  obtain ⟨first, rest, rfl⟩ := List.exists_cons_of_ne_nil h.1.1
  have hfirst : IsLeading [first] := h.take_succ 0
  cases rest with
  | nil =>
      refine ⟨⟨negative, [first], none, some e⟩, rfl, ⟨Or.inr hfirst, ?_, ?_⟩, ?_, rfl, ?_⟩
      · rintro _ ⟨⟩
      · rintro _ ⟨⟩
        exact he
      · simp [Numeral.text, signText, scientificForm, htext]
      · simp [Numeral.decimal, Numeral.power, hpower]
  | cons second rest =>
      refine ⟨⟨negative, [first], some (second :: rest), some e⟩, rfl,
        ⟨Or.inr hfirst, ?_, ?_⟩, ?_, rfl, ?_⟩
      · rintro _ ⟨⟩
        exact ⟨List.cons_ne_nil _ _, fun c hc => h.1.2 c (List.mem_cons_of_mem _ hc)⟩
      · rintro _ ⟨⟩
        exact he
      · simp [Numeral.text, signText, scientificForm, htext]
      · simp only [Numeral.decimal, Numeral.power, hpower, Option.getD_some, List.singleton_append]
        congr 2
        simp only [List.length_cons]
        omega

/-! ## Numbers -/

/-- A decimal without value has the magnitude zero. -/
theorem magnitude?_of_digits_eq_zero {d : Decimal} (hd : d.digits = 0) {m : Magnitude}
    (hm : m.val = 0) : d.magnitude? = some m := by
  have hunits : m.units = 0 := by simp [Magnitude.units, hm]
  rw [Decimal.magnitude?_eq, ← Magnitude.ofRatio?_units m, hunits]
  exact Magnitude.ofRatio?_congr (Nat.pow_pos (by decide)) (Nat.two_pow_pos _)
    (by simp [Decimal.num, hd])

/-- The decimal that is written for a positive magnitude is positive. -/
theorem digits_shortest_ne_zero {m : Magnitude} (hm : m.val ≠ 0) : m.shortest.digits ≠ 0 := by
  intro hzero
  have hshortest := m.magnitude?_shortest
  rw [magnitude?_of_digits_eq_zero hzero (m := ⟨0, by decide⟩) rfl] at hshortest
  exact hm (congrArg Fin.val (Option.some.inj hshortest)).symm

/-- A positive decimal is written as a numeral that has its magnitude. -/
theorem exists_spells_decimal (negative : Bool) {d : Decimal} (hd : d.digits ≠ 0) :
    ∃ n : Numeral, n.negative = negative ∧ n.Spells d.text d := by
  obtain ⟨hleading, -⟩ := exists_digitsOfNat_eq_shownDigits hd
  have hmagnitude := (magnitude?_eq_shownDigits hd).symm
  unfold Decimal.text
  split
  · obtain ⟨n, hnegative, hn⟩ := exists_spells_plainForm negative hleading d.power
    exact ⟨n, hnegative, hn.congr hmagnitude⟩
  · obtain ⟨n, hnegative, hn⟩ := exists_spells_scientificForm negative hleading d.power
    exact ⟨n, hnegative, hn.congr hmagnitude⟩

/-- A finite double is written as a numeral that stands for it and for no integer. -/
theorem exists_numeral_of_double (negative : Bool) (m : Magnitude) :
    ∃ n : Numeral, n.IsSpelled ∧ n.text = (Double.finite negative m).text ∧
      n.isInteger = false ∧ n.double = .finite negative m := by
  obtain ⟨n, d, hnegative, hn, hd⟩ : ∃ (n : Numeral) (d : Decimal), n.negative = negative ∧
      n.Spells (if m.val = 0 then "0.0".toList else m.shortest.text) d ∧ d.magnitude? = some m := by
    by_cases hzero : m.val = 0
    · rw [if_pos hzero]
      exact ⟨_, _, rfl, spells_pointed negative (Or.inl rfl) isDigits_zero,
        magnitude?_of_digits_eq_zero rfl hzero⟩
    · rw [if_neg hzero]
      obtain ⟨n, hnegative, hn⟩ := exists_spells_decimal negative (digits_shortest_ne_zero hzero)
      exact ⟨n, _, hnegative, hn, m.magnitude?_shortest⟩
  refine ⟨n, hn.spelled, ?_, hn.isInteger, ?_⟩
  · rw [hn.text_eq, hnegative, Double.text]
  · rw [Numeral.double, Double.ofDecimal, hn.magnitude, hd, hnegative]

/-- A finite double is read back from the numeral that is written for it. -/
theorem exists_numeral_value_float (negative : Bool) (m : Magnitude) :
    ∃ n : Numeral, n.IsSpelled ∧ n.text = (Double.finite negative m).text ∧
      n.value .standard = .ok (.float (.finite negative m)) := by
  obtain ⟨n, hspelled, htext, hinteger, hdouble⟩ := exists_numeral_of_double negative m
  refine ⟨n, hspelled, htext, ?_⟩
  unfold Numeral.value
  rw [hinteger, hdouble]
  rfl

/-- An integer is read back from the numeral that is written for it, unless it is too long. -/
theorem exists_numeral_value_int {z : Int} (hz : z.natAbs < 10 ^ maxIntegerDigits) :
    ∃ n : Numeral, n.IsSpelled ∧ n.text = digitsOfInt z ∧ n.value .standard = .ok (.int z) := by
  have hlength := length_digitsOfNat_le (by decide) hz
  refine ⟨⟨decide (z < 0), digitsOfNat z.natAbs, none, none⟩, ⟨?_, ?_, ?_⟩, ?_, ?_⟩
  · by_cases hzero : z.natAbs = 0
    · rw [hzero]
      exact Or.inl rfl
    · exact Or.inr (isLeading_digitsOfNat hzero)
  · rintro _ ⟨⟩
  · rintro _ ⟨⟩
  · cases z with
    | ofNat n => simp [Numeral.text, digitsOfInt]
    | negSucc n => simp [Numeral.text, digitsOfInt]
  · unfold Numeral.value
    simp only [Numeral.isInteger, Option.isNone_none, Bool.and_self, if_true, if_pos hlength,
      Numeral.int, decide_eq_true_eq, natOfDigits_digitsOfNat]
    congr 2
    omega

end KeyOrder
