import KeyOrder.Json.Numeral
import Mathlib
/-!
# Spelled numerals

Rows of digits and what they stand for, and the numerals that documents can spell.
The scanner finds a spelled numeral again in front of everything that cannot go on
with it, and what the scanner finds is always spelled.
-/

namespace KeyOrder

/-! ## Rows of digits -/

/-- A row of at least one digit. -/
def IsDigits (digits : Text) : Prop :=
  digits ≠ [] ∧ ∀ c ∈ digits, c.isDigit = true

/-- A row of digits that starts with another one than zero. -/
def IsLeading (digits : Text) : Prop :=
  IsDigits digits ∧ digits.head? ≠ some '0'

/-- A zero is a row of digits. -/
theorem isDigits_zero : IsDigits ['0'] :=
  ⟨List.cons_ne_nil _ _, List.forall_mem_singleton.mpr rfl⟩

/-- A whole part, a zero or what starts with another digit, is a row of digits. -/
theorem isDigits_of_whole {whole : Text} (h : whole = ['0'] ∨ IsLeading whole) :
    IsDigits whole := by
  rcases h with rfl | hleading
  · exact isDigits_zero
  · exact hleading.1

/-- Zeros are digits. -/
theorem isDigit_of_mem_zeros {zeros : Nat} : ∀ c ∈ List.replicate zeros '0', c.isDigit = true := by
  intro c hc
  rw [List.eq_of_mem_replicate hc]
  decide

/-- Digits in front of a row of digits make a row of digits. -/
theorem IsDigits.append_left {digits more : Text} (hmore : IsDigits more)
    (h : ∀ c ∈ digits, c.isDigit = true) : IsDigits (digits ++ more) := by
  refine ⟨List.append_ne_nil_of_right_ne_nil _ hmore.1, fun c hc => ?_⟩
  rcases List.mem_append.mp hc with hc | hc
  · exact h c hc
  · exact hmore.2 c hc

/-- Digits behind a row that does not start with zero keep it such a row. -/
theorem IsLeading.append_right {digits more : Text} (h : IsLeading digits)
    (hmore : ∀ c ∈ more, c.isDigit = true) : IsLeading (digits ++ more) := by
  obtain ⟨c, rest, rfl⟩ := List.exists_cons_of_ne_nil h.1.1
  refine ⟨⟨List.cons_ne_nil _ _, fun d hd => ?_⟩, h.2⟩
  rcases List.mem_append.mp hd with hd | hd
  · exact h.1.2 d hd
  · exact hmore d hd

/-- At least one digit of a row that does not start with zero is such a row. -/
theorem IsLeading.take_succ {digits : Text} (h : IsLeading digits) (k : Nat) :
    IsLeading (digits.take (k + 1)) := by
  obtain ⟨c, rest, rfl⟩ := List.exists_cons_of_ne_nil h.1.1
  exact ⟨⟨List.cons_ne_nil _ _, fun d hd => h.1.2 d (List.mem_of_mem_take hd)⟩, h.2⟩

/-- A digit stands for a number below ten. -/
theorem digitValue_lt {c : Char} (h : c.isDigit = true) : digitValue c < 10 := by
  simp only [Char.isDigit, Bool.and_eq_true, decide_eq_true_eq, ge_iff_le] at h
  have h9 : c.toNat ≤ 57 := h.2
  unfold digitValue
  omega

/-- The number of a row of digits, as the library computes it. -/
theorem natOfDigits_eq_ofDigitChars (digits : Text) :
    natOfDigits digits = Nat.ofDigitChars 10 digits 0 := by
  rw [Nat.ofDigitChars_eq_foldl]
  rfl

/-- Digits in front count a power of ten for each digit behind them. -/
theorem natOfDigits_append (digits more : Text) :
    natOfDigits (digits ++ more) = natOfDigits digits * 10 ^ more.length + natOfDigits more := by
  rw [natOfDigits_eq_ofDigitChars, natOfDigits_eq_ofDigitChars, natOfDigits_eq_ofDigitChars,
    Nat.ofDigitChars_append, Nat.ofDigitChars_eq_ofDigitChars_zero, Nat.mul_comm]

/-- Zeros stand for zero. -/
theorem natOfDigits_zeros (zeros : Nat) : natOfDigits (List.replicate zeros '0') = 0 := by
  rw [natOfDigits_eq_ofDigitChars, Nat.ofDigitChars_replicate_zero, Nat.mul_zero]

/-- Zeros in front do not count. -/
theorem natOfDigits_zeros_append (zeros : Nat) (digits : Text) :
    natOfDigits (List.replicate zeros '0' ++ digits) = natOfDigits digits := by
  rw [natOfDigits_append, natOfDigits_zeros, Nat.zero_mul, Nat.zero_add]

/-- A row of digits stands for less than ten to the power of its length. -/
theorem natOfDigits_lt {digits : Text} (h : ∀ c ∈ digits, c.isDigit = true) :
    natOfDigits digits < 10 ^ digits.length := by
  induction digits with
  | nil => decide
  | cons c digits ih =>
      have hc := digitValue_lt (h c List.mem_cons_self)
      have hrest := ih fun d hd => h d (List.mem_cons_of_mem c hd)
      have happend := natOfDigits_append [c] digits
      have hone : natOfDigits [c] = digitValue c := by simp [natOfDigits]
      rw [List.singleton_append, hone] at happend
      rw [happend, List.length_cons, Nat.pow_succ]
      have := Nat.mul_le_mul_right (10 ^ digits.length) (Nat.le_of_lt_succ hc)
      omega

/-- The digits of a number stand for it. -/
theorem natOfDigits_digitsOfNat (n : Nat) : natOfDigits (digitsOfNat n) = n := by
  rw [natOfDigits_eq_ofDigitChars, digitsOfNat, Nat.ofDigitChars_ten_toDigits]

/-- The digits of a number are a row of digits. -/
theorem isDigits_digitsOfNat (n : Nat) : IsDigits (digitsOfNat n) :=
  ⟨Nat.toDigits_ne_nil, fun _ hc => Nat.isDigit_of_mem_toDigits (by decide) (by decide) hc⟩

/-- The digits of a number below a power of ten are no more than its exponent. -/
theorem length_digitsOfNat_le {n k : Nat} (hk : 0 < k) (h : n < 10 ^ k) :
    (digitsOfNat n).length ≤ k :=
  (Nat.length_toDigits_le_iff (by decide) hk).mpr h

/-- An integer is written exactly if it is below the power of ten with too many digits. -/
theorem isWritable_iff {n : Int} : isWritable n = true ↔ n.natAbs < 10 ^ maxIntegerDigits := by
  rw [isWritable, decide_eq_true_eq]
  exact Nat.length_toDigits_le_iff (by decide) (by decide)

/-- The digits of a positive number start with another one than zero. -/
theorem isLeading_digitsOfNat {n : Nat} (h : n ≠ 0) : IsLeading (digitsOfNat n) := by
  refine ⟨isDigits_digitsOfNat n, fun hhead => ?_⟩
  obtain ⟨rest, hrest⟩ := List.head?_eq_some_iff.mp hhead
  -- Without the zero in front the same number would take one digit less.
  have hvalue : natOfDigits rest = n := by
    have := natOfDigits_zeros_append 1 rest
    rw [List.replicate_one, List.singleton_append, ← hrest, natOfDigits_digitsOfNat] at this
    exact this.symm
  have hdigits : ∀ c ∈ rest, c.isDigit = true := by
    intro c hc
    exact (isDigits_digitsOfNat n).2 c (by rw [hrest]; exact List.mem_cons_of_mem _ hc)
  have hlt := natOfDigits_lt hdigits
  rw [hvalue] at hlt
  cases rest with
  | nil => exact h (by simpa using hlt)
  | cons c more =>
      have hle := length_digitsOfNat_le (Nat.zero_lt_succ more.length) hlt
      rw [hrest] at hle
      simp only [List.length_cons] at hle
      omega

namespace Json

/-! ## Spelled numerals -/

/-- An exponent with its letter, at most one sign, and digits. -/
structure Exponent.IsSpelled (e : Exponent) : Prop where
  mark : ∃ letter sign, (letter = 'e' ∨ letter = 'E') ∧ (sign = [] ∨ sign = ['+'] ∨ sign = ['-']) ∧
    e.mark = letter :: sign ∧ e.negative = decide (sign = ['-'])
  digits : IsDigits e.digits

/-- A numeral as a document spells it. -/
structure Numeral.IsSpelled (n : Numeral) : Prop where
  whole : n.whole = ['0'] ∨ IsLeading n.whole
  fraction : ∀ digits ∈ n.fraction, IsDigits digits
  exponent : ∀ e ∈ n.exponent, e.IsSpelled

/-- A text with which no numeral goes on. -/
def EndsNumeral (rest : Text) : Prop :=
  ∀ c ∈ rest.head?, c.isDigit = false ∧ c ≠ '.' ∧ c ≠ 'e' ∧ c ≠ 'E'

/-! ## Scanning spelled numerals -/

/-- The scanner takes a row of digits in front of what is no digit. -/
theorem scanDigits_append {digits rest : Text} (hdigits : ∀ c ∈ digits, c.isDigit = true)
    (hrest : ∀ c ∈ rest.head?, c.isDigit = false) :
    scanDigits (digits ++ rest) = (digits, rest) := by
  rw [scanDigits, List.takeWhile_append_of_pos hdigits, List.dropWhile_append_of_pos hdigits]
  cases rest with
  | nil => simp
  | cons c rest =>
      have hc := hrest c rfl
      simp [hc]

/-- The scanner takes a whole part in front of what is no digit. -/
theorem scanWhole?_append {whole rest : Text} (hwhole : whole = ['0'] ∨ IsLeading whole)
    (hrest : ∀ c ∈ rest.head?, c.isDigit = false) :
    scanWhole? (whole ++ rest) = some (whole, rest) := by
  rcases hwhole with rfl | ⟨⟨hne, hdigits⟩, hhead⟩
  · rfl
  · cases whole with
    | nil => exact absurd rfl hne
    | cons c whole =>
        have hc : c ≠ '0' := fun h => hhead (by rw [h]; rfl)
        have hdigit := hdigits c List.mem_cons_self
        have hscan := scanDigits_append hdigits hrest
        rw [List.cons_append] at hscan ⊢
        rw [scanWhole?.eq_def]
        split
        · next heq => exact absurd (List.cons.inj heq).1 hc
        · next heq =>
          obtain ⟨rfl, rfl⟩ := List.cons.inj heq
          rw [if_pos hdigit, hscan]
        · next heq => cases heq

/-- Without a point there is no fraction. -/
theorem scanFraction_of_head? {rest : Text} (h : '.' ∉ rest.head?) :
    scanFraction rest = (none, rest) := by
  cases rest with
  | nil => rfl
  | cons c rest =>
      rw [scanFraction.eq_def]
      split
      · next heq => exact absurd (by rw [(List.cons.inj heq).1]; rfl) h
      · rfl

/-- The scanner takes a fraction in front of what is no digit. -/
theorem scanFraction_append {digits rest : Text} (hdigits : IsDigits digits)
    (hrest : ∀ c ∈ rest.head?, c.isDigit = false) :
    scanFraction ('.' :: (digits ++ rest)) = (some digits, rest) := by
  rw [scanFraction, scanDigits_append hdigits.2 hrest]
  split
  · next heq => exact absurd (Prod.mk.inj heq).1 hdigits.1
  · next heq =>
    obtain ⟨rfl, rfl⟩ := Prod.mk.inj heq
    rfl

/-- Without its letter there is no exponent. -/
theorem scanExponent_of_head? {rest : Text} (h : 'e' ∉ rest.head? ∧ 'E' ∉ rest.head?) :
    scanExponent rest = (none, rest) := by
  cases rest with
  | nil => rfl
  | cons c rest =>
      have hc : ¬ (c = 'e' ∨ c = 'E') := by
        rintro (rfl | rfl)
        · exact h.1 rfl
        · exact h.2 rfl
      rw [scanExponent, if_neg hc]

/-- The scanner takes the sign of an exponent in front of digits. -/
theorem scanSign_append {sign digits : Text} (hsign : sign = [] ∨ sign = ['+'] ∨ sign = ['-'])
    (hdigits : IsDigits digits) (rest : Text) :
    scanSign (sign ++ (digits ++ rest)) = (sign, digits ++ rest) := by
  obtain ⟨c, more, rfl⟩ := List.exists_cons_of_ne_nil hdigits.1
  have hc := hdigits.2 c List.mem_cons_self
  rcases hsign with rfl | rfl | rfl
  · rw [List.nil_append, List.cons_append, scanSign.eq_def]
    split
    · next heq => rw [(List.cons.inj heq).1] at hc; exact absurd hc (by decide)
    · next heq => rw [(List.cons.inj heq).1] at hc; exact absurd hc (by decide)
    · rfl
  · rfl
  · rfl

/-- The scanner takes an exponent in front of what is no digit. -/
theorem scanExponent_append {e : Exponent} (he : e.IsSpelled) {rest : Text}
    (hrest : ∀ c ∈ rest.head?, c.isDigit = false) :
    scanExponent (e.mark ++ (e.digits ++ rest)) = (some e, rest) := by
  obtain ⟨letter, sign, hletter, hsign, hmark, hnegative⟩ := he.mark
  rw [hmark, List.cons_append, scanExponent, if_pos hletter, scanSign_append hsign he.digits]
  simp only [scanDigits_append he.digits.2 hrest]
  split
  · next heq => exact absurd (Prod.mk.inj heq).1 he.digits.1
  · next heq =>
    obtain ⟨hdigits, rfl⟩ := Prod.mk.inj heq
    rw [← hdigits, ← hmark, ← hnegative]

/-- The scanner takes the minus sign of a number if it has one. -/
theorem scanMinus_append (negative : Bool) {whole : Text} (hwhole : IsDigits whole)
    (rest : Text) :
    scanMinus ((if negative then ['-'] else []) ++ (whole ++ rest))
      = (negative, whole ++ rest) := by
  obtain ⟨c, more, rfl⟩ := List.exists_cons_of_ne_nil hwhole.1
  have hc := hwhole.2 c List.mem_cons_self
  cases negative with
  | false =>
      rw [if_neg Bool.false_ne_true, List.nil_append, List.cons_append, scanMinus.eq_def]
      split
      · next heq => rw [(List.cons.inj heq).1] at hc; exact absurd hc (by decide)
      · rfl
  | true => rfl

/-! ## The parts of a numeral -/

/-- The spelling of a fraction, if there is one. -/
def fractionText : Option Text → Text
  | some digits => '.' :: digits
  | none => []

/-- The spelling of an exponent, if there is one. -/
def exponentText : Option Exponent → Text
  | some e => e.mark ++ e.digits
  | none => []

/-- A numeral is spelled part by part. -/
theorem Numeral.text_append (n : Numeral) (rest : Text) :
    n.text ++ rest = (if n.negative then ['-'] else []) ++
      (n.whole ++ (fractionText n.fraction ++ (exponentText n.exponent ++ rest))) := by
  obtain ⟨negative, whole, fraction, exponent⟩ := n
  cases fraction <;> cases exponent <;> simp [Numeral.text, fractionText, exponentText]

/-- A numeral is not empty. -/
theorem Numeral.text_ne_nil {n : Numeral} (hn : n.IsSpelled) : n.text ≠ [] := by
  intro hnil
  have hwhole := (isDigits_of_whole hn.whole).1
  have htext := n.text_append []
  rw [hnil] at htext
  simp [hwhole] at htext

/-- What holds of digits, signs, points and the letters of exponents holds of the characters of a
numeral. -/
theorem Numeral.forall_mem_text {p : Char → Prop} {n : Numeral} (hn : n.IsSpelled)
    (hdigit : ∀ c, c.isDigit = true → p c) (hmark : ∀ c ∈ ['-', '+', '.', 'e', 'E'], p c) :
    ∀ c ∈ n.text, p c := by
  have htext := n.text_append []
  rw [List.append_nil, List.append_nil] at htext
  rw [htext]
  simp only [List.forall_mem_append]
  refine ⟨?_, fun c hc => hdigit c ((isDigits_of_whole hn.whole).2 c hc), ?_, ?_⟩
  · cases n.negative with
    | false => exact List.forall_mem_nil _
    | true => exact List.forall_mem_singleton.mpr (hmark '-' (by decide))
  · cases hfraction : n.fraction with
    | none => exact List.forall_mem_nil _
    | some digits =>
        refine List.forall_mem_cons.mpr ⟨hmark '.' (by decide), fun c hc => hdigit c ?_⟩
        exact (hn.fraction digits hfraction).2 c hc
  · cases hexponent : n.exponent with
    | none => exact List.forall_mem_nil _
    | some e =>
        have he := hn.exponent e hexponent
        obtain ⟨letter, sign, hletter, hsign, hspelled, -⟩ := he.mark
        rw [exponentText, List.forall_mem_append, hspelled, List.forall_mem_cons]
        refine ⟨⟨hmark letter ?_, fun c hc => hmark c ?_⟩, fun c hc => hdigit c (he.digits.2 c hc)⟩
        · rcases hletter with rfl | rfl <;> decide
        · rcases hsign with rfl | rfl | rfl
          · cases hc
          · rw [List.mem_singleton.mp hc]
            decide
          · rw [List.mem_singleton.mp hc]
            decide

/-- Neither a digit nor a point follows where an exponent may stand. -/
theorem head?_exponentText_append {exponent : Option Exponent}
    (hexponent : ∀ e ∈ exponent, e.IsSpelled) {rest : Text} (hrest : EndsNumeral rest) :
    ∀ c ∈ (exponentText exponent ++ rest).head?, c.isDigit = false ∧ c ≠ '.' := by
  cases exponent with
  | none => exact fun c hc => ⟨(hrest c hc).1, (hrest c hc).2.1⟩
  | some e =>
      obtain ⟨letter, sign, hletter, -, hmark, -⟩ := (hexponent e rfl).mark
      intro c hc
      simp only [exponentText, hmark, List.cons_append, List.head?_cons, Option.mem_some_iff] at hc
      subst hc
      rcases hletter with rfl | rfl <;> decide

/-- No digit follows where a fraction may stand. -/
theorem head?_fractionText_append {fraction : Option Text} {after : Text}
    (hafter : ∀ c ∈ after.head?, c.isDigit = false) :
    ∀ c ∈ (fractionText fraction ++ after).head?, c.isDigit = false := by
  cases fraction with
  | none => exact hafter
  | some digits =>
      intro c hc
      simp only [fractionText, List.cons_append, List.head?_cons, Option.mem_some_iff] at hc
      subst hc
      decide

/-- The scanner finds a spelled numeral in front of everything that does not go on with it. -/
theorem scanNumeral?_text {n : Numeral} (hn : n.IsSpelled) {rest : Text}
    (hrest : EndsNumeral rest) : scanNumeral? (n.text ++ rest) = some (n, rest) := by
  -- From the last part to the first, as each must not go on with what follows it.
  have hexponent : scanExponent (exponentText n.exponent ++ rest) = (n.exponent, rest) := by
    cases hcase : n.exponent with
    | none =>
        refine scanExponent_of_head? ⟨fun h => ?_, fun h => ?_⟩
        · exact (hrest _ h).2.2.1 rfl
        · exact (hrest _ h).2.2.2 rfl
    | some e =>
        rw [exponentText, List.append_assoc]
        exact scanExponent_append (hn.exponent e hcase) fun c hc => (hrest c hc).1
  have hafter := head?_exponentText_append hn.exponent hrest
  have hfraction : scanFraction (fractionText n.fraction ++ (exponentText n.exponent ++ rest))
      = (n.fraction, exponentText n.exponent ++ rest) := by
    cases hcase : n.fraction with
    | none => exact scanFraction_of_head? fun h => (hafter _ h).2 rfl
    | some digits =>
        exact scanFraction_append (hn.fraction digits hcase) fun c hc => (hafter c hc).1
  have hdigit : ∀ c ∈ (fractionText n.fraction ++ (exponentText n.exponent ++ rest)).head?,
      c.isDigit = false := head?_fractionText_append fun c hc => (hafter c hc).1
  have hwhole := scanWhole?_append hn.whole hdigit
  rw [Numeral.text_append, scanNumeral?, scanMinus_append _ (isDigits_of_whole hn.whole)]
  simp only [hwhole, hfraction, hexponent, Option.bind_eq_bind, Option.bind_some, Option.pure_def]

/-! ## What the scanner finds -/

/-- What the scanner takes for digits are digits. -/
theorem isDigit_of_scanDigits {text digits rest : Text} (h : scanDigits text = (digits, rest)) :
    ∀ c ∈ digits, c.isDigit = true := by
  intro c hc
  rw [← (Prod.mk.inj h).1] at hc
  exact List.mem_takeWhile_imp hc

/-- What the scanner takes for a whole part is a zero, or starts with another digit. -/
theorem isSpelled_of_scanWhole? {text whole rest : Text}
    (h : scanWhole? text = some (whole, rest)) : whole = ['0'] ∨ IsLeading whole := by
  rw [scanWhole?.eq_def] at h
  split at h
  · exact Or.inl (Prod.mk.inj (Option.some.inj h)).1.symm
  · next c tail hzero =>
    split at h
    · next hc =>
      have hscan := Option.some.inj h
      have hdigits := isDigit_of_scanDigits hscan
      rw [scanDigits, List.takeWhile_cons_of_pos hc] at hscan
      obtain rfl := (Prod.mk.inj hscan).1
      refine Or.inr ⟨⟨List.cons_ne_nil _ _, hdigits⟩, fun hhead => ?_⟩
      exact hzero (by rw [List.head?_cons] at hhead; rw [Option.some.inj hhead])
    · cases h
  · cases h

/-- What the scanner takes for digits stands in front of the rest. -/
theorem eq_append_of_scanDigits {text digits rest : Text} (h : scanDigits text = (digits, rest)) :
    text = digits ++ rest := by
  obtain ⟨rfl, rfl⟩ := Prod.mk.inj h
  exact List.takeWhile_append_dropWhile.symm

/-- What the scanner takes for a whole part stands in front of the rest. -/
theorem eq_append_of_scanWhole? {text whole rest : Text}
    (h : scanWhole? text = some (whole, rest)) : text = whole ++ rest := by
  rw [scanWhole?.eq_def] at h
  split at h
  · obtain ⟨rfl, rfl⟩ := Prod.mk.inj (Option.some.inj h)
    rfl
  · split at h
    · exact eq_append_of_scanDigits (Option.some.inj h)
    · cases h
  · cases h

/-- What the scanner takes for a sign is at most one, and stands in front of the rest. -/
theorem eq_append_of_scanSign {text sign rest : Text} (h : scanSign text = (sign, rest)) :
    text = sign ++ rest ∧ (sign = [] ∨ sign = ['+'] ∨ sign = ['-']) := by
  unfold scanSign at h
  split at h
  · obtain ⟨rfl, rfl⟩ := Prod.mk.inj h
    exact ⟨rfl, Or.inr (Or.inl rfl)⟩
  · obtain ⟨rfl, rfl⟩ := Prod.mk.inj h
    exact ⟨rfl, Or.inr (Or.inr rfl)⟩
  · obtain ⟨rfl, rfl⟩ := Prod.mk.inj h
    exact ⟨rfl, Or.inl rfl⟩

/-- What the scanner takes for a minus sign stands in front of the rest. -/
theorem eq_append_of_scanMinus {text rest : Text} {negative : Bool}
    (h : scanMinus text = (negative, rest)) :
    text = (if negative then ['-'] else []) ++ rest := by
  unfold scanMinus at h
  split at h
  · obtain ⟨rfl, rfl⟩ := Prod.mk.inj h
    rfl
  · obtain ⟨rfl, rfl⟩ := Prod.mk.inj h
    rfl

/-- What the scanner takes for a fraction is one, and stands in front of the rest. -/
theorem eq_append_of_scanFraction {text rest : Text} {fraction : Option Text}
    (h : scanFraction text = (fraction, rest)) :
    text = fractionText fraction ++ rest ∧ ∀ digits ∈ fraction, IsDigits digits := by
  unfold scanFraction at h
  split at h
  · split at h
    · obtain ⟨rfl, rfl⟩ := Prod.mk.inj h
      exact ⟨rfl, nofun⟩
    · next tail digits after hne hscan =>
      obtain ⟨rfl, rfl⟩ := Prod.mk.inj h
      refine ⟨?_, ?_⟩
      · rw [eq_append_of_scanDigits hscan]
        rfl
      · rintro _ ⟨⟩
        exact ⟨hne, isDigit_of_scanDigits hscan⟩
  · obtain ⟨rfl, rfl⟩ := Prod.mk.inj h
    exact ⟨rfl, nofun⟩

/-- What the scanner takes for an exponent is one, and stands in front of the rest. -/
theorem eq_append_of_scanExponent {text rest : Text} {exponent : Option Exponent}
    (h : scanExponent text = (exponent, rest)) :
    text = exponentText exponent ++ rest ∧ ∀ e ∈ exponent, e.IsSpelled := by
  unfold scanExponent at h
  split at h
  · obtain ⟨rfl, rfl⟩ := Prod.mk.inj h
    exact ⟨rfl, fun e he => absurd he (Option.not_mem_none e)⟩
  · next letter tail =>
    split at h
    · next hletter =>
      cases hsign : scanSign tail with
      | mk sign unsigned =>
          simp only [hsign] at h
          obtain ⟨htail, hsigns⟩ := eq_append_of_scanSign hsign
          rcases hscan : scanDigits unsigned with ⟨_ | ⟨digit, digits⟩, after⟩
          · rw [hscan] at h
            obtain ⟨rfl, rfl⟩ := Prod.mk.inj h
            exact ⟨rfl, fun e he => absurd he (Option.not_mem_none e)⟩
          · rw [hscan] at h
            obtain ⟨rfl, rfl⟩ := Prod.mk.inj h
            refine ⟨?_, ?_⟩
            · rw [htail, eq_append_of_scanDigits hscan]
              simp [exponentText]
            · rintro _ ⟨⟩
              refine ⟨⟨letter, sign, hletter, hsigns, rfl, rfl⟩, ?_⟩
              exact ⟨List.cons_ne_nil _ _, isDigit_of_scanDigits hscan⟩
    · obtain ⟨rfl, rfl⟩ := Prod.mk.inj h
      exact ⟨rfl, fun e he => absurd he (Option.not_mem_none e)⟩

/-- What the scanner takes for a numeral is spelled as one, and stands in front of the rest. -/
theorem isSpelled_of_scanNumeral? {text rest : Text} {n : Numeral}
    (h : scanNumeral? text = some (n, rest)) : n.IsSpelled ∧ text = n.text ++ rest := by
  rcases hminus : scanMinus text with ⟨negative, unsigned⟩
  simp only [scanNumeral?, hminus, Option.bind_eq_bind, Option.bind_eq_some_iff, Option.pure_def,
    Option.some.injEq, Prod.exists] at h
  obtain ⟨whole, afterWhole, hwhole, h⟩ := h
  rcases hfraction : scanFraction afterWhole with ⟨fraction, afterFraction⟩
  rcases hexponent : scanExponent afterFraction with ⟨exponent, afterExponent⟩
  simp only [hfraction, hexponent, Prod.mk.injEq] at h
  obtain ⟨rfl, rfl⟩ := h
  obtain ⟨hafterWhole, hfractionDigits⟩ := eq_append_of_scanFraction hfraction
  obtain ⟨hafterFraction, hexponentSpelled⟩ := eq_append_of_scanExponent hexponent
  refine ⟨⟨isSpelled_of_scanWhole? hwhole, hfractionDigits, hexponentSpelled⟩, ?_⟩
  rw [Numeral.text_append, ← hafterFraction, ← hafterWhole, ← eq_append_of_scanWhole? hwhole]
  exact eq_append_of_scanMinus hminus

/-- The whole part of a numeral that the scanner finds is a row of digits. -/
theorem isDigits_whole_of_scanNumeral? {text rest : Text} {n : Numeral}
    (h : scanNumeral? text = some (n, rest)) : IsDigits n.whole :=
  isDigits_of_whole (isSpelled_of_scanNumeral? h).1.whole

end Json

end KeyOrder
