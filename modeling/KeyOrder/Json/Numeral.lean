import KeyOrder.Number.Digits
import KeyOrder.Number.Double
/-!
# Numerals

The numbers of a document as they are spelled: a sign, whole digits, and perhaps
a fraction and an exponent.  A numeral without fraction and exponent stands for
an integer, any other for a double.
-/

namespace KeyOrder.Json

/-- An exponent as it is spelled. -/
structure Exponent where
  /-- The letter and, if there is one, the sign after it. -/
  mark : Text
  /-- Whether the sign is a minus. -/
  negative : Bool
  digits : Text
  deriving DecidableEq

/-- A number as it is spelled. -/
structure Numeral where
  negative : Bool
  whole : Text
  /-- The digits after the point. -/
  fraction : Option Text
  exponent : Option Exponent
  deriving DecidableEq

/-- The spelling of a numeral. -/
def Numeral.text (n : Numeral) : Text :=
  (if n.negative then ['-'] else []) ++ n.whole ++
    (match n.fraction with
      | some digits => '.' :: digits
      | none => []) ++
    (match n.exponent with
      | some e => e.mark ++ e.digits
      | none => [])

/-! ## Scanning -/

/-- The digits at the start of a text and what follows them. -/
def scanDigits (text : Text) : Text × Text :=
  (text.takeWhile Char.isDigit, text.dropWhile Char.isDigit)

/-- The whole part of a numeral: a single zero, or digits that start with another one. -/
def scanWhole? : Text → Option (Text × Text)
  | '0' :: rest => some (['0'], rest)
  | c :: rest => if c.isDigit then some (scanDigits (c :: rest)) else none
  | [] => none

/-- A fraction, which needs a digit after its point. -/
def scanFraction (text : Text) : Option Text × Text :=
  match text with
  | '.' :: rest =>
    match scanDigits rest with
    | ([], _) => (none, text)
    | (digits, after) => (some digits, after)
  | _ => (none, text)

/-- The sign of an exponent, if there is one. -/
def scanSign : Text → Text × Text
  | '+' :: rest => (['+'], rest)
  | '-' :: rest => (['-'], rest)
  | text => ([], text)

/-- An exponent, which needs a digit after its letter and sign. -/
def scanExponent (text : Text) : Option Exponent × Text :=
  match text with
  | [] => (none, text)
  | letter :: rest =>
    if letter = 'e' ∨ letter = 'E' then
      let (sign, unsigned) := scanSign rest
      match scanDigits unsigned with
      | ([], _) => (none, text)
      | (digits, after) =>
        (some { mark := letter :: sign, negative := sign = ['-'], digits := digits }, after)
    else (none, text)

/-- The minus sign of a numeral, if there is one. -/
def scanMinus : Text → Bool × Text
  | '-' :: rest => (true, rest)
  | text => (false, text)

/-- The longest numeral at the start of a text, and what follows it. -/
def scanNumeral? (text : Text) : Option (Numeral × Text) := do
  let (negative, unsigned) := scanMinus text
  let (whole, afterWhole) ← scanWhole? unsigned
  let (fraction, afterFraction) := scanFraction afterWhole
  let (exponent, rest) := scanExponent afterFraction
  return ({ negative, whole, fraction, exponent }, rest)

/-! ## Meaning -/

/-- Whether a numeral stands for an integer. -/
def Numeral.isInteger (n : Numeral) : Bool :=
  n.fraction.isNone && n.exponent.isNone

/-- The integer of the sign and the whole part. -/
def Numeral.int (n : Numeral) : Int :=
  if n.negative then -(natOfDigits n.whole : Int) else natOfDigits n.whole

/-- The exponent as a number; none counts as zero. -/
def Numeral.power (n : Numeral) : Int :=
  match n.exponent with
  | some e => if e.negative then -(natOfDigits e.digits : Int) else natOfDigits e.digits
  | none => 0

/-- The magnitude of a numeral as a decimal. -/
def Numeral.decimal (n : Numeral) : Decimal :=
  let fraction := n.fraction.getD []
  { digits := natOfDigits (n.whole ++ fraction)
    exponent := n.power - fraction.length }

/-- The double of a numeral; it is infinite beyond the greatest one. -/
def Numeral.double (n : Numeral) : Double :=
  Double.ofDecimal n.negative n.decimal

/-! ## Length -/

theorem length_dropWhile_le {α : Type} (p : α → Bool) :
    ∀ l : List α, (l.dropWhile p).length ≤ l.length
  | [] => Nat.le_refl _
  | a :: l => by
    rw [List.dropWhile_cons]
    split
    · exact Nat.le_succ_of_le (length_dropWhile_le p l)
    · exact Nat.le_refl _

/-- Scanning a fraction does not lengthen the text. -/
theorem length_scanFraction_le (text : Text) : (scanFraction text).2.length ≤ text.length := by
  unfold scanFraction
  split
  · next rest =>
    have h := length_dropWhile_le Char.isDigit rest
    simp only [scanDigits]
    split
    · exact Nat.le_refl _
    · next heq =>
      simp only [Prod.mk.injEq] at heq
      simp only [List.length_cons]
      rw [← heq.2]
      omega
  · exact Nat.le_refl _

/-- Scanning a sign does not lengthen the text. -/
theorem length_scanSign_le (text : Text) : (scanSign text).2.length ≤ text.length := by
  unfold scanSign
  split <;> simp

/-- Scanning an exponent does not lengthen the text. -/
theorem length_scanExponent_le (text : Text) : (scanExponent text).2.length ≤ text.length := by
  unfold scanExponent
  split
  · exact Nat.le_refl _
  · next letter rest =>
    split
    · have hs := length_scanSign_le rest
      have hd := length_dropWhile_le Char.isDigit (scanSign rest).2
      simp only [scanDigits]
      split
      · exact Nat.le_refl _
      · next heq =>
        simp only [Prod.mk.injEq] at heq
        simp only [List.length_cons]
        rw [← heq.2]
        omega
    · exact Nat.le_refl _

/-- Scanning a minus sign does not lengthen the text. -/
theorem length_scanMinus_le (text : Text) : (scanMinus text).2.length ≤ text.length := by
  unfold scanMinus
  split <;> simp

/-- The whole part of a numeral takes at least one character. -/
theorem length_scanWhole_lt {text whole rest : Text} (h : scanWhole? text = some (whole, rest)) :
    rest.length < text.length := by
  unfold scanWhole? at h
  split at h
  · simp only [Option.some.injEq, Prod.mk.injEq] at h
    simp [← h.2]
  · next c tail _ =>
    split at h
    · next hc =>
      have hd := length_dropWhile_le Char.isDigit tail
      simp only [scanDigits, Option.some.injEq, Prod.mk.injEq, List.dropWhile_cons, hc,
        if_true] at h
      rw [← h.2]
      simp only [List.length_cons]
      omega
    · simp at h
  · simp at h

/-- A numeral takes at least one character. -/
theorem length_scanNumeral_lt {text rest : Text} {n : Numeral}
    (h : scanNumeral? text = some (n, rest)) : rest.length < text.length := by
  unfold scanNumeral? at h
  simp only [Option.bind_eq_bind, Option.bind_eq_some_iff, Option.pure_def, Option.some.injEq,
    Prod.mk.injEq] at h
  obtain ⟨⟨whole, afterWhole⟩, hw, -, hrest⟩ := h
  have h1 := length_scanMinus_le text
  have h2 := length_scanWhole_lt hw
  have h3 := length_scanFraction_le afterWhole
  have h4 := length_scanExponent_le (scanFraction afterWhole).2
  rw [← hrest]
  simp only at *
  omega

end KeyOrder.Json
