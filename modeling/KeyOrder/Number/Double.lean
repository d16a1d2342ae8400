import KeyOrder.Text.CodePoint
/-!
# Double-precision numbers

The finite magnitudes of double precision stand in a row, from zero to the
greatest one, and a magnitude is its place in that row.  Its value is a whole
number of units, the unit being the least positive magnitude, two to the power
-1074.  A decimal becomes the nearest magnitude, and an exact half goes to the
even neighbour; all of it is exact arithmetic on whole numbers.
-/

namespace KeyOrder

/-- The place of a finite magnitude among all of them, smallest first. -/
abbrev Magnitude := Fin (2047 * Nat.pow 2 52)

/-- A double-precision number. -/
inductive Double where
  /-- A finite number: its sign and its magnitude; zero has a sign too. -/
  | finite (negative : Bool) (magnitude : Magnitude)
  | infinite (negative : Bool)
  | nan
  deriving DecidableEq

/-- The exponent of the unit: a magnitude is a multiple of two to the power `-unitExponent`. -/
def unitExponent : Nat := 1074

/-- The number of units in a magnitude: places below `2 ^ 52` count units one by one, and every
further stretch of `2 ^ 52` places doubles the step. -/
def Magnitude.units (m : Magnitude) : Nat :=
  if m.val < Nat.pow 2 52 then m.val
  else (Nat.pow 2 52 + m.val % Nat.pow 2 52) * Nat.pow 2 (m.val / Nat.pow 2 52 - 1)

/-! ## Rounding -/

/-- The whole number nearest to a quotient; an exact half goes to the even neighbour. -/
def divNearest (num den : Nat) : Nat :=
  let quotient := num / den
  let excess := 2 * (num % den)
  if excess < den then quotient
  else if den < excess then quotient + 1
  else quotient + quotient % 2

/-- The place of the magnitude nearest to `num / den` units, as if the row had no end. -/
def placeNearest (num den : Nat) : Nat :=
  let shift := (num / den).log2 - 52
  shift * Nat.pow 2 52 + divNearest num (den * Nat.pow 2 shift)

/-- The magnitude nearest to a quotient, unless it lies beyond the greatest one. -/
def Magnitude.ofRatio? (num den : Nat) : Option Magnitude :=
  let place := placeNearest (num * Nat.pow 2 unitExponent) den
  if h : place < 2047 * Nat.pow 2 52 then some ⟨place, h⟩ else none

/-! ## Decimals -/

/-- A decimal: `digits` times ten to the power `exponent`. -/
structure Decimal where
  digits : Nat
  exponent : Int
  deriving DecidableEq

/-- The magnitude nearest to a decimal, unless it lies beyond the greatest one.  A power of ten
is computed only where the answer depends on it: no magnitude reaches ten to the power 400, and
what stays below ten to the power -400 rounds to zero. -/
def Decimal.magnitude? (d : Decimal) : Option Magnitude :=
  if d.digits = 0 then Magnitude.ofRatio? 0 1
  else if 400 < d.exponent then none
  else if d.exponent + d.digits.log2 + 1 < -400 then Magnitude.ofRatio? 0 1
  else match d.exponent with
    | .ofNat e => Magnitude.ofRatio? (d.digits * Nat.pow 10 e) 1
    | .negSucc e => Magnitude.ofRatio? d.digits (Nat.pow 10 (e + 1))

/-- The double nearest to a decimal with a sign; it is infinite beyond the greatest one. -/
def Double.ofDecimal (negative : Bool) (d : Decimal) : Double :=
  match d.magnitude? with
  | some m => finite negative m
  | none => infinite negative

end KeyOrder
