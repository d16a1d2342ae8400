import KeyOrder.Text.CodePoint
/-!
# Decimal digits

Whole numbers as decimal digits, and back.
-/

namespace KeyOrder

/-- The number that a digit stands for. -/
def digitValue (c : Char) : Nat :=
  c.toNat - 48

/-- The number that a row of digits stands for. -/
def natOfDigits (digits : Text) : Nat :=
  digits.foldl (fun n c => 10 * n + digitValue c) 0

/-- The decimal digits of a number, without leading zeros. -/
def digitsOfNat (n : Nat) : Text :=
  Nat.toDigits 10 n

/-- The decimal digits of an integer, after a minus sign if it is negative. -/
def digitsOfInt : Int → Text
  | .ofNat n => digitsOfNat n
  | .negSucc n => '-' :: digitsOfNat (n + 1)

/-! ## Digits that are read and written -/

/-- The most digits of an integer that are read or written. -/
def maxIntegerDigits : Nat := 4300

/-- Whether an integer can be written: it has no more digits than that. -/
def isWritable (n : Int) : Bool :=
  (digitsOfNat n.natAbs).length ≤ maxIntegerDigits

/-- The wording for an integer that cannot be written. -/
def unwritableMessage : String :=
  "Exceeds the limit (" ++ toString maxIntegerDigits ++
    " digits) for integer string conversion; use sys.set_int_max_str_digits() to increase the limit"

/-- A text that ends with an integer; what cannot be written is not even begun. -/
def messageWith (start : String) (n : Int) : String :=
  if isWritable n then start ++ toString n else unwritableMessage

end KeyOrder
