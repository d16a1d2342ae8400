import KeyOrder.Text.CodePoint
/-!
# Hexadecimal digits

Code points in escapes are written with a fixed number of lower-case digits and
read in either case.
-/

namespace KeyOrder

/-- The last `places` hexadecimal digits of a number, in lower case. -/
def hexDigits (places : Nat) (n : Nat) : Text :=
  match places with
  | 0 => []
  | rest + 1 => hexDigits rest (n / 16) ++ [Nat.digitChar (n % 16)]

/-- The number that a hexadecimal digit stands for. -/
def hexValue? (c : Char) : Option Nat :=
  if '0' ≤ c ∧ c ≤ '9' then some (c.toNat - 48)
  else if 'a' ≤ c ∧ c ≤ 'f' then some (c.toNat - 87)
  else if 'A' ≤ c ∧ c ≤ 'F' then some (c.toNat - 55)
  else none

/-- The sixteen-bit number that four hexadecimal digits stand for. -/
def hexUnit? (a b c d : Char) : Option Nat := do
  let a ← hexValue? a
  let b ← hexValue? b
  let c ← hexValue? c
  let d ← hexValue? d
  return ((a * 16 + b) * 16 + c) * 16 + d

end KeyOrder
