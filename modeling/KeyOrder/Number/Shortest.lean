import KeyOrder.Text.Lines
import KeyOrder.Number.Digits
import KeyOrder.Number.Double
/-!
# The shortest decimal of a double

A double is written with the fewest digits that read back as the same double,
and of several such decimals with the nearest.  The search goes through the
grids of one to seventeen digits and takes on each the two neighbours of the
value; every candidate is checked by reading it, so the answer reads back
whatever the search does.
-/

namespace KeyOrder

/-! ## The search -/

/-- The power of ten of the first digit of a positive magnitude. -/
def Magnitude.leadingPower (m : Magnitude) : Int :=
  (digitsOfNat (m.units * Nat.pow 10 324 / Nat.pow 2 unitExponent)).length - 325

/-- The two multiples of ten to the power `exponent` around a magnitude, the nearer one first; of
two equally near ones the even one. -/
def Magnitude.neighbours (m : Magnitude) (exponent : Int) : List Decimal :=
  let (num, den) :=
    match exponent with
    | .ofNat e => (m.units, Nat.pow 2 unitExponent * Nat.pow 10 e)
    | .negSucc e => (m.units * Nat.pow 10 (e + 1), Nat.pow 2 unitExponent)
  let below : Decimal := ⟨num / den, exponent⟩
  let above : Decimal := ⟨num / den + 1, exponent⟩
  if divNearest num den = num / den then [below, above] else [above, below]

/-- The decimal that has exactly the value of a magnitude. -/
def Magnitude.exactDecimal (m : Magnitude) : Decimal :=
  ⟨m.units * Nat.pow 5 unitExponent, -unitExponent⟩

/-- The shortest decimal that reads back as a magnitude. -/
def Magnitude.shortest (m : Magnitude) : Decimal :=
  let readsBack (d : Decimal) : Bool := d.magnitude? = some m
  let found := (List.range 17).findSome? fun (places : Nat) =>
    (m.neighbours (m.leadingPower - places)).find? readsBack
  found.getD m.exactDecimal

/-! ## Writing -/

/-- The least power of ten of a first digit that is written without an exponent. -/
def plainFrom : Int := -4

/-- The least power of ten of a first digit that needs an exponent again. -/
def plainBelow : Int := 16

/-- The digits of a decimal without the zeros at their end. -/
def Decimal.shownDigits (d : Decimal) : Text :=
  match Text.dropEnd (digitsOfNat d.digits) (· == '0') with
  | [] => ['0']
  | digits => digits

/-- The power of ten of the first digit of a decimal. -/
def Decimal.power (d : Decimal) : Int :=
  d.exponent + (digitsOfNat d.digits).length - 1

/-- Digits with a point: `power` is the power of ten of the first one. -/
def plainForm (digits : Text) : Int → Text
  | .negSucc zeros => '0' :: '.' :: (List.replicate zeros '0' ++ digits)
  | .ofNat power =>
    let whole := digits.take (power + 1)
    let fraction := digits.drop (power + 1)
    whole ++ List.replicate (power + 1 - digits.length) '0' ++
      '.' :: (if fraction.isEmpty then ['0'] else fraction)

/-- An exponent with its sign and at least two digits. -/
def exponentForm (power : Int) : Text :=
  let digits := digitsOfNat power.natAbs
  'e' :: (if power < 0 then '-' else '+') ::
    (if digits.length < 2 then '0' :: digits else digits)

/-- Digits with the point after the first one, and an exponent. -/
def scientificForm (digits : Text) (power : Int) : Text :=
  let mantissa :=
    match digits with
    | first :: second :: rest => first :: '.' :: second :: rest
    | digits => digits
  mantissa ++ exponentForm power

/-- A decimal as it is written. -/
def Decimal.text (d : Decimal) : Text :=
  if plainFrom ≤ d.power && d.power < plainBelow then plainForm d.shownDigits d.power
  else scientificForm d.shownDigits d.power

/-- A minus sign where one is due. -/
def signText (negative : Bool) : Text :=
  if negative then ['-'] else []

/-- A double as it is written. -/
def Double.text : Double → Text
  | finite negative m =>
    signText negative ++ (if m.val = 0 then "0.0".toList else m.shortest.text)
  | infinite negative => signText negative ++ "inf".toList
  | nan => "nan".toList

end KeyOrder
