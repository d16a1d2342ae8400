import KeyOrder.Number.Digits
/-!
# Layouts

How deep lines are indented: by a tab for each level, or by a number of spaces
that is at least one and not too great for a text.
-/

namespace KeyOrder.Json

/-- The indentation of one level. -/
inductive Layout where
  | tabs
  /-- One space and `more` further ones. -/
  | spaces (more : Nat)
  deriving DecidableEq

/-- Why no layout has a width. -/
inductive LayoutFault where
  /-- The width is not positive. -/
  | notPositive (width : Int)
  /-- The width is no length that a text can have. -/
  | noLength
  /-- There is no memory for a text of this length. -/
  | noMemory
  deriving DecidableEq

/-- The wording of a fault; where memory is short there is none. -/
def LayoutFault.message : LayoutFault → String
  | notPositive width => messageWith "indent must be positive, got " width
  | noLength => "cannot fit 'int' into an index-sized integer"
  | noMemory => ""

/-- The number that is too great for the length of a text. -/
def lengthLimit : Int := Nat.pow 2 63

/-- The number of spaces for which there is no memory. -/
def memoryLimit : Int := Nat.pow 2 36

/-- The layout that was asked for; tabs overrule a width. -/
def Layout.of (tabs : Bool) (indent : Int) : Except LayoutFault Layout :=
  if tabs then .ok .tabs
  else if indent < 1 then .error (.notPositive indent)
  else if lengthLimit ≤ indent then .error .noLength
  else if memoryLimit ≤ indent then .error .noMemory
  else .ok (.spaces (indent.toNat - 1))

/-- The text that indents by one level. -/
def Layout.unit : Layout → Text
  | tabs => ['\t']
  | spaces more => List.replicate (more + 1) ' '

/-- A line feed and the indentation of the next line, in front of `rest`. -/
def Layout.newline (layout : Layout) (level : Nat) (rest : Text) : Text :=
  '\n' :: ((List.replicate level layout.unit).flatten ++ rest)

end KeyOrder.Json
