import KeyOrder.Json.Error
import KeyOrder.Json.Numeral
import KeyOrder.Text.Lines
/-!
# Integers as they are typed

An integer on a command line may be spelled more freely than in a document:
blanks around it, a plus sign, zeros in front, single underscores between its
digits, and a fraction that is zero.  Each freedom is taken away in turn, a minus
sign being set aside meanwhile; what is left must be an integer as a document has
it.
-/

namespace KeyOrder

/-- White space around an integer; the information separators are none. -/
def isIntegerBlank (c : Char) : Bool :=
  isUnicodeBlank c && !(0x1C ≤ c.toNat && c.toNat ≤ 0x1F)

/-- A text without the blanks around it. -/
def withoutBlanks (text : Text) : Text :=
  Text.dropEnd (text.dropWhile isIntegerBlank) isIntegerBlank

/-- A text without a plus sign, which no minus sign may follow. -/
def withoutPlus? : Text → Option Text
  | '+' :: '-' :: _ => none
  | '+' :: rest => some rest
  | text => some text

/-- What follows zeros and underscores, `last` being the last of them: from the first other digit
or a minus sign on.  The last one stays where a point or nothing follows. -/
def afterZeros? (last : Char) : Text → Option Text
  | [] => some [last]
  | c :: rest =>
    if c = '0' ∨ c = '_' then afterZeros? c rest
    else if c.isDigit ∨ c = '-' then some (c :: rest)
    else if c = '.' then some (last :: c :: rest)
    else none

/-- A text without the zeros in front; it starts with a digit or a minus sign. -/
def withoutZeros? : Text → Option Text
  | [] => none
  | c :: rest =>
    if c = '0' then afterZeros? c rest
    else if c.isDigit ∨ c = '-' then some (c :: rest)
    else none

/-- A text without a point after which zeros stand and nothing else. -/
def withoutZeroFraction (text : Text) : Text :=
  match text.dropWhile (· != '.') with
  | _ :: '0' :: fraction => if fraction.all (· == '0') then text.takeWhile (· != '.') else text
  | _ => text

/-- Whether each underscore stands between two other characters; `ready` says that another
character has just been read. -/
def underscoresSeparate (ready : Bool) : Text → Bool
  | [] => ready
  | c :: rest =>
    if c = '_' then ready && underscoresSeparate false rest else underscoresSeparate true rest

/-- A text without underscores, if each of them separates. -/
def withoutSeparators (text : Text) : Text :=
  if underscoresSeparate false text then text.filter (· != '_') else text

/-- The integer that a text spells as in a document, unless it has too many digits. -/
def plainInteger? (text : Text) : Option Int :=
  match Json.scanNumeral? text with
  | some (n, []) =>
    if n.isInteger && n.whole.length ≤ maxIntegerDigits then some n.int else none
  | _ => none

/-- The minus sign of a text, if it has one, and what follows it. -/
def cutMinus : Text → Text × Text
  | '-' :: rest => (['-'], rest)
  | text => ([], text)

/-- The integer that a text spells as it is typed. -/
def typedInteger? (text : Text) : Option Int := do
  let (sign, size) := cutMinus (← withoutPlus? (withoutBlanks text))
  let digits ← withoutZeros? size
  plainInteger? (sign ++ withoutSeparators (withoutZeroFraction digits))

end KeyOrder
