import KeyOrder.Json.Layout
import KeyOrder.Json.Value
/-!
# Printing documents

Lists and mappings are printed with one item a line, empty ones as a pair of
brackets.  Every function writes in front of a text that follows, so printing
takes time linear in its output.  Printing itself always gives a text; what a
document cannot hold is found beforehand, in the order in which it would be
printed.
-/

namespace KeyOrder.Json

/-! ## Strings and numbers -/

/-- A code point in a string literal: quotes, backslashes and controls are escaped, and so are
unpaired surrogates; all other characters stand for themselves. -/
def escaped : CodePoint → Text
  | .scalar c =>
    if c = '"' then ['\\', '"']
    else if c = '\\' then ['\\', '\\']
    else if c = '\n' then ['\\', 'n']
    else if c = '\r' then ['\\', 'r']
    else if c = '\t' then ['\\', 't']
    else if c = '\x0c' then ['\\', 'f']
    else if c = '\x08' then ['\\', 'b']
    else if c.toNat < 0x20 then '\\' :: 'u' :: hexDigits 4 c.toNat
    else [c]
  | .leading bits => '\\' :: 'u' :: hexDigits 4 (0xD800 + bits)
  | .trailing bits => '\\' :: 'u' :: hexDigits 4 (0xDC00 + bits)

/-- A string literal. -/
def stringLiteral (s : CodeText) : Text :=
  '"' :: (s.flatMap escaped ++ ['"'])

/-- A truth value. -/
def boolLiteral (b : Bool) : Text :=
  if b then "true".toList else "false".toList

/-- A key between its quotes; keys of other kinds are printed like values of that kind, and
compound keys, which no document has, by name. -/
def keyLiteral : Key → Text
  | .str s => stringLiteral s
  | .null => stringLiteral (codeText "null")
  | .bool b => stringLiteral (CodeText.ofText (boolLiteral b))
  | .int n => stringLiteral (CodeText.ofText (digitsOfInt n))
  | .float x => stringLiteral (CodeText.ofText x.text)
  | key => stringLiteral key.name

/-! ## Values -/

mutual

/-- Prints a value at a level, in front of `rest`. -/
def printValue (layout : Layout) (level : Nat) : Value → Text → Text
  | .null, rest => "null".toList ++ rest
  | .bool b, rest => boolLiteral b ++ rest
  | .int n, rest => digitsOfInt n ++ rest
  | .float x, rest => x.text ++ rest
  | .str s, rest => stringLiteral s ++ rest
  | .list items, rest => printList layout level items rest
  | .tuple items, rest => printList layout level items rest
  | .map [], rest => '{' :: '}' :: rest
  | .map ((key, v) :: members), rest =>
    '{' :: layout.newline (level + 1) (keyLiteral key ++ ':' :: ' ' ::
      printValue layout (level + 1) v
        (printMembers layout (level + 1) members (layout.newline level ('}' :: rest))))
  | .object _ _, rest => rest

/-- Prints items in brackets. -/
def printList (layout : Layout) (level : Nat) : List Value → Text → Text
  | [], rest => '[' :: ']' :: rest
  | v :: items, rest =>
    '[' :: layout.newline (level + 1) (printValue layout (level + 1) v
      (printItems layout (level + 1) items (layout.newline level (']' :: rest))))

/-- Prints the items after the first one. -/
def printItems (layout : Layout) (level : Nat) : List Value → Text → Text
  | [], rest => rest
  | v :: items, rest =>
    ',' :: layout.newline level (printValue layout level v (printItems layout level items rest))

/-- Prints the members after the first one. -/
def printMembers (layout : Layout) (level : Nat) : List (Key × Value) → Text → Text
  | [], rest => rest
  | (key, v) :: members, rest =>
    ',' :: layout.newline level (keyLiteral key ++ ':' :: ' ' ::
      printValue layout level v (printMembers layout level members rest))

end

/-- The printed document, with one line feed at the end. -/
def printDocument (layout : Layout) (v : Value) : Text :=
  printValue layout 0 v ['\n']

/-! ## What cannot be printed -/

/-- Why a value cannot be printed. -/
inductive PrintError where
  /-- No layout has the indentation. -/
  | layout (fault : LayoutFault)
  /-- A number is not finite. -/
  | notFinite (x : Double)
  /-- An integer has too many digits. -/
  | unwritable
  /-- A value of a type that documents do not have. -/
  | value (typeName : String)
  /-- A key of a type that documents do not have. -/
  | key (typeName : String)
  deriving DecidableEq

/-- The wording of a fault. -/
def PrintError.message : PrintError → String
  | layout fault => fault.message
  | notFinite x =>
    "Out of range float values are not JSON compliant: " ++ String.ofList x.text
  | unwritable => unwritableMessage
  | value typeName => "Object of type " ++ typeName ++ " is not JSON serializable"
  | key typeName => "keys must be str, int, float, bool or None, not " ++ typeName

/-- The fault of a number that is not finite. -/
def doubleFault? : Double → Option PrintError
  | .finite _ _ => none
  | x => some (.notFinite x)

/-- The fault of an integer. -/
def intFault? (n : Int) : Option PrintError :=
  if isWritable n then none else some .unwritable

/-- The fault of a key. -/
def keyFault? : Key → Option PrintError
  | .int n => intFault? n
  | .float x => doubleFault? x
  | .bytes _ => some (.key "bytes")
  | .tuple _ => some (.key "tuple")
  | .object typeName _ _ => some (.key typeName)
  | _ => none

mutual

/-- The first fault of a value in the order of printing. -/
def valueFault? : Value → Option PrintError
  | .int n => intFault? n
  | .float x => doubleFault? x
  | .list items => itemFault? items
  | .tuple items => itemFault? items
  | .map members => memberFault? members
  | .object typeName _ => some (.value typeName)
  | _ => none

/-- The first fault among items. -/
def itemFault? : List Value → Option PrintError
  | [] => none
  | v :: items => (valueFault? v).or (itemFault? items)

/-- The first fault among members; a key comes before its value. -/
def memberFault? : List (Key × Value) → Option PrintError
  | [] => none
  | (key, v) :: members =>
    (keyFault? key).or ((valueFault? v).or (memberFault? members))

end

/-- Prints a value in a layout, unless something in it cannot be printed. -/
def format (layout : Layout) (v : Value) : Except PrintError Text :=
  match valueFault? v with
  | some fault => .error fault
  | none => .ok (printDocument layout v)

/-- Prints a value with the indentation asked for; the indentation is checked first. -/
def formatWith (tabs : Bool) (indent : Int) (v : Value) : Except PrintError Text :=
  match Layout.of tabs indent with
  | .error fault => .error (.layout fault)
  | .ok layout => format layout v

end KeyOrder.Json
