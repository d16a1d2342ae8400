import KeyOrder.Text.Lines
import KeyOrder.Json.Token
/-!
# Faults of documents

Why a text is no document.  What is expected but missing is reported with its
place; a number outside the standard, too many digits and too many containers
inside one another are reported without one.
-/

namespace KeyOrder.Json

/-- What is wrong at a place of a document. -/
inductive Complaint where
  | byteOrderMark
  | valueExpected
  | keyExpected
  | colonExpected
  | commaExpected
  | extraData
  | unterminatedString
  | controlCharacter
  | badEscape
  | badUnicodeEscape
  deriving DecidableEq

/-- The wording of a complaint. -/
def Complaint.message : Complaint → String
  | byteOrderMark => "Unexpected UTF-8 BOM (decode using utf-8-sig)"
  | valueExpected => "Expecting value"
  | keyExpected => "Expecting property name enclosed in double quotes"
  | colonExpected => "Expecting ':' delimiter"
  | commaExpected => "Expecting ',' delimiter"
  | extraData => "Extra data"
  | unterminatedString => "Unterminated string starting at"
  | controlCharacter => "Invalid control character at"
  | badEscape => "Invalid \\escape"
  | badUnicodeEscape => "Invalid \\uXXXX escape"

/-- The name of a constant in a document. -/
def Constant.name : Constant → String
  | nan => "NaN"
  | infinity => "Infinity"
  | minusInfinity => "-Infinity"

/-- The two kinds of containers. -/
inductive Container where
  | array
  | object
  deriving DecidableEq

/-- Why a text is no document. -/
inductive DecodeError where
  /-- The text is malformed at a place. -/
  | malformed (complaint : Complaint) (position : Position)
  /-- A constant that the standard does not know. -/
  | constant (c : Constant)
  /-- A number beyond the greatest double. -/
  | outOfRange (n : Numeral)
  /-- An integer with more digits than are read. -/
  | tooManyDigits (count : Nat)
  /-- One container too many inside the others. -/
  | tooDeep (container : Container)
  deriving DecidableEq

/-- The wording of a place. -/
def positionMessage (p : Position) : String :=
  "line " ++ toString p.line ++ " column " ++ toString p.column ++
    " (char " ++ toString p.offset ++ ")"

/-- The wording of a fault. -/
def DecodeError.message : DecodeError → String
  | malformed complaint position => complaint.message ++ ": " ++ positionMessage position
  | constant c => "Unexpected non-standard JSON constant " ++ c.name
  | outOfRange n => "Number " ++ String.ofList n.text ++ " is out of range"
  | tooManyDigits count =>
    "Exceeds the limit (" ++ toString maxIntegerDigits ++
      " digits) for integer string conversion: value has " ++ toString count ++
      " digits; use sys.set_int_max_str_digits() to increase the limit"
  | tooDeep .array =>
    "maximum recursion depth exceeded while decoding a JSON array from a unicode string"
  | tooDeep .object =>
    "maximum recursion depth exceeded while decoding a JSON object from a unicode string"

/-- The wording for a document that has more containers inside one another than are handled. -/
def nestedTooDeeply : String :=
  "Document is nested too deeply"

/-- The wording of a fault of a document that is to be sorted. -/
def DecodeError.documentMessage : DecodeError → String
  | tooDeep _ => nestedTooDeeply
  | error => error.message

end KeyOrder.Json
