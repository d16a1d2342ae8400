import KeyOrder.Json.Error
import KeyOrder.Json.Value
import KeyOrder.Platform
/-!
# Reading documents

The reader takes one token after another and keeps the containers that are
still open, innermost first, so a value of any nesting is read without
recursion.  `Place` says what may come next; a token that may not is a complaint
at the token.  Documents follow the standard; configuration texts may also hold
the named constants and numbers that overflow to infinity.
-/

namespace KeyOrder.Json

/-- Which numbers a text may hold. -/
inductive Dialect where
  /-- Finite numbers only. -/
  | standard
  /-- The named constants too, and numbers beyond the greatest double count as infinite. -/
  | extended
  deriving DecidableEq

/-! ## Numbers -/

/-- The value of a numeral. -/
def Numeral.value (dialect : Dialect) (n : Numeral) : Except DecodeError Value :=
  if n.isInteger then
    if n.whole.length ≤ maxIntegerDigits then .ok (.int n.int)
    else .error (.tooManyDigits n.whole.length)
  else
    match dialect, n.double with
    | .standard, .infinite _ => .error (.outOfRange n)
    | _, x => .ok (.float x)

/-- The double of a constant. -/
def Constant.double : Constant → Double
  | nan => .nan
  | infinity => .infinite false
  | minusInfinity => .infinite true

/-- The value of a constant. -/
def Constant.value (dialect : Dialect) (c : Constant) : Except DecodeError Value :=
  match dialect with
  | .standard => .error (.constant c)
  | .extended => .ok (.float c.double)

/-! ## Open containers -/

/-- An open container with what it holds so far, last item first. -/
inductive Frame where
  /-- An array. -/
  | items (read : List Value)
  /-- An object and the key whose value is due. -/
  | members (read : List (CodeText × Value)) (key : CodeText)

/-- What may come next, and the containers that are open around it. -/
inductive Place where
  /-- A value. -/
  | value (outer : List Frame)
  /-- A first item or the end of the array. -/
  | firstItem (outer : List Frame)
  /-- A first key or the end of the object. -/
  | firstKey (outer : List Frame)
  /-- A further key. -/
  | key (read : List (CodeText × Value)) (outer : List Frame)
  /-- The colon after a key. -/
  | colon (read : List (CodeText × Value)) (key : CodeText) (outer : List Frame)
  /-- What follows a finished value in its container, or the end of the document. -/
  | after (v : Value) (outer : List Frame)

/-- The complaint about a token or an end that may not come. -/
def Place.complaint : Place → Complaint
  | value _ => .valueExpected
  | firstItem _ => .valueExpected
  | firstKey _ => .keyExpected
  | key _ _ => .keyExpected
  | colon _ _ _ => .colonExpected
  | after _ [] => .extraData
  | after _ (_ :: _) => .commaExpected

/-- Whether a string may come next. -/
def Place.takesString : Place → Bool
  | value _ => true
  | firstItem _ => true
  | firstKey _ => true
  | key _ _ => true
  | colon _ _ _ => false
  | after _ _ => false

/-! ## Steps -/

/-- Opens a container, unless too many are open. -/
def openContainer [Platform] (container : Container) (outer : List Frame) :
    Except DecodeError Place :=
  if outer.length < Platform.maxDepth then
    match container with
    | .array => .ok (.firstItem outer)
    | .object => .ok (.firstKey outer)
  else .error (.tooDeep container)

/-- The place after a token that starts a value; other tokens give none. -/
def startValue [Platform] (dialect : Dialect) (outer : List Frame) :
    Token → Option (Except DecodeError Place)
  | .null => some (.ok (.after .null outer))
  | .bool b => some (.ok (.after (.bool b) outer))
  | .string s => some (.ok (.after (.str s) outer))
  | .number n => some ((n.value dialect).map fun v => .after v outer)
  | .constant c => some ((c.value dialect).map fun v => .after v outer)
  | .arrayStart => some (openContainer .array outer)
  | .objectStart => some (openContainer .object outer)
  | _ => none

/-- The place after a token; tokens that may not come give none. -/
def Place.next [Platform] (dialect : Dialect) : Place → Token → Option (Except DecodeError Place)
  | value outer, token => startValue dialect outer token
  | firstItem outer, .arrayEnd => some (.ok (.after (.list []) outer))
  | firstItem outer, token => startValue dialect (.items [] :: outer) token
  | firstKey outer, .objectEnd => some (.ok (.after (.map []) outer))
  | firstKey outer, .string s => some (.ok (.colon [] s outer))
  | key read outer, .string s => some (.ok (.colon read s outer))
  | colon read k outer, .colon => some (.ok (.value (.members read k :: outer)))
  | after v (.items read :: outer), .comma => some (.ok (.value (.items (v :: read) :: outer)))
  | after v (.items read :: outer), .arrayEnd =>
    some (.ok (.after (.list (v :: read).reverse) outer))
  | after v (.members read k :: outer), .comma => some (.ok (.key ((k, v) :: read) outer))
  | after v (.members read k :: outer), .objectEnd =>
    some (.ok (.after (.ofMembers ((k, v) :: read).reverse) outer))
  | _, _ => none

/-- The complaint about a broken string, and the text that starts at its place; an unclosed
string is placed at its opening quote. -/
def StringFault.complaint (source : Text) : StringFault → Complaint × Text
  | unterminated => (.unterminatedString, source)
  | control rest => (.controlCharacter, rest)
  | escape rest => (.badEscape, rest)
  | unicodeEscape rest => (.badUnicodeEscape, rest)

/-- What comes of a stop: the document, or a complaint with the text that starts at its place. -/
def Place.finish (source : Text) : Place → Stop → Except (Complaint × Text) Value
  | after v [], .ending => .ok v
  | place, .broken fault =>
    if place.takesString then .error (fault.complaint source) else .error (place.complaint, source)
  | place, _ => .error (place.complaint, source)

/-! ## Documents -/

/-- Reads the tokens from a place on; `text` is the whole document. -/
def readTokens [Platform] (dialect : Dialect) (text : Text) :
    Place → Tokens → Except DecodeError Value
  | place, .stop reason source =>
    match place.finish source reason with
    | .ok v => .ok v
    | .error (complaint, rest) => .error (.malformed complaint (Position.ofRest text rest))
  | place, .cons token source rest =>
    match place.next dialect token with
    | some (.ok place') => readTokens dialect text place' rest
    | some (.error e) => .error e
    | none => .error (.malformed place.complaint (Position.ofRest text source))

/-- Reads a text. -/
def decode [Platform] (dialect : Dialect) (text : Text) : Except DecodeError Value :=
  match text with
  | '\uFEFF' :: _ => .error (.malformed .byteOrderMark (Position.of text 0))
  | _ => readTokens dialect text (.value []) (Tokens.ofText text)

/-- Reads a document that is to be sorted or printed. -/
def parseDocument [Platform] (text : Text) : Except DecodeError Value :=
  decode .standard text

end KeyOrder.Json
