import KeyOrder.Text.CodePoint
/-!
# Lines and blanks

Three notions of a line meet here.  Positions in a document count line feeds
only.  A file that is read has its carriage returns turned into line feeds.  An
ignore file is split at every Unicode line boundary, and its lines are trimmed
of Unicode white space.
-/

namespace KeyOrder

/-! ## Positions in a document -/

/-- A place in a document: line and column from one, offset from zero. -/
structure Position where
  line : Nat
  column : Nat
  offset : Nat
  deriving DecidableEq, Repr

/-- The place of an offset; only a line feed ends a line. -/
def Position.of (text : Text) (offset : Nat) : Position :=
  let before := text.take offset
  { line := before.count '\n' + 1
    column := (before.reverse.takeWhile (· != '\n')).length + 1
    offset := offset }

/-- The place at which `rest`, an end part of `text`, begins. -/
def Position.ofRest (text rest : Text) : Position :=
  Position.of text (text.length - rest.length)

/-! ## Line ends on reading -/

/-- Turns each carriage return, with the line feed after it if there is one, into a line feed. -/
def unifyLineEnds : Text → Text
  | '\r' :: '\n' :: rest => '\n' :: unifyLineEnds rest
  | '\r' :: rest => '\n' :: unifyLineEnds rest
  | c :: rest => c :: unifyLineEnds rest
  | [] => []

/-! ## Unicode lines and white space -/

/-- The characters that end a line in Unicode. -/
def isLineBoundary (c : Char) : Bool :=
  let n := c.toNat
  (0x0A ≤ n && n ≤ 0x0D) || (0x1C ≤ n && n ≤ 0x1E) || n == 0x85 || n == 0x2028 || n == 0x2029

/-- Splits a text at its line boundaries; carriage return and line feed together are one.
`line` is the part of the current line read so far, last character first. -/
def splitLines (line : Text) : Text → List Text
  | '\r' :: '\n' :: rest => line.reverse :: splitLines [] rest
  | c :: rest =>
    if isLineBoundary c then line.reverse :: splitLines [] rest
    else splitLines (c :: line) rest
  | [] => if line.isEmpty then [] else [line.reverse]

/-- The lines of a text; a boundary at the very end opens no further line. -/
def Text.lines (text : Text) : List Text :=
  splitLines [] text

/-- Unicode white space, the four information separators included. -/
def isUnicodeBlank (c : Char) : Bool :=
  let n := c.toNat
  (0x09 ≤ n && n ≤ 0x0D) || (0x1C ≤ n && n ≤ 0x20) || n == 0x85 || n == 0xA0 || n == 0x1680 ||
    (0x2000 ≤ n && n ≤ 0x200A) || n == 0x2028 || n == 0x2029 || n == 0x202F || n == 0x205F ||
    n == 0x3000

/-- Drops the characters of a class from the end. -/
def Text.dropEnd (text : Text) (drop : Char → Bool) : Text :=
  (text.reverse.dropWhile drop).reverse

/-- Drops white space from both ends. -/
def Text.trim (text : Text) : Text :=
  Text.dropEnd (text.dropWhile isUnicodeBlank) isUnicodeBlank

end KeyOrder
