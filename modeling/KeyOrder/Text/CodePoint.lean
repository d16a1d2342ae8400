/-!
# Texts and code points

A text in a file is a list of characters.  A decoded string can hold more: an
escape may name one half of a surrogate pair, which no character has.  So a
decoded string is a list of code points, and an unpaired half keeps its ten
payload bits.  Paths and patterns may come from decoded strings and are lists of
code points too.  Both kinds of text are ordered by code.
-/

namespace KeyOrder

/-- A text as it stands in a file. -/
abbrev Text := List Char

/-- A code point of a decoded string. -/
inductive CodePoint where
  /-- A character. -/
  | scalar (c : Char)
  /-- The first half of a surrogate pair, with its ten bits. -/
  | leading (bits : Fin 1024)
  /-- The second half of a surrogate pair, with its ten bits. -/
  | trailing (bits : Fin 1024)
  deriving DecidableEq

/-- A decoded string, a path or a pattern. -/
abbrev CodeText := List CodePoint

/-- The decoded string of plain characters. -/
def CodeText.ofText (text : Text) : CodeText :=
  text.map CodePoint.scalar

/-- The character at a code point, if it is one. -/
def CodePoint.char? : CodePoint → Option Char
  | scalar c => some c
  | leading _ => none
  | trailing _ => none

/-- Plain text in the program as a decoded string. -/
abbrev codeText (s : String) : CodeText :=
  CodeText.ofText s.toList

/-- Whether a code point is one half of a pair. -/
def CodePoint.isHalf (c : CodePoint) : Bool :=
  c.char?.isNone

/-- Whether all of a decoded string is characters. -/
def CodeText.isPlain (s : CodeText) : Bool :=
  !s.any CodePoint.isHalf

/-- A code point as it is shown; an unpaired half would take three bytes, none of them sound, and
shows as three replacement characters. -/
def CodePoint.shown : CodePoint → Text
  | scalar c => [c]
  | leading _ => List.replicate 3 '\uFFFD'
  | trailing _ => List.replicate 3 '\uFFFD'

/-- A decoded string as it is shown. -/
def CodeText.shown (s : CodeText) : String :=
  String.ofList (s.flatMap CodePoint.shown)

/-! ## Codes -/

/-- The number of a code point. -/
def CodePoint.code : CodePoint → Nat
  | scalar c => c.toNat
  | leading bits => 0xD800 + bits
  | trailing bits => 0xDC00 + bits

instance : Hashable CodePoint where
  hash c := hash c.code

/-- The code point of a sixteen-bit unit: a surrogate half or a character. -/
def CodePoint.ofUnit (unit : Nat) : CodePoint :=
  if unit / 1024 = 54 then leading (Fin.ofNat 1024 unit)
  else if unit / 1024 = 55 then trailing (Fin.ofNat 1024 unit)
  else scalar (Char.ofNat unit)

/-- The character that a surrogate pair stands for. -/
def pairedChar (first second : Fin 1024) : Char :=
  Char.ofNat (0x10000 + first * 1024 + second)

/-- Joins each first half with a second half right after it. -/
def CodeText.joinPairs : CodeText → CodeText
  | .leading first :: .trailing second :: rest =>
    .scalar (pairedChar first second) :: joinPairs rest
  | c :: rest => c :: joinPairs rest
  | [] => []

/-! ## Order by code -/

/-- The dictionary order that a rank of the items induces; a text comes before its extensions. -/
def dictionaryLe {α : Type} (rank : α → Nat) : List α → List α → Bool
  | [], _ => true
  | _ :: _, [] => false
  | a :: as, b :: bs => rank a < rank b || (rank a == rank b && dictionaryLe rank as bs)

/-- Order of decoded strings by code. -/
def CodeText.le (s t : CodeText) : Bool :=
  dictionaryLe CodePoint.code s t

/-- Order of texts by code. -/
def Text.le (s t : Text) : Bool :=
  dictionaryLe Char.toNat s t

end KeyOrder
