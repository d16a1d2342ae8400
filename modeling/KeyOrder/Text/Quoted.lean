import KeyOrder.Text.Hex
import KeyOrder.Text.Printable
/-!
# Quoted texts

Texts and bytes in quotes, as messages and the names of compound keys show them.
Single quotes are used unless the text holds single quotes and no double ones;
what cannot be shown is written as an escape with as many digits as it needs.
-/

namespace KeyOrder

/-- The quote around items with the given codes. -/
def quoteFor (codes : List Nat) : Char :=
  if codes.contains 39 && !codes.contains 34 then '"' else '\x27'

/-- The escape of a code that cannot be shown. -/
def codeEscape (code : Nat) : Text :=
  if code < 0x100 then '\\' :: 'x' :: hexDigits 2 code
  else if code < 0x10000 then '\\' :: 'u' :: hexDigits 4 code
  else '\\' :: 'U' :: hexDigits 8 code

/-- A code between quotes, shown as it is when `shown` says so. -/
def quotedCode (quote : Char) (shown : Nat → Bool) (code : Nat) : Text :=
  if code = quote.toNat then ['\\', quote]
  else if code = 92 then ['\\', '\\']
  else if code = 9 then ['\\', 't']
  else if code = 10 then ['\\', 'n']
  else if code = 13 then ['\\', 'r']
  else if shown code then [Char.ofNat code]
  else codeEscape code

/-- Codes in quotes. -/
def quotedCodes (shown : Nat → Bool) (codes : List Nat) : Text :=
  let quote := quoteFor codes
  quote :: (codes.flatMap (quotedCode quote shown) ++ [quote])

/-- A text in quotes. -/
def Text.quoted (text : Text) : Text :=
  quotedCodes isPrintable (text.map Char.toNat)

/-- A decoded string in quotes. -/
def CodeText.quoted (s : CodeText) : Text :=
  quotedCodes isPrintable (s.map CodePoint.code)

/-- Bytes in quotes, after the letter that marks them; only visible ASCII is shown as it is. -/
def quotedBytes (bytes : List UInt8) : Text :=
  'b' :: quotedCodes (fun code => 32 ≤ code && code < 127) (bytes.map UInt8.toNat)

end KeyOrder
