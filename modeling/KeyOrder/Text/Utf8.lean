import KeyOrder.Text.Hex
/-!
# UTF-8

Encoding of texts as bytes, and decoding that says where and why bytes are no
text.  A decoded string with unpaired halves has no bytes, unless the halves are
let through in some other way; the first one that is not is reported with the
halves right after it.  The decoder reads one byte at a time and keeps how many bytes the current
character still owes and which values the next one may have; so overlong forms
and surrogates fail at the second byte, and the bytes reported are the longest
sound start of the broken character.
-/

namespace KeyOrder.Utf8

/-! ## Encoding -/

/-- The continuation byte that carries the low six bits of `n`. -/
def tail (n : Nat) : UInt8 :=
  UInt8.ofNat (0x80 + n % 64)

/-- The bytes of a character. -/
def encodeChar (c : Char) : List UInt8 :=
  let n := c.toNat
  if n < 0x80 then [UInt8.ofNat n]
  else if n < 0x800 then [UInt8.ofNat (0xC0 + n / 64), tail n]
  else if n < 0x10000 then [UInt8.ofNat (0xE0 + n / 4096), tail (n / 64), tail n]
  else [UInt8.ofNat (0xF0 + n / 262144), tail (n / 4096), tail (n / 64), tail n]

/-- The bytes of a text. -/
def encode (text : Text) : List UInt8 :=
  text.flatMap encodeChar

/-! ## Halves without bytes -/

/-- Unpaired halves that stand together and have no bytes: the place of the first one, and all of
them. -/
structure EncodeFault where
  position : Nat
  halves : CodeText
  deriving DecidableEq

/-- The first half that is not let through, with the halves right after it. -/
def encodeFault? (passes : CodePoint → Bool) (text : CodeText) : Option EncodeFault :=
  match text.dropWhile fun c => !c.isHalf || passes c with
  | [] => none
  | rest =>
    some { position := text.length - rest.length, halves := rest.takeWhile CodePoint.isHalf }

/-! ## Decoding -/

/-- Why bytes are no text. -/
inductive Reason where
  /-- No character starts with this byte. -/
  | start
  /-- The next byte does not continue the character. -/
  | continuation
  /-- The bytes end inside a character. -/
  | ending
  deriving DecidableEq, Repr

/-- A broken character: where it starts, its sound bytes and what is wrong after them. -/
structure Fault where
  position : Nat
  bytes : List UInt8
  reason : Reason
  deriving DecidableEq, Repr

/-- A character of which some bytes have been read. -/
structure Pending where
  /-- The bytes read, last one first. -/
  seen : List UInt8
  /-- The bits read. -/
  bits : Nat
  /-- How many further bytes follow the next one. -/
  owed : Nat
  /-- The least value that the next byte may have. -/
  low : Nat
  /-- The greatest value that the next byte may have. -/
  high : Nat

/-- What a first byte announces: a character of one byte, a longer one, or nothing. -/
def first (b : UInt8) : Option (Char ⊕ Pending) :=
  let n := b.toNat
  if n < 0x80 then some (.inl (Char.ofNat n))
  else if n < 0xC2 then none
  else if n < 0xE0 then some (.inr ⟨[b], n - 0xC0, 0, 0x80, 0xBF⟩)
  else if n = 0xE0 then some (.inr ⟨[b], 0, 1, 0xA0, 0xBF⟩)
  else if n = 0xED then some (.inr ⟨[b], 0xD, 1, 0x80, 0x9F⟩)
  else if n < 0xF0 then some (.inr ⟨[b], n - 0xE0, 1, 0x80, 0xBF⟩)
  else if n = 0xF0 then some (.inr ⟨[b], 0, 2, 0x90, 0xBF⟩)
  else if n < 0xF4 then some (.inr ⟨[b], n - 0xF0, 2, 0x80, 0xBF⟩)
  else if n = 0xF4 then some (.inr ⟨[b], 4, 2, 0x80, 0x8F⟩)
  else none

/-- The character that a next byte completes, or the longer part of it, if the byte may follow. -/
def Pending.next (p : Pending) (b : UInt8) : Option (Char ⊕ Pending) :=
  if p.low ≤ b.toNat && b.toNat ≤ p.high then
    let bits := p.bits * 64 + (b.toNat - 0x80)
    match p.owed with
    | 0 => some (.inl (Char.ofNat bits))
    | owed + 1 => some (.inr ⟨b :: p.seen, bits, owed, 0x80, 0xBF⟩)
  else none

/-- The fault of a part of a character that cannot go on, `position` being the next byte's. -/
def Pending.fault (p : Pending) (position : Nat) (reason : Reason) : Fault :=
  { position := position - p.seen.length, bytes := p.seen.reverse, reason := reason }

/-- Reads the bytes from `position` on, after the part `pending?` of a character. -/
def decodeFrom (position : Nat) (pending? : Option Pending) : List UInt8 → Except Fault Text
  | [] =>
    match pending? with
    | none => .ok []
    | some p => .error (p.fault position .ending)
  | b :: rest =>
    match pending? with
    | none =>
      match first b with
      | none => .error ⟨position, [b], .start⟩
      | some (.inl c) => (c :: ·) <$> decodeFrom (position + 1) none rest
      | some (.inr p) => decodeFrom (position + 1) (some p) rest
    | some p =>
      match p.next b with
      | none => .error (p.fault position .continuation)
      | some (.inl c) => (c :: ·) <$> decodeFrom (position + 1) none rest
      | some (.inr q) => decodeFrom (position + 1) (some q) rest

/-- The text of some bytes, or the first broken character. -/
def decode (bytes : List UInt8) : Except Fault Text :=
  decodeFrom 0 none bytes

/-! ## Wording -/

/-- The wording of a reason. -/
def Reason.message : Reason → String
  | start => "invalid start byte"
  | continuation => "invalid continuation byte"
  | ending => "unexpected end of data"

/-- The wording of halves that have no bytes; a single one is shown, several are counted. -/
def EncodeFault.message (f : EncodeFault) : String :=
  let place :=
    match f.halves with
    | [half] =>
      "character '\\u" ++ String.ofList (hexDigits 4 half.code) ++ "' in position "
        ++ toString f.position
    | halves =>
      "characters in position " ++ toString f.position ++ "-"
        ++ toString (f.position + halves.length - 1)
  "'utf-8' codec can't encode " ++ place ++ ": surrogates not allowed"

/-- The wording of a fault; a single broken byte is shown, several are counted. -/
def Fault.message (f : Fault) : String :=
  let place :=
    match f.bytes with
    | [b] =>
      "byte 0x" ++ String.ofList (hexDigits 2 b.toNat) ++ " in position " ++ toString f.position
    | bytes =>
      "bytes in position " ++ toString f.position ++ "-"
        ++ toString (f.position + bytes.length - 1)
  "'utf-8' codec can't decode " ++ place ++ ": " ++ f.reason.message

end KeyOrder.Utf8
