import KeyOrder.Text.Hex
import KeyOrder.Json.Numeral
/-!
# Tokens

A document is cut into tokens from left to right, with blanks between them.  The
cutting never fails: where no token starts it stops, and leaves it to the reader
to say what was expected there.  Every token comes with the text that starts at
it, so that a fault can be placed.
-/

namespace KeyOrder.Json

/-! ## Strings -/

/-- What is wrong with a string literal; the text starts at the place of the fault. -/
inductive StringFault where
  /-- The text ends before the closing quote. -/
  | unterminated
  /-- A control character stands in the literal. -/
  | control (place : Text)
  /-- A backslash starts no escape. -/
  | escape (place : Text)
  /-- Four hexadecimal digits and a further character are missing. -/
  | unicodeEscape (place : Text)
  deriving DecidableEq

/-- The character of a short escape. -/
def shortEscape? : Char → Option Char
  | '"' => some '"'
  | '\\' => some '\\'
  | '/' => some '/'
  | 'b' => some '\x08'
  | 'f' => some '\x0c'
  | 'n' => some '\n'
  | 'r' => some '\r'
  | 't' => some '\t'
  | _ => none

/-- The sixteen-bit unit of a long escape, of which `text` is what follows the letter; the text
must go on after the digits. -/
def longEscape? : Text → Option (CodePoint × Text)
  | a :: b :: c :: d :: e :: rest =>
    (hexUnit? a b c d).map fun unit => (CodePoint.ofUnit unit, e :: rest)
  | _ => none

/-- What the start of the rest of a literal is: its end, or one unit. -/
inductive StringPart where
  | close (rest : Text)
  | unit (c : CodePoint) (rest : Text)
  | broken (fault : StringFault)

/-- The first part of the rest of a string literal. -/
def stringPart : Text → StringPart
  | [] => .broken .unterminated
  | '"' :: rest => .close rest
  | ['\\'] => .broken .unterminated
  | '\\' :: 'u' :: rest =>
    match longEscape? rest with
    | some (c, after) => .unit c after
    | none => .broken (.unicodeEscape ('u' :: rest))
  | '\\' :: c :: rest =>
    match shortEscape? c with
    | some d => .unit (.scalar d) rest
    | none => .broken (.escape ('\\' :: c :: rest))
  | c :: rest =>
    if c.toNat < 0x20 then .broken (.control (c :: rest)) else .unit (.scalar c) rest

/-- A part of a literal takes at least one character. -/
theorem length_stringPart_lt {text rest : Text} {c : CodePoint}
    (h : stringPart text = .unit c rest) : rest.length < text.length := by
  unfold stringPart at h
  split at h
  · simp at h
  · simp at h
  · simp at h
  · next tail =>
    unfold longEscape? at h
    split at h
    · next heq =>
      split at heq
      · simp only [Option.map_eq_some_iff] at heq
        obtain ⟨_, _, heq⟩ := heq
        simp only [Prod.mk.injEq] at heq
        simp only [StringPart.unit.injEq] at h
        rw [← h.2, ← heq.2]
        simp only [List.length_cons]
        omega
      · simp at heq
    · simp at h
  · split at h
    · simp only [StringPart.unit.injEq] at h
      rw [← h.2]
      simp only [List.length_cons]
      omega
    · simp at h
  · split at h
    · simp at h
    · simp only [StringPart.unit.injEq] at h
      simp [← h.2]

/-- Closing a literal takes its quote. -/
theorem length_close_le {text rest : Text} (h : stringPart text = .close rest) :
    rest.length ≤ text.length := by
  unfold stringPart at h
  split at h
  · simp at h
  · simp only [StringPart.close.injEq] at h
    simp [h]
  · simp at h
  · split at h <;> simp at h
  · split at h <;> simp at h
  · split at h <;> simp at h

/-- The units of a string literal after its opening quote, and what follows its closing one. -/
def scanUnits (text : Text) : Except StringFault (CodeText × Text) :=
  match _h : stringPart text with
  | .close rest => .ok ([], rest)
  | .broken fault => .error fault
  | .unit c rest => (fun scanned => (c :: scanned.1, scanned.2)) <$> scanUnits rest
termination_by text.length
decreasing_by exact length_stringPart_lt _h

/-- A string literal after its opening quote: escapes of the two halves of a pair are joined. -/
def scanString (text : Text) : Except StringFault (CodeText × Text) :=
  (fun scanned => (CodeText.joinPairs scanned.1, scanned.2)) <$> scanUnits text

/-! ## Tokens -/

/-- The named numbers that some documents use and the standard does not know. -/
inductive Constant where
  | nan
  | infinity
  | minusInfinity
  deriving DecidableEq

/-- A token of a document. -/
inductive Token where
  | objectStart
  | objectEnd
  | arrayStart
  | arrayEnd
  | colon
  | comma
  | null
  | bool (b : Bool)
  | string (s : CodeText)
  | number (n : Numeral)
  | constant (c : Constant)
  deriving DecidableEq

/-- Why no further token follows. -/
inductive Stop where
  /-- The text is at its end. -/
  | ending
  /-- No token starts with the next character. -/
  | unknown
  /-- A string literal is broken. -/
  | broken (fault : StringFault)
  deriving DecidableEq

/-- The token of a character that is a token by itself. -/
def punctuation? : Char → Option Token
  | '{' => some .objectStart
  | '}' => some .objectEnd
  | '[' => some .arrayStart
  | ']' => some .arrayEnd
  | ':' => some .colon
  | ',' => some .comma
  | _ => none

/-- The words of a document; one may be followed by anything. -/
def keywords : List (Text × Token) :=
  [("null".toList, .null), ("true".toList, .bool true), ("false".toList, .bool false),
   ("NaN".toList, .constant .nan), ("Infinity".toList, .constant .infinity),
   ("-Infinity".toList, .constant .minusInfinity)]

/-- What follows a word at the start of a text. -/
def afterWord? : Text → Text → Option Text
  | [], text => some text
  | _ :: _, [] => none
  | w :: word, c :: text => if w = c then afterWord? word text else none

/-- The word at the start of a text as a token, and what follows it. -/
def scanKeyword? (text : Text) : Option (Token × Text) :=
  keywords.findSome? fun entry => (afterWord? entry.1 text).map fun rest => (entry.2, rest)

/-- The token at the start of a text without leading blanks, and what follows it. -/
def scanToken : Text → Except Stop (Token × Text)
  | [] => .error .ending
  | c :: rest =>
    match punctuation? c with
    | some token => .ok (token, rest)
    | none =>
      if c = '"' then
        match scanString rest with
        | .ok (s, after) => .ok (.string s, after)
        | .error fault => .error (.broken fault)
      else
        match scanKeyword? (c :: rest) with
        | some found => .ok found
        | none =>
          match scanNumeral? (c :: rest) with
          | some (n, after) => .ok (.number n, after)
          | none => .error .unknown

/-- The blanks that may stand between tokens. -/
def isBlank (c : Char) : Bool :=
  c = ' ' || c = '\t' || c = '\n' || c = '\r'

/-- A text without its leading blanks. -/
def skipBlanks (text : Text) : Text :=
  text.dropWhile isBlank

/-- The tokens of a document; each item has the text that starts at it. -/
inductive Tokens where
  /-- No further token, and why. -/
  | stop (reason : Stop) (source : Text)
  /-- A token and the tokens after it. -/
  | cons (token : Token) (source : Text) (rest : Tokens)

/-! ## Length -/

/-- A string literal does not lengthen the text. -/
theorem length_scanUnits_le {text rest : Text} {s : CodeText}
    (h : scanUnits text = .ok (s, rest)) : rest.length ≤ text.length := by
  fun_induction scanUnits text generalizing s rest with
  | case1 text after hpart =>
    simp only [Except.ok.injEq, Prod.mk.injEq] at h
    rw [← h.2]
    exact length_close_le hpart
  | case2 => simp at h
  | case3 text c after hpart ih =>
    cases hs : scanUnits after with
    | error f => simp [hs, Functor.map, Except.map] at h
    | ok scanned =>
      obtain ⟨s', rest'⟩ := scanned
      simp only [hs, Functor.map, Except.map, Except.ok.injEq, Prod.mk.injEq] at h
      have h1 := ih hs
      have h2 := length_stringPart_lt hpart
      rw [← h.2]
      omega

/-- A word with at least one character shortens the text. -/
theorem length_afterWord {word text rest : Text} (h : afterWord? word text = some rest) :
    rest.length + word.length = text.length := by
  fun_induction afterWord? word text with
  | case1 => simp_all
  | case2 => simp at h
  | case3 word c text ih => simp only [List.length_cons]; have := ih h; omega
  | case4 => simp at h

/-- A token takes at least one character. -/
theorem length_scanToken_lt {text rest : Text} {token : Token}
    (h : scanToken text = .ok (token, rest)) : rest.length < text.length := by
  cases text with
  | nil => simp [scanToken] at h
  | cons c tail =>
    simp only [scanToken] at h
    split at h
    · simp only [Except.ok.injEq, Prod.mk.injEq] at h
      simp [← h.2]
    · split at h
      · split at h
        · next heq =>
          simp only [Except.ok.injEq, Prod.mk.injEq] at h
          unfold scanString at heq
          cases hs : scanUnits tail with
          | error f => simp [hs, Functor.map, Except.map] at heq
          | ok scanned =>
            obtain ⟨s', rest'⟩ := scanned
            simp only [hs, Functor.map, Except.map, Except.ok.injEq, Prod.mk.injEq] at heq
            have := length_scanUnits_le hs
            rw [← h.2, ← heq.2]
            simp only [List.length_cons]
            omega
        · simp at h
      · split at h
        · next found hk =>
          simp only [Except.ok.injEq] at h
          subst h
          unfold scanKeyword? at hk
          obtain ⟨entry, hmem, hentry⟩ := List.exists_of_findSome?_eq_some hk
          simp only [Option.map_eq_some_iff, Prod.mk.injEq] at hentry
          obtain ⟨after, hafter, _, heq⟩ := hentry
          have hw := length_afterWord hafter
          have : 0 < entry.1.length := by
            simp only [keywords, List.mem_cons, List.not_mem_nil, or_false] at hmem
            rcases hmem with rfl | rfl | rfl | rfl | rfl | rfl <;> decide
          subst heq
          omega
        · split at h
          · next hn =>
            simp only [Except.ok.injEq, Prod.mk.injEq] at h
            rw [← h.2]
            exact length_scanNumeral_lt hn
          · simp at h

/-! ## Cutting a document -/

/-- Cuts a document into its tokens. -/
def Tokens.ofText (text : Text) : Tokens :=
  match _h : scanToken (skipBlanks text) with
  | .error reason => .stop reason (skipBlanks text)
  | .ok (token, rest) => .cons token (skipBlanks text) (ofText rest)
termination_by text.length
decreasing_by
  exact Nat.lt_of_lt_of_le (length_scanToken_lt _h) (length_dropWhile_le isBlank text)

end KeyOrder.Json
