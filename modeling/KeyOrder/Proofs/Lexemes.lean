import KeyOrder.Json.Print
import KeyOrder.Json.Token
import KeyOrder.Proofs.Shape
import KeyOrder.Proofs.Spelling
/-!
# Lexemes

What the printer writes for strings, numbers and words is cut into the tokens that
they stand for, whatever follows.  Tokens that the scanner finds hold strings
without pairs of halves, and numbers that are rows of digits.
-/

namespace KeyOrder

/-! ## Hexadecimal digits -/

/-- A digit of the printer is read as its number. -/
theorem hexValue?_digitChar : ∀ n < 16, hexValue? (Nat.digitChar n) = some n := by
  decide

namespace Json

/-- Four digits of the printer are read as the unit that they stand for. -/
theorem longEscape?_hexDigits {unit : Nat} (h : unit < 65536) (e : Char) (rest : Text) :
    longEscape? (hexDigits 4 unit ++ e :: rest) = some (CodePoint.ofUnit unit, e :: rest) := by
  have hunit : hexUnit? (Nat.digitChar (unit / 16 / 16 / 16 % 16))
      (Nat.digitChar (unit / 16 / 16 % 16)) (Nat.digitChar (unit / 16 % 16))
      (Nat.digitChar (unit % 16)) = some unit := by
    simp only [hexUnit?, hexValue?_digitChar _ (Nat.mod_lt _ (by decide : 16 > 0)),
      Option.bind_eq_bind, Option.bind_some, Option.pure_def, Option.some.injEq]
    omega
  simp only [hexDigits, List.nil_append, List.cons_append, longEscape?, hunit, Option.map_some]

/-! ## Units of a literal -/

/-- The unit of the code of a half is that half. -/
theorem ofUnit_leading (bits : Fin 1024) : CodePoint.ofUnit (0xD800 + bits) = .leading bits := by
  have hbits := bits.isLt
  rw [CodePoint.ofUnit, if_pos (by omega)]
  congr 1
  apply Fin.ext
  simp only [Fin.ofNat]
  omega

/-- The unit of the code of a half is that half. -/
theorem ofUnit_trailing (bits : Fin 1024) : CodePoint.ofUnit (0xDC00 + bits) = .trailing bits := by
  have hbits := bits.isLt
  rw [CodePoint.ofUnit, if_neg (by omega), if_pos (by omega)]
  congr 1
  apply Fin.ext
  simp only [Fin.ofNat]
  omega

/-- The unit of the code of a control character is that character. -/
theorem ofUnit_control {c : Char} (h : c.toNat < 0x20) : CodePoint.ofUnit c.toNat = .scalar c := by
  rw [CodePoint.ofUnit, if_neg (by omega), if_neg (by omega), Char.ofNat_toNat]

/-- The printer writes a code point as a short escape, as a long one, or, if it is a character that
needs none, as itself. -/
theorem escaped_cases (c : CodePoint) :
    (∃ d e, c = .scalar e ∧ escaped c = ['\\', d] ∧ shortEscape? d = some e) ∨
      (∃ unit < 65536, escaped c = '\\' :: 'u' :: hexDigits 4 unit ∧ CodePoint.ofUnit unit = c) ∨
      ∃ d, c = .scalar d ∧ escaped c = [d] ∧ d ≠ '"' ∧ d ≠ '\\' ∧ ¬ d.toNat < 0x20 := by
  cases c with
  | scalar c =>
      -- The tests of the printer, one after the other.
      rw [escaped]
      by_cases hquote : c = '"'
      · rw [if_pos hquote]
        exact Or.inl ⟨'"', '"', by rw [hquote], rfl, rfl⟩
      rw [if_neg hquote]
      by_cases hslash : c = '\\'
      · rw [if_pos hslash]
        exact Or.inl ⟨'\\', '\\', by rw [hslash], rfl, rfl⟩
      rw [if_neg hslash]
      by_cases hfeed : c = '\n'
      · rw [if_pos hfeed]
        exact Or.inl ⟨'n', '\n', by rw [hfeed], rfl, rfl⟩
      rw [if_neg hfeed]
      by_cases hreturn : c = '\r'
      · rw [if_pos hreturn]
        exact Or.inl ⟨'r', '\r', by rw [hreturn], rfl, rfl⟩
      rw [if_neg hreturn]
      by_cases htab : c = '\t'
      · rw [if_pos htab]
        exact Or.inl ⟨'t', '\t', by rw [htab], rfl, rfl⟩
      rw [if_neg htab]
      by_cases hform : c = '\x0c'
      · rw [if_pos hform]
        exact Or.inl ⟨'f', '\x0c', by rw [hform], rfl, rfl⟩
      rw [if_neg hform]
      by_cases hback : c = '\x08'
      · rw [if_pos hback]
        exact Or.inl ⟨'b', '\x08', by rw [hback], rfl, rfl⟩
      rw [if_neg hback]
      by_cases hcontrol : c.toNat < 0x20
      · rw [if_pos hcontrol]
        exact Or.inr (Or.inl ⟨c.toNat, by omega, rfl, ofUnit_control hcontrol⟩)
      rw [if_neg hcontrol]
      exact Or.inr (Or.inr ⟨c, rfl, rfl, hquote, hslash, hcontrol⟩)
  | leading bits =>
      have hbits := bits.isLt
      exact Or.inr (Or.inl ⟨0xD800 + bits, by omega, rfl, ofUnit_leading bits⟩)
  | trailing bits =>
      have hbits := bits.isLt
      exact Or.inr (Or.inl ⟨0xDC00 + bits, by omega, rfl, ofUnit_trailing bits⟩)

/-- A short escape is one unit. -/
theorem stringPart_shortEscape {d e : Char} (h : shortEscape? d = some e) (rest : Text) :
    stringPart ('\\' :: d :: rest) = .unit (.scalar e) rest := by
  unfold shortEscape? at h
  split at h
  all_goals cases h
  all_goals rfl

/-- A long escape of the printer is one unit. -/
theorem stringPart_longEscape {unit : Nat} (h : unit < 65536) (e : Char) (rest : Text) :
    stringPart ('\\' :: 'u' :: hexDigits 4 unit ++ e :: rest)
      = .unit (CodePoint.ofUnit unit) (e :: rest) := by
  simp only [List.cons_append, stringPart, longEscape?_hexDigits h]

/-- A character that needs no escape is one unit. -/
theorem stringPart_plain {c : Char} (hquote : c ≠ '"') (hslash : c ≠ '\\')
    (hcontrol : ¬ c.toNat < 0x20) (rest : Text) :
    stringPart (c :: rest) = .unit (.scalar c) rest := by
  rw [stringPart.eq_def]
  split
  · next heq => cases heq
  · next heq => exact absurd (List.cons.inj heq).1 hquote
  · next heq => exact absurd (List.cons.inj heq).1 hslash
  · next heq => exact absurd (List.cons.inj heq).1 hslash
  · next heq => exact absurd (List.cons.inj heq).1 hslash
  · next heq =>
    obtain ⟨rfl, rfl⟩ := List.cons.inj heq
    rw [if_neg hcontrol]

/-- What the printer writes for a code point is one unit of a literal that goes on. -/
theorem stringPart_escaped (c : CodePoint) (e : Char) (rest : Text) :
    stringPart (escaped c ++ e :: rest) = .unit c (e :: rest) := by
  rcases escaped_cases c with ⟨d, c, rfl, htext, hshort⟩ | ⟨unit, hunit, htext, rfl⟩ |
    ⟨c, rfl, htext, hquote, hslash, hcontrol⟩
  · rw [htext]
    exact stringPart_shortEscape hshort _
  · rw [htext]
    exact stringPart_longEscape hunit e rest
  · rw [htext]
    exact stringPart_plain hquote hslash hcontrol _

/-! ## Literals -/

/-- A unit of a literal is taken, and the literal goes on after it. -/
theorem scanUnits_of_unit {text rest : Text} {c : CodePoint} (h : stringPart text = .unit c rest) :
    scanUnits text = (fun scanned => (c :: scanned.1, scanned.2)) <$> scanUnits rest := by
  rw [scanUnits]
  split
  · next hclose => rw [h] at hclose; cases hclose
  · next hbroken => rw [h] at hbroken; cases hbroken
  · next hunit =>
    rw [h] at hunit
    obtain ⟨rfl, rfl⟩ := StringPart.unit.inj hunit
    rfl

/-- A closing quote ends the units. -/
theorem scanUnits_of_close {text rest : Text} (h : stringPart text = .close rest) :
    scanUnits text = .ok ([], rest) := by
  rw [scanUnits]
  split
  · next hclose =>
    obtain rfl := StringPart.close.inj (h.symm.trans hclose)
    rfl
  · next hbroken => rw [h] at hbroken; cases hbroken
  · next hunit => rw [h] at hunit; cases hunit

/-- A fault is found where it stands. -/
theorem scanUnits_of_broken {text : Text} {fault : StringFault}
    (h : stringPart text = .broken fault) : scanUnits text = .error fault := by
  rw [scanUnits]
  split
  · next hclose => rw [h] at hclose; cases hclose
  · next hbroken =>
    obtain rfl := StringPart.broken.inj (h.symm.trans hbroken)
    rfl
  · next hunit => rw [h] at hunit; cases hunit

/-- The units that the printer writes are read as they were, up to the closing quote. -/
theorem scanUnits_escaped (s : CodeText) (rest : Text) :
    scanUnits (s.flatMap escaped ++ '"' :: rest) = .ok (s, rest) := by
  induction s with
  | nil => exact scanUnits_of_close rfl
  | cons c s ih =>
      -- The closing quote at least follows the first unit.
      obtain ⟨e, tail, htail⟩ := List.exists_cons_of_ne_nil
        (List.append_ne_nil_of_right_ne_nil (s.flatMap escaped) (List.cons_ne_nil '"' rest))
      rw [List.flatMap_cons, List.append_assoc]
      rw [htail] at ih ⊢
      rw [scanUnits_of_unit (stringPart_escaped c e tail), ih]
      rfl

/-- A printed literal is read as its string if no halves in it make a pair. -/
theorem scanString_escaped {s : CodeText} (hs : s.IsJoined) (rest : Text) :
    scanString (s.flatMap escaped ++ '"' :: rest) = .ok (s, rest) := by
  rw [scanString, scanUnits_escaped]
  show Except.ok (CodeText.joinPairs s, rest) = _
  rw [CodeText.joinPairs_of_isJoined hs]

/-! ## Tokens -/

/-- A printed literal is the token of its string. -/
theorem scanToken_stringLiteral {s : CodeText} (hs : s.IsJoined) (rest : Text) :
    scanToken (stringLiteral s ++ rest) = .ok (.string s, rest) := by
  have hquote : punctuation? '"' = none := rfl
  rw [stringLiteral, List.cons_append, List.append_assoc, List.singleton_append]
  simp only [scanToken, hquote, if_true, scanString_escaped hs]

/-- A word is its token, whatever follows. -/
theorem scanToken_null (rest : Text) : scanToken ("null".toList ++ rest) = .ok (.null, rest) := by
  rfl

/-- A printed truth value is its token, whatever follows. -/
theorem scanToken_boolLiteral (b : Bool) (rest : Text) :
    scanToken (boolLiteral b ++ rest) = .ok (.bool b, rest) := by
  cases b <;> rfl

/-- A character that is a token is that token, whatever follows. -/
theorem scanToken_punctuation {c : Char} {token : Token} (h : punctuation? c = some token)
    (rest : Text) : scanToken (c :: rest) = .ok (token, rest) := by
  simp only [scanToken, h]

/-- No token but a number starts with a digit. -/
theorem punctuation?_of_isDigit {c : Char} (hc : c.isDigit = true) : punctuation? c = none := by
  unfold punctuation?
  split
  all_goals first
    | rfl
    | exact absurd hc (by decide)

/-- A word does not start with another character than its first one. -/
theorem afterWord?_of_ne {w c : Char} (h : w ≠ c) (word text : Text) :
    afterWord? (w :: word) (c :: text) = none := by
  rw [afterWord?, if_neg h]

/-- No word starts with a digit, or with a minus sign and a digit. -/
theorem scanKeyword?_of_isDigit {d : Char} (hd : d.isDigit = true) (text : Text) :
    scanKeyword? (d :: text) = none ∧ scanKeyword? ('-' :: d :: text) = none := by
  have hne : ∀ w : Char, w.isDigit = false → w ≠ d := by
    rintro w hw rfl
    rw [hd] at hw
    cases hw
  constructor
  · rw [scanKeyword?, List.findSome?_eq_none_iff]
    intro entry hentry
    have hhead : ∀ entry ∈ keywords, ∃ w word, entry.1 = w :: word ∧ w.isDigit = false := by
      simp [keywords]
    obtain ⟨w, word, hword, hw⟩ := hhead entry hentry
    rw [hword, afterWord?_of_ne (hne w hw), Option.map_none]
  · have hminus : scanKeyword? ('-' :: d :: text)
        = (afterWord? "Infinity".toList (d :: text)).map fun rest =>
            (.constant .minusInfinity, rest) := by
      simp [scanKeyword?, keywords, afterWord?]
    rw [hminus]
    exact congrArg _ (afterWord?_of_ne (hne 'I' rfl) _ _)

/-- A spelled numeral is its token in front of everything that does not go on with it. -/
theorem scanToken_text {n : Numeral} (hn : n.IsSpelled) {rest : Text} (hrest : EndsNumeral rest) :
    scanToken (n.text ++ rest) = .ok (.number n, rest) := by
  have hscan := scanNumeral?_text hn hrest
  -- The first digit, perhaps after a minus sign, rules out every other token.
  obtain ⟨d, whole, hwhole⟩ := List.exists_cons_of_ne_nil (isDigits_of_whole hn.whole).1
  have hd : d.isDigit = true := by
    refine (isDigits_of_whole hn.whole).2 d ?_
    rw [hwhole]
    exact List.mem_cons_self
  rw [Numeral.text_append, hwhole, List.cons_append] at hscan ⊢
  generalize whole ++ (fractionText n.fraction ++ (exponentText n.exponent ++ rest)) = after
    at hscan ⊢
  obtain ⟨hdigit, hminus⟩ := scanKeyword?_of_isDigit hd after
  cases hnegative : n.negative with
  | false =>
      rw [hnegative] at hscan
      rw [if_neg Bool.false_ne_true, List.nil_append] at hscan ⊢
      have hquote : d ≠ '"' := by
        rintro rfl
        cases hd
      simp only [scanToken, punctuation?_of_isDigit hd, if_neg hquote, hdigit, hscan]
  | true =>
      rw [hnegative] at hscan
      rw [if_pos rfl, List.singleton_append] at hscan ⊢
      have hpunctuation : punctuation? '-' = none := rfl
      have hquote : '-' ≠ '"' := by decide
      simp only [scanToken, hpunctuation, if_neg hquote, hminus, hscan]

/-! ## What the scanner finds -/

/-- No token starts with a blank. -/
theorem scanToken_of_isBlank {c : Char} (h : isBlank c = true) (rest : Text) :
    scanToken (c :: rest) = .error .unknown := by
  have hc : ((c = ' ' ∨ c = '\t') ∨ c = '\n') ∨ c = '\r' := by
    simpa only [isBlank, Bool.or_eq_true, decide_eq_true_eq] using h
  rcases hc with ((rfl | rfl) | rfl) | rfl <;> rfl

/-- In front of a token there are no blanks. -/
theorem skipBlanks_of_scanToken {text : Text} {found : Token × Text}
    (h : scanToken text = .ok found) : skipBlanks text = text := by
  cases text with
  | nil => rfl
  | cons c rest =>
      refine List.dropWhile_cons_of_neg fun hblank => ?_
      rw [scanToken_of_isBlank hblank] at h
      cases h

/-- What every token that the scanner finds is like. -/
def Token.IsSound : Token → Prop
  | .string s => s.IsJoined
  | .number n => IsDigits n.whole
  | _ => True

/-- The string of a literal holds no pair of halves. -/
theorem isJoined_of_scanString {text rest : Text} {s : CodeText}
    (h : scanString text = .ok (s, rest)) : s.IsJoined := by
  cases hunits : scanUnits text with
  | error fault => rw [scanString, hunits] at h; cases h
  | ok scanned =>
      rw [scanString, hunits] at h
      obtain ⟨rfl, -⟩ := Prod.mk.inj (Except.ok.inj h)
      exact CodeText.isJoined_joinPairs scanned.1

/-- Tokens of one character are sound. -/
theorem isSound_of_punctuation? {c : Char} {token : Token} (h : punctuation? c = some token) :
    token.IsSound := by
  unfold punctuation? at h
  split at h
  all_goals cases h
  all_goals trivial

/-- The tokens that the scanner finds are sound. -/
theorem isSound_of_scanToken {text rest : Text} {token : Token}
    (h : scanToken text = .ok (token, rest)) : token.IsSound := by
  rw [scanToken.eq_def] at h
  split at h
  · cases h
  split at h
  · next hpunctuation =>
    obtain ⟨rfl, -⟩ := Prod.mk.inj (Except.ok.inj h)
    exact isSound_of_punctuation? hpunctuation
  split at h
  · split at h
    · next hstring =>
      obtain ⟨rfl, -⟩ := Prod.mk.inj (Except.ok.inj h)
      exact isJoined_of_scanString hstring
    · cases h
  split at h
  · next found hfound =>
    obtain rfl := Except.ok.inj h
    obtain ⟨entry, hentry, hmap⟩ := List.exists_of_findSome?_eq_some hfound
    obtain ⟨after, -, heq⟩ := Option.map_eq_some_iff.mp hmap
    obtain ⟨rfl, -⟩ := Prod.mk.inj heq
    have hsound : ∀ entry ∈ keywords, entry.2.IsSound := by
      simp [keywords, Token.IsSound]
    exact hsound entry hentry
  split at h
  · next hnumeral =>
    obtain ⟨rfl, -⟩ := Prod.mk.inj (Except.ok.inj h)
    exact isDigits_whole_of_scanNumeral? hnumeral
  · cases h

end Json

end KeyOrder
