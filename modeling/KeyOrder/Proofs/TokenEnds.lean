import KeyOrder.Proofs.Reading
import KeyOrder.Proofs.Segments
import KeyOrder.Proofs.Uncommented
/-!
# Where tokens end

A token that stands at the start of a text is the same token in front of other texts.
A string literal ends at its own closing quote, whatever follows; a word, which is a
number or a keyword, ends in front of everything that does not go on with a number.
After a word there can only be a comma, a closing bracket, or the end.
-/

namespace KeyOrder

/-- A hexadecimal digit is neither a quote nor a backslash. -/
theorem ne_of_hexValue? {c : Char} {n : Nat} (h : hexValue? c = some n) : c ≠ '"' ∧ c ≠ '\\' := by
  constructor
  · rintro rfl
    cases h
  · rintro rfl
    cases h

/-! ## Open and closed literals -/

namespace Comment

/-- A part of a literal after which it goes on, for both readers of literals. -/
structure LeavesOpen (part : Text) : Prop where
  cut : ∀ more, cutLiteral (part ++ more)
    = (part ++ (cutLiteral more).1, (cutLiteral more).2)
  after : ∀ more, afterLiteral? (part ++ more) = afterLiteral? more

/-- The end of a literal, for both readers of literals. -/
structure Closes (part : Text) : Prop where
  cut : ∀ more, cutLiteral (part ++ more) = (part, more)
  after : ∀ more, afterLiteral? (part ++ more) = some more

/-- A character that is neither a quote nor a backslash leaves a literal open. -/
theorem leavesOpen_plain {c : Char} (hquote : c ≠ '"') (hslash : c ≠ '\\') : LeavesOpen [c] where
  cut more := cutLiteral_cons hquote hslash more
  after more := afterLiteral?_cons hquote hslash more

/-- An escaped character that is no line feed leaves a literal open. -/
theorem leavesOpen_escape {c : Char} (hc : c ≠ '\n') : LeavesOpen ['\\', c] where
  cut _ := rfl
  after more := afterLiteral?_escape hc more

/-- A literal that is open after one part and after another is open after both. -/
theorem LeavesOpen.append {part part' : Text} (h : LeavesOpen part) (h' : LeavesOpen part') :
    LeavesOpen (part ++ part') where
  cut more := by rw [List.append_assoc, h.cut, h'.cut, List.append_assoc]
  after more := by rw [List.append_assoc, h.after, h'.after]

/-- A quote closes a literal. -/
theorem closes_quote : Closes ['"'] where
  cut _ := rfl
  after _ := rfl

/-- A literal that is open after one part is closed by its end. -/
theorem LeavesOpen.closes {part part' : Text} (h : LeavesOpen part) (h' : Closes part') :
    Closes (part ++ part') where
  cut more := by rw [List.append_assoc, h.cut, h'.cut]
  after more := by rw [List.append_assoc, h.after, h'.after]

end Comment

namespace Json

/-! ## String literals -/

/-- A literal is closed by a quote. -/
theorem eq_cons_of_close {text rest : Text} (h : stringPart text = .close rest) :
    text = '"' :: rest := by
  unfold stringPart at h
  split at h
  · cases h
  · rw [StringPart.close.inj h]
  · cases h
  · split at h <;> cases h
  · split at h <;> cases h
  · split at h <;> cases h

/-- A unit of a literal is the same unit wherever the literal goes on with the same character, and
leaves the literal open. -/
theorem exists_unit_of_stringPart {text rest : Text} {c : CodePoint}
    (h : stringPart text = .unit c rest) :
    ∃ unit, text = unit ++ rest ∧ Comment.LeavesOpen unit ∧
      ∀ e ∈ rest.head?, ∀ tail, stringPart (unit ++ e :: tail) = .unit c (e :: tail) := by
  unfold stringPart at h
  split at h
  · cases h
  · cases h
  · cases h
  · -- A long escape: its four digits do not end a literal.
    next tail =>
    split at h
    · next scanned after hescape =>
      obtain ⟨rfl, rfl⟩ := StringPart.unit.inj h
      unfold longEscape? at hescape
      split at hescape
      · next d₁ d₂ d₃ d₄ e rest =>
        obtain ⟨unit, hunit, hfound⟩ := Option.map_eq_some_iff.mp hescape
        obtain ⟨rfl, rfl⟩ := Prod.mk.inj hfound
        have hdigits := hunit
        simp only [hexUnit?, Option.bind_eq_bind, Option.bind_eq_some_iff] at hdigits
        obtain ⟨_, h₁, _, h₂, _, h₃, _, h₄, -⟩ := hdigits
        have hopen : ∀ {d n}, hexValue? d = some n → Comment.LeavesOpen [d] :=
          fun hd => Comment.leavesOpen_plain (ne_of_hexValue? hd).1 (ne_of_hexValue? hd).2
        have hletter : Comment.LeavesOpen ['\\', 'u'] := Comment.leavesOpen_escape (by decide)
        refine ⟨['\\', 'u', d₁, d₂, d₃, d₄], rfl, ?_, ?_⟩
        · exact hletter.append
            ((hopen h₁).append ((hopen h₂).append ((hopen h₃).append (hopen h₄))))
        · rintro _ ⟨⟩ tail
          simp only [List.cons_append, List.nil_append, stringPart, longEscape?, hunit,
            Option.map_some]
      · cases hescape
    · cases h
  · -- A short escape.
    next d tail hu =>
    split at h
    · next found hshort =>
      obtain ⟨rfl, rfl⟩ := StringPart.unit.inj h
      refine ⟨['\\', d], rfl, Comment.leavesOpen_escape ?_, ?_⟩
      · rintro rfl
        cases hshort
      · intro e _ tail'
        exact stringPart_shortEscape hshort _
    · cases h
  · -- A character that stands for itself.
    next d tail hquote hlast hlong hshort =>
    split at h
    · cases h
    · next hcontrol =>
      obtain ⟨rfl, rfl⟩ := StringPart.unit.inj h
      have hslash : d ≠ '\\' := by
        rintro rfl
        cases tail with
        | nil => exact hlast rfl rfl
        | cons e tail => exact hshort e tail rfl rfl
      refine ⟨[d], rfl, Comment.leavesOpen_plain (fun h => hquote h) hslash, ?_⟩
      intro e _ tail'
      exact stringPart_plain (fun h => hquote h) hslash hcontrol _

/-- The units of a literal are the same whatever follows the literal, which they close. -/
theorem exists_literal_of_scanUnits {text rest : Text} {s : CodeText}
    (h : scanUnits text = .ok (s, rest)) :
    ∃ literal, text = literal ++ rest ∧ literal ≠ [] ∧ Comment.Closes literal ∧
      ∀ more, scanUnits (literal ++ more) = .ok (s, more) := by
  fun_induction scanUnits text generalizing s rest with
  | case1 text after hclose =>
      obtain ⟨rfl, rfl⟩ := Prod.mk.inj (Except.ok.inj h)
      exact ⟨['"'], eq_cons_of_close hclose, List.cons_ne_nil _ _, Comment.closes_quote,
        fun more => scanUnits_of_close rfl⟩
  | case2 => cases h
  | case3 text c after hunit ih =>
      cases hscan : scanUnits after with
      | error fault => rw [hscan] at h; cases h
      | ok scanned =>
          obtain ⟨s', rest'⟩ := scanned
          rw [hscan] at h
          obtain ⟨rfl, rfl⟩ := Prod.mk.inj (Except.ok.inj h)
          obtain ⟨literal, rfl, hne, hcloses, hliteral⟩ := ih hscan
          obtain ⟨unit, rfl, hopen, hsame⟩ := exists_unit_of_stringPart hunit
          refine ⟨unit ++ literal, (List.append_assoc _ _ _).symm,
            List.append_ne_nil_of_right_ne_nil _ hne, hopen.closes hcloses, fun more => ?_⟩
          obtain ⟨e, tail, rfl⟩ := List.exists_cons_of_ne_nil hne
          have hunit' := hsame e rfl (tail ++ more)
          rw [List.append_assoc, List.cons_append, scanUnits_of_unit hunit', ← List.cons_append,
            hliteral more]
          rfl

/-- A string literal is the same token whatever follows it, and is closed. -/
theorem exists_literal_of_scanToken {text rest : Text} {token : Token}
    (h : scanToken ('"' :: text) = .ok (token, rest)) :
    ∃ literal s, token = .string s ∧ text = literal ++ rest ∧ Comment.Closes literal ∧
      ∀ more, scanToken ('"' :: (literal ++ more)) = .ok (token, more) := by
  have hquote : punctuation? '"' = none := rfl
  simp only [scanToken, hquote, if_true] at h
  split at h
  · next s after hscan =>
    obtain ⟨rfl, rfl⟩ := Prod.mk.inj (Except.ok.inj h)
    cases hunits : scanUnits text with
    | error fault => rw [scanString, hunits] at hscan; cases hscan
    | ok scanned =>
        obtain ⟨units, after⟩ := scanned
        rw [scanString, hunits] at hscan
        obtain ⟨rfl, rfl⟩ := Prod.mk.inj (Except.ok.inj hscan)
        obtain ⟨literal, htext, -, hcloses, hliteral⟩ := exists_literal_of_scanUnits hunits
        refine ⟨literal, _, rfl, htext, hcloses, fun more => ?_⟩
        have hscan' : scanString (literal ++ more) = .ok (CodeText.joinPairs units, more) := by
          rw [scanString, hliteral more]
          rfl
        simp only [scanToken, hquote, if_true, hscan']
  · cases h

/-! ## Words -/

/-- The characters of numbers and keywords, and all others that are neither blanks, nor quotes, nor
tokens by themselves. -/
def isWordChar (c : Char) : Bool :=
  !isBlank c && c != '"' && (punctuation? c).isNone

/-- A character of a word is no blank, no quote and no token by itself. -/
theorem isWordChar_iff {c : Char} :
    isWordChar c = true ↔ isBlank c = false ∧ c ≠ '"' ∧ punctuation? c = none := by
  simp [isWordChar, and_assoc]

/-- Digits are characters of words. -/
theorem isWordChar_of_isDigit {c : Char} (h : c.isDigit = true) : isWordChar c = true := by
  refine isWordChar_iff.mpr ⟨?_, ?_, punctuation?_of_isDigit h⟩
  · rw [Bool.eq_false_iff]
    intro hblank
    have hc : ((c = ' ' ∨ c = '\t') ∨ c = '\n') ∨ c = '\r' := by
      simpa only [isBlank, Bool.or_eq_true, decide_eq_true_eq] using hblank
    rcases hc with ((rfl | rfl) | rfl) | rfl <;> cases h
  · rintro rfl
    cases h

/-- Everything but a digit, a point and the letter of an exponent ends a numeral. -/
theorem endsNumeral_of_not_isWordChar {rest : Text} (h : ∀ c ∈ rest.head?, isWordChar c = false) :
    EndsNumeral rest := by
  intro c hc
  have hword := h c hc
  refine ⟨?_, ?_, ?_, ?_⟩
  · by_contra hdigit
    rw [isWordChar_of_isDigit (by simpa using hdigit)] at hword
    cases hword
  all_goals
    rintro rfl
    revert hword
    decide

/-- A spelled numeral is made of characters of words. -/
theorem isWordChar_of_mem_text {n : Numeral} (hn : n.IsSpelled) :
    ∀ c ∈ n.text, isWordChar c = true :=
  Numeral.forall_mem_text hn (fun _ => isWordChar_of_isDigit)
    (by simp [isWordChar, isBlank, punctuation?])

/-- A word at the start of a text stands in front of the rest. -/
theorem eq_append_of_afterWord? {word text rest : Text} (h : afterWord? word text = some rest) :
    text = word ++ rest := by
  fun_induction afterWord? word text with
  | case1 => rw [Option.some.inj h, List.nil_append]
  | case2 => cases h
  | case3 c word text ih => rw [ih h, List.cons_append]
  | case4 => cases h

/-- The tokens that are words. -/
def Token.isWord : Token → Bool
  | .null => true
  | .bool _ => true
  | .number _ => true
  | .constant _ => true
  | _ => false

/-- A keyword is the same token whatever follows it, and is plain. -/
theorem exists_word_of_scanKeyword? {text rest : Text} {token : Token}
    (h : scanKeyword? text = some (token, rest)) :
    token.isWord = true ∧ ∃ word, text = word ++ rest ∧ word ≠ [] ∧
      (∀ c ∈ word, isWordChar c = true) ∧ Comment.IsPlain word ∧
      ∀ more, scanToken (word ++ more) = .ok (token, more) := by
  obtain ⟨entry, hentry, hfound⟩ := List.exists_of_findSome?_eq_some h
  obtain ⟨after, hafter, hpair⟩ := Option.map_eq_some_iff.mp hfound
  obtain ⟨rfl, rfl⟩ := Prod.mk.inj hpair
  have hkeywords : ∀ entry ∈ keywords, entry.2.isWord = true ∧ entry.1 ≠ [] ∧
      entry.1.all isWordChar = true ∧ Comment.IsPlain entry.1 ∧
      ∀ more, scanToken (entry.1 ++ more) = .ok (entry.2, more) := by
    simp only [keywords, List.forall_mem_cons]
    refine ⟨?_, ?_, ?_, ?_, ?_, ?_, List.forall_mem_nil _⟩
    all_goals
      exact ⟨rfl, List.cons_ne_nil _ _, rfl, Comment.isPlain_of_all rfl, fun more => rfl⟩
  obtain ⟨hword, hne, hchars, hplain, hmore⟩ := hkeywords entry hentry
  exact ⟨hword, entry.1, eq_append_of_afterWord? hafter, hne, List.all_eq_true.mp hchars, hplain,
    hmore⟩

/-- What starts with a character of a word is a word if it is a token, and the same one in front of
everything that does not go on with a numeral.  A word is plain. -/
theorem exists_word_of_scanToken {c : Char} {text rest : Text} {token : Token}
    (hc : isWordChar c = true) (h : scanToken (c :: text) = .ok (token, rest)) :
    token.isWord = true ∧ ∃ word, text = word ++ rest ∧ (∀ d ∈ word, isWordChar d = true) ∧
      Comment.IsPlain (c :: word) ∧
      ∀ more, EndsNumeral more → scanToken (c :: (word ++ more)) = .ok (token, more) := by
  obtain ⟨-, hquote, hpunctuation⟩ := isWordChar_iff.mp hc
  -- It is enough to find the whole word, of which `c` is the first character.
  suffices hwhole : token.isWord = true ∧ ∃ word, c :: text = word ++ rest ∧ word ≠ [] ∧
      (∀ d ∈ word, isWordChar d = true) ∧ Comment.IsPlain word ∧
      ∀ more, EndsNumeral more → scanToken (word ++ more) = .ok (token, more) by
    obtain ⟨htoken, word, htext, hne, hchars, hplain, hmore⟩ := hwhole
    obtain ⟨d, word, rfl⟩ := List.exists_cons_of_ne_nil hne
    obtain ⟨rfl, rfl⟩ := List.cons.inj htext
    exact ⟨htoken, word, rfl, (List.forall_mem_cons.mp hchars).2, hplain, hmore⟩
  simp only [scanToken, hpunctuation, if_neg hquote] at h
  split at h
  · next found hkeyword =>
    obtain rfl := Except.ok.inj h
    obtain ⟨htoken, word, htext, hne, hchars, hplain, hmore⟩ :=
      exists_word_of_scanKeyword? hkeyword
    exact ⟨htoken, word, htext, hne, hchars, hplain, fun more _ => hmore more⟩
  split at h
  · next n after hnumeral =>
    obtain ⟨rfl, rfl⟩ := Prod.mk.inj (Except.ok.inj h)
    obtain ⟨hspelled, htext⟩ := isSpelled_of_scanNumeral? hnumeral
    exact ⟨rfl, n.text, htext, Numeral.text_ne_nil hspelled, isWordChar_of_mem_text hspelled,
      Comment.isPlain_text hspelled, fun more hmore => scanToken_text hspelled hmore⟩
  · cases h

/-! ## What follows a word -/

/-- A word that starts a value is a whole one. -/
theorem exists_after_of_startValue [Platform] {dialect : Dialect} {outer : List Frame}
    {place : Place} {token : Token} (htoken : token.isWord = true)
    (h : startValue dialect outer token = some (.ok place)) : ∃ v, place = .after v outer := by
  cases token with
  | null => exact ⟨_, (Except.ok.inj (Option.some.inj h)).symm⟩
  | bool b => exact ⟨_, (Except.ok.inj (Option.some.inj h)).symm⟩
  | number n =>
      rw [startValue] at h
      cases hvalue : n.value dialect with
      | error e => rw [hvalue] at h; cases h
      | ok v => rw [hvalue] at h; exact ⟨v, (Except.ok.inj (Option.some.inj h)).symm⟩
  | constant c =>
      rw [startValue] at h
      cases hvalue : c.value dialect with
      | error e => rw [hvalue] at h; cases h
      | ok v => rw [hvalue] at h; exact ⟨v, (Except.ok.inj (Option.some.inj h)).symm⟩
  | _ => cases htoken

/-- A word that may come is a value. -/
theorem Place.exists_after_of_isWord [Platform] {dialect : Dialect} {place place' : Place}
    {token : Token}
    (htoken : token.isWord = true) (h : place.next dialect token = some (.ok place')) :
    ∃ v outer, place' = .after v outer := by
  unfold next at h
  split at h
  · obtain ⟨v, hv⟩ := exists_after_of_startValue htoken h
    exact ⟨v, _, hv⟩
  · cases htoken
  · obtain ⟨v, hv⟩ := exists_after_of_startValue htoken h
    exact ⟨v, _, hv⟩
  all_goals first
    | cases htoken
    | cases h

/-- Neither a word nor a string may come after a value. -/
theorem Place.next_after_eq_none [Platform] (dialect : Dialect) (v : Value) (outer : List Frame)
    {token : Token} (h : token.isWord = true ∨ ∃ s, token = .string s) :
    (after v outer).next dialect token = none := by
  cases outer with
  | nil => rfl
  | cons frame outer =>
      rcases h with hword | ⟨s, rfl⟩
      · cases token with
        | null | bool _ | number _ | constant _ => cases frame <;> rfl
        | _ => cases hword
      · cases frame <;> rfl

/-- A token that starts with another character than a token of one character is a word or a
string. -/
theorem isWord_or_string_of_scanToken {c : Char} {text rest : Text} {token : Token}
    (hc : punctuation? c = none) (h : scanToken (c :: text) = .ok (token, rest)) :
    token.isWord = true ∨ ∃ s, token = .string s := by
  by_cases hquote : c = '"'
  · subst hquote
    obtain ⟨-, s, rfl, -⟩ := exists_literal_of_scanToken h
    exact Or.inr ⟨s, rfl⟩
  · have hblank : isBlank c = false := by
      by_contra hblank
      rw [scanToken_of_isBlank (by simpa using hblank)] at h
      cases h
    exact Or.inl (exists_word_of_scanToken (isWordChar_iff.mpr ⟨hblank, hquote, hc⟩) h).1

/-- A text that is at its end has no characters. -/
theorem eq_nil_of_scanToken_ending {text : Text} (h : scanToken text = .error .ending) :
    text = [] := by
  cases text with
  | nil => rfl
  | cons c text =>
      simp only [scanToken] at h
      split at h
      · cases h
      split at h
      · split at h <;> cases h
      split at h
      · cases h
      split at h <;> cases h

/-- Where there is no blank, reading goes on with a token that may come. -/
theorem exists_step_of_readFrom [Platform] {dialect : Dialect} {text rest : Text} {place : Place}
    {c : Char} {v : Value} (hc : isBlank c = false)
    (h : readFrom dialect text place (c :: rest) = .ok v) :
    ∃ token after place', scanToken (c :: rest) = .ok (token, after) ∧
      place.next dialect token = some (.ok place') ∧
      readFrom dialect text place' after = .ok v := by
  have hskip : skipBlanks (c :: rest) = c :: rest :=
    List.dropWhile_cons_of_neg (by rw [hc]; exact Bool.false_ne_true)
  unfold readFrom at h
  rw [Tokens.ofText] at h
  split at h
  · next reason hscan =>
    rw [hskip] at hscan
    rw [readTokens] at h
    split at h
    · next u hfinish =>
      -- Only the end finishes a document, and the text is not at its end.
      unfold Place.finish at hfinish
      split at hfinish
      · cases eq_nil_of_scanToken_ending hscan
      · split at hfinish <;> cases hfinish
      · cases hfinish
    · cases h
  · next token after hscan =>
    rw [hskip] at hscan
    rw [readTokens] at h
    split at h
    · next place' hnext => exact ⟨token, after, place', hscan, hnext, h⟩
    · cases h
    · cases h

/-- The next character but blanks is a token by itself, if there is one. -/
def StartsWithPunctuation (rest : Text) : Prop :=
  ∀ c ∈ (skipBlanks rest).head?, punctuation? c ≠ none

/-- After a value there is a comma, a closing bracket or the end. -/
theorem startsWithPunctuation_of_readFrom [Platform] {dialect : Dialect} {text rest : Text}
    {v w : Value} {outer : List Frame} (h : readFrom dialect text (.after v outer) rest = .ok w) :
    StartsWithPunctuation rest := by
  intro c hc hnone
  obtain ⟨tail, htail⟩ := List.head?_eq_some_iff.mp hc
  have hblank : isBlank c = false := by
    have hhead := List.head?_dropWhile_not isBlank rest
    rw [skipBlanks] at hc
    rw [hc] at hhead
    exact hhead
  have hskip : readFrom dialect text (.after v outer) (c :: tail) = .ok w := by
    rw [← htail, ← h]
    exact (readFrom_blanks (fun d hd => List.mem_takeWhile_imp hd) _ _).symm.trans
      (by rw [skipBlanks, List.takeWhile_append_dropWhile])
  obtain ⟨token, after, place', hscan, hnext, -⟩ := exists_step_of_readFrom hblank hskip
  rw [Place.next_after_eq_none dialect v outer (isWord_or_string_of_scanToken hnone hscan)] at hnext
  cases hnext

end Json

end KeyOrder
