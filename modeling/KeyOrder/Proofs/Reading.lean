import KeyOrder.Json.Decode
import KeyOrder.Proofs.Lexemes
/-!
# The reader

The reader is followed from place to place along the text.  Open containers hold
only what fits into them, and every step keeps that so; a text that is read is
therefore a document value, and not nested more deeply than containers may be open.
-/

namespace KeyOrder

namespace Json

/-! ## Steps -/

section Steps

variable {dialect : Dialect} {text : Text}

/-- Reads the rest of a text from a place on. -/
def readFrom [Platform] (dialect : Dialect) (text : Text) (place : Place) (rest : Text) :
    Except DecodeError Value :=
  readTokens dialect text place (.ofText rest)

/-- A token that may come takes the reader to the next place. -/
theorem readFrom_of_scanToken [Platform] {place place' : Place} {token : Token} {rest after : Text}
    (hscan : scanToken rest = .ok (token, after))
    (hnext : place.next dialect token = some (.ok place')) :
    readFrom dialect text place rest = readFrom dialect text place' after := by
  unfold readFrom
  rw [Tokens.ofText, skipBlanks_of_scanToken hscan]
  split
  · next h => rw [hscan] at h; cases h
  · next h =>
    rw [hscan] at h
    obtain ⟨rfl, rfl⟩ := Prod.mk.inj (Except.ok.inj h)
    rw [readTokens, hnext]

/-- Where no token starts the reader stops. -/
theorem readFrom_of_scanToken_error [Platform] {place : Place} {rest : Text} {reason : Stop}
    (hscan : scanToken (skipBlanks rest) = .error reason) :
    readFrom dialect text place rest
      = readTokens dialect text place (.stop reason (skipBlanks rest)) := by
  unfold readFrom
  rw [Tokens.ofText]
  split
  · next h =>
    rw [hscan] at h
    obtain rfl := Except.error.inj h
    rfl
  · next h =>
    rw [hscan] at h
    cases h

/-- Blanks in front of a text are skipped. -/
theorem readFrom_blanks [Platform] {blanks : Text} (h : ∀ c ∈ blanks, isBlank c = true)
    (place : Place) (rest : Text) :
    readFrom dialect text place (blanks ++ rest) = readFrom dialect text place rest := by
  have hskip : skipBlanks (blanks ++ rest) = skipBlanks rest := List.dropWhile_append_of_pos h
  unfold readFrom
  rw [Tokens.ofText, Tokens.ofText, hskip]

/-- A line feed and its indentation are skipped. -/
theorem readFrom_newline [Platform] (layout : Layout) (level : Nat) (place : Place) (rest : Text) :
    readFrom dialect text place (layout.newline level rest)
      = readFrom dialect text place rest := by
  have hblank : ∀ c ∈ '\n' :: (List.replicate level layout.unit).flatten, isBlank c = true := by
    intro c hc
    rcases List.mem_cons.mp hc with rfl | hc
    · rfl
    · obtain ⟨unit, hunit, hc⟩ := List.mem_flatten.mp hc
      rw [List.eq_of_mem_replicate hunit] at hc
      cases layout with
      | tabs => rw [List.mem_singleton.mp hc]; rfl
      | spaces more => rw [List.eq_of_mem_replicate hc]; rfl
  exact readFrom_blanks hblank place rest

/-- A character that is a token takes the reader to the next place. -/
theorem readFrom_punctuation [Platform] {place place' : Place} {c : Char} {token : Token}
    (hc : punctuation? c = some token) (hnext : place.next dialect token = some (.ok place'))
    (rest : Text) : readFrom dialect text place (c :: rest) = readFrom dialect text place' rest :=
  readFrom_of_scanToken (scanToken_punctuation hc rest) hnext

/-- What is read at the end of a text does not depend on the text. -/
theorem readFrom_nil_eq_ok [Platform] {text' : Text} {place : Place} {v : Value}
    (h : readFrom dialect text place [] = .ok v) : readFrom dialect text' place [] = .ok v := by
  have hscan : scanToken (skipBlanks []) = .error .ending := rfl
  unfold readFrom at h ⊢
  rw [Tokens.ofText] at h ⊢
  split at h
  · next reason hstop =>
    rw [hscan] at hstop
    obtain rfl := Except.error.inj hstop
    rw [hscan, readTokens] at *
    revert h
    cases place with
    | after w outer => cases outer <;> simp [Place.finish]
    | _ => simp [Place.finish]
  · next htoken => rw [hscan] at htoken; cases htoken

/-- At the end of the text the document is finished. -/
theorem readFrom_finish [Platform] (v : Value) :
    readFrom dialect text (.after v []) ['\n'] = .ok v := by
  have hscan : scanToken (skipBlanks ['\n']) = .error .ending := rfl
  unfold readFrom
  rw [Tokens.ofText]
  split
  · next h =>
    rw [hscan] at h
    obtain rfl := Except.error.inj h
    rfl
  · next h => rw [hscan] at h; cases h

end Steps

end Json

/-! ## What fits into containers -/

/-- A document value that may stand inside a number of containers. -/
structure Value.Fits [Platform] (depth : Nat) (v : Value) : Prop where
  isDocument : v.IsDocument
  nesting_le : v.nesting + depth ≤ Platform.maxDepth

/-- A scalar of a document fits wherever a container may be open. -/
theorem Value.Fits.of_isScalar [Platform] {depth : Nat} {v : Value}
    (hdepth : depth ≤ Platform.maxDepth)
    (hv : v.IsScalar) (hdocument : v.IsDocumentScalar) : v.Fits depth where
  isDocument := .scalar hv hdocument
  nesting_le := by
    rw [nesting_of_isScalar hv]
    omega

/-- A list of what fits one level deeper fits. -/
theorem Value.Fits.list [Platform] {depth : Nat} {items : List Value}
    (hdepth : depth < Platform.maxDepth)
    (h : ∀ v ∈ items, v.Fits (depth + 1)) : (Value.list items).Fits depth where
  isDocument := .list fun v hv => (h v hv).isDocument
  nesting_le := by
    have hnesting : nestingOfItems items ≤ Platform.maxDepth - (depth + 1) :=
      nestingOfItems_le_iff.mpr fun v hv => Nat.le_sub_of_add_le (h v hv).nesting_le
    rw [nesting]
    omega

/-- Members whose keys a document can have and whose values fit. -/
def MembersFit [Platform] (depth : Nat) (members : List (CodeText × Value)) : Prop :=
  ∀ m ∈ members, m.1.IsJoined ∧ m.2.Fits depth

/-- A mapping of members that fit one level deeper fits. -/
theorem Value.Fits.ofMembers [Platform] {depth : Nat} {members : List (CodeText × Value)}
    (hdepth : depth < Platform.maxDepth) (h : MembersFit (depth + 1) members) :
    (Value.ofMembers members).Fits depth := by
  have hmem : ∀ m ∈ mergeMembers members, m.1.IsJoined ∧ m.2.Fits (depth + 1) :=
    fun m hm => h m (mem_of_mem_mergeMembers hm)
  constructor
  · exact .map (nodup_keys_mergeMembers members) (fun m hm => (hmem m hm).1)
      fun m hm => (hmem m hm).2.isDocument
  · have hnesting : nestingOfMembers (stringMembers (mergeMembers members))
        ≤ Platform.maxDepth - (depth + 1) :=
      nestingOfStringMembers_le_iff.mpr fun m hm => Nat.le_sub_of_add_le (hmem m hm).2.nesting_le
    rw [Value.ofMembers, nesting]
    omega

namespace Json

/-- What an open container holds fits into it. -/
def Frame.Fits [Platform] (depth : Nat) : Frame → Prop
  | .items read => ∀ v ∈ read, v.Fits depth
  | .members read k => k.IsJoined ∧ MembersFit depth read

/-- Open containers hold what fits, and not too many are open. -/
def FramesFit [Platform] : List Frame → Prop
  | [] => True
  | frame :: outer =>
    outer.length < Platform.maxDepth ∧ frame.Fits (outer.length + 1) ∧ FramesFit outer

/-- What the reader has at a place fits. -/
def Place.Fits [Platform] : Place → Prop
  | .value outer => FramesFit outer
  | .firstItem outer => outer.length < Platform.maxDepth ∧ FramesFit outer
  | .firstKey outer => outer.length < Platform.maxDepth ∧ FramesFit outer
  | .key read outer =>
    outer.length < Platform.maxDepth ∧ MembersFit (outer.length + 1) read ∧ FramesFit outer
  | .colon read k outer => FramesFit (.members read k :: outer)
  | .after v outer => v.Fits outer.length ∧ FramesFit outer

/-- No more containers are open than may be. -/
theorem FramesFit.length_le [Platform] {outer : List Frame} (h : FramesFit outer) :
    outer.length ≤ Platform.maxDepth := by
  cases outer with
  | nil => exact Nat.zero_le _
  | cons frame outer => exact h.1

/-! ## What is read -/

/-- The value of a numeral is a scalar of a document. -/
theorem isDocumentScalar_of_numeral {n : Numeral} (hn : IsDigits n.whole) {v : Value}
    (h : n.value .standard = .ok v) : v.IsScalar ∧ v.IsDocumentScalar := by
  unfold Numeral.value at h
  split at h
  · split at h
    · next hlength =>
      obtain rfl := Except.ok.inj h
      refine ⟨trivial, ?_⟩
      -- The sign does not count, and digits stand for less than a power of ten.
      have habs : n.int.natAbs = natOfDigits n.whole := by
        unfold Numeral.int
        split
        · rw [Int.natAbs_neg, Int.natAbs_natCast]
        · rw [Int.natAbs_natCast]
      show n.int.natAbs < 10 ^ maxIntegerDigits
      rw [habs]
      exact (natOfDigits_lt hn.2).trans_le (Nat.pow_le_pow_right (by decide) hlength)
    · cases h
  · split at h
    · cases h
    · next hfinite =>
      obtain rfl := Except.ok.inj h
      refine ⟨trivial, ?_⟩
      unfold Numeral.double Double.ofDecimal at hfinite ⊢
      split at hfinite
      · exact ⟨_, _, rfl⟩
      · exact absurd rfl (hfinite _ rfl)

/-- A token that starts a value leads to a place where all fits. -/
theorem Place.Fits.startValue [Platform] {outer : List Frame} (houter : FramesFit outer)
    {token : Token} (htoken : token.IsSound) {place : Place}
    (h : startValue .standard outer token = some (.ok place)) : place.Fits := by
  have hdepth := houter.length_le
  -- Lists and mappings are opened alike.
  have hopen : ∀ container, openContainer container outer = .ok place → place.Fits := by
    intro container hcontainer
    unfold openContainer at hcontainer
    split at hcontainer
    · next hlength =>
      cases container with
      | array => obtain rfl := Except.ok.inj hcontainer; exact ⟨hlength, houter⟩
      | object => obtain rfl := Except.ok.inj hcontainer; exact ⟨hlength, houter⟩
    · cases hcontainer
  unfold Json.startValue at h
  split at h
  · obtain rfl := Except.ok.inj (Option.some.inj h)
    exact ⟨.of_isScalar hdepth trivial trivial, houter⟩
  · obtain rfl := Except.ok.inj (Option.some.inj h)
    exact ⟨.of_isScalar hdepth trivial trivial, houter⟩
  · obtain rfl := Except.ok.inj (Option.some.inj h)
    exact ⟨.of_isScalar hdepth trivial htoken, houter⟩
  · next n =>
    cases hvalue : n.value .standard with
    | error e => rw [hvalue] at h; cases h
    | ok v =>
        rw [hvalue] at h
        obtain rfl := Except.ok.inj (Option.some.inj h)
        obtain ⟨hscalar, hdocument⟩ := isDocumentScalar_of_numeral htoken hvalue
        exact ⟨.of_isScalar hdepth hscalar hdocument, houter⟩
  · cases h
  · exact hopen .array (Option.some.inj h)
  · exact hopen .object (Option.some.inj h)
  · cases h

/-- Every step leads from a place where all fits to another one. -/
theorem Place.Fits.next [Platform] {place place' : Place} (hplace : place.Fits) {token : Token}
    (htoken : token.IsSound) (h : place.next .standard token = some (.ok place')) :
    place'.Fits := by
  -- One case for every place and token that may come there; all others are no step.
  unfold Place.next at h
  split at h
  · exact .startValue hplace htoken h
  · obtain rfl := Except.ok.inj (Option.some.inj h)
    exact ⟨.list hplace.1 (by simp), hplace.2⟩
  · next outer _ =>
    have houter : FramesFit (.items [] :: outer) := ⟨hplace.1, by simp [Frame.Fits], hplace.2⟩
    exact .startValue houter htoken h
  · obtain rfl := Except.ok.inj (Option.some.inj h)
    have hmembers : (Value.ofMembers []).Fits _ := .ofMembers hplace.1 (by simp [MembersFit])
    exact ⟨hmembers, hplace.2⟩
  · obtain rfl := Except.ok.inj (Option.some.inj h)
    exact ⟨hplace.1, ⟨htoken, by simp [MembersFit]⟩, hplace.2⟩
  · obtain rfl := Except.ok.inj (Option.some.inj h)
    obtain ⟨hlength, hread, houter⟩ := hplace
    exact ⟨hlength, ⟨htoken, hread⟩, houter⟩
  · obtain rfl := Except.ok.inj (Option.some.inj h)
    exact hplace
  · obtain rfl := Except.ok.inj (Option.some.inj h)
    obtain ⟨hv, hlength, hread, houter⟩ := hplace
    exact ⟨hlength, List.forall_mem_cons.mpr ⟨hv, hread⟩, houter⟩
  · obtain rfl := Except.ok.inj (Option.some.inj h)
    obtain ⟨hv, hlength, hread, houter⟩ := hplace
    refine ⟨.list hlength fun w hw => ?_, houter⟩
    exact List.forall_mem_cons.mpr ⟨hv, hread⟩ w (List.mem_reverse.mp hw)
  · obtain rfl := Except.ok.inj (Option.some.inj h)
    obtain ⟨hv, hlength, ⟨hkey, hread⟩, houter⟩ := hplace
    exact ⟨hlength, List.forall_mem_cons.mpr ⟨⟨hkey, hv⟩, hread⟩, houter⟩
  · obtain rfl := Except.ok.inj (Option.some.inj h)
    obtain ⟨hv, hlength, ⟨hkey, hread⟩, houter⟩ := hplace
    refine ⟨.ofMembers hlength fun m hm => ?_, houter⟩
    exact List.forall_mem_cons.mpr ⟨⟨hkey, hv⟩, hread⟩ m (List.mem_reverse.mp hm)
  · cases h

/-- What is read from a place on where all fits is a value that fits into no container. -/
theorem fits_of_readFrom [Platform] {text rest : Text} {place : Place} (hplace : place.Fits)
    {v : Value} (h : readFrom .standard text place rest = .ok v) : v.Fits 0 := by
  unfold readFrom at h
  -- Along the tokens: each is sound, so the next place is again one where all fits.
  fun_induction Tokens.ofText rest generalizing place with
  | case1 rest reason hscan =>
      rw [readTokens] at h
      split at h
      · next hfinish =>
        obtain rfl := Except.ok.inj h
        unfold Place.finish at hfinish
        split at hfinish
        · obtain rfl := Except.ok.inj hfinish
          exact hplace.1
        · split at hfinish <;> cases hfinish
        · cases hfinish
      · cases h
  | case2 rest token after hscan ih =>
      rw [readTokens] at h
      split at h
      · next place' hnext => exact ih (hplace.next (isSound_of_scanToken hscan) hnext) h
      · cases h
      · cases h

/-- Without a byte order mark in front, a text is read from its start on. -/
theorem decode_eq_readFrom [Platform] {dialect : Dialect} {text : Text}
    (h : '\uFEFF' ∉ text.head?) : decode dialect text = readFrom dialect text (.value []) text := by
  unfold decode
  split
  · exact absurd rfl h
  · rfl

/-- A text that starts with no token holds no document. -/
theorem decode_of_scanToken_error [Platform] {dialect : Dialect} {text : Text} {reason : Stop}
    (hmark : '\uFEFF' ∉ text.head?) (hscan : scanToken (skipBlanks text) = .error reason) :
    ∃ complaint position, decode dialect text = .error (.malformed complaint position) := by
  rw [decode_eq_readFrom hmark, readFrom_of_scanToken_error hscan, readTokens]
  cases reason <;> exact ⟨_, _, rfl⟩

/-- What a text holds is a document value, nested no more deeply than containers may be open. -/
theorem isDocument_of_parseDocument [Platform] {text : Text} {v : Value}
    (h : parseDocument text = .ok v) : v.IsDocument ∧ v.nesting ≤ Platform.maxDepth := by
  unfold parseDocument decode at h
  split at h
  · cases h
  · have hstart : (Place.value []).Fits := trivial
    have hfits : v.Fits 0 := fits_of_readFrom hstart h
    exact ⟨hfits.isDocument, hfits.nesting_le⟩

/-! ## What is refused -/

/-- What a token is refused for that may come: for the number or the constant that it is, or as one
container too many. -/
def DecodeError.IsRefusal (dialect : Dialect) (error : DecodeError) : Prop :=
  (∃ n : Numeral, n.value dialect = .error error) ∨
    (∃ c : Constant, c.value dialect = .error error) ∨ ∃ container, error = .tooDeep container

/-- A container is refused as one too many. -/
theorem eq_tooDeep_of_openContainer [Platform] {container : Container} {outer : List Frame}
    {error : DecodeError} (h : openContainer container outer = .error error) :
    error = .tooDeep container := by
  unfold openContainer at h
  split at h
  · cases container <;> cases h
  · exact (Except.error.inj h).symm

/-- A token that starts a value may be refused. -/
theorem isRefusal_of_startValue [Platform] {dialect : Dialect} {outer : List Frame} {token : Token}
    {error : DecodeError} (h : startValue dialect outer token = some (.error error)) :
    error.IsRefusal dialect := by
  cases token with
  | number n =>
      rw [startValue] at h
      cases hvalue : n.value dialect with
      | error cause =>
          rw [hvalue] at h
          obtain rfl := Except.error.inj (Option.some.inj h)
          exact Or.inl ⟨n, hvalue⟩
      | ok v =>
          rw [hvalue] at h
          cases h
  | constant c =>
      rw [startValue] at h
      cases hvalue : c.value dialect with
      | error cause =>
          rw [hvalue] at h
          obtain rfl := Except.error.inj (Option.some.inj h)
          exact Or.inr (Or.inl ⟨c, hvalue⟩)
      | ok v =>
          rw [hvalue] at h
          cases h
  | arrayStart => exact Or.inr (Or.inr ⟨_, eq_tooDeep_of_openContainer (Option.some.inj h)⟩)
  | objectStart => exact Or.inr (Or.inr ⟨_, eq_tooDeep_of_openContainer (Option.some.inj h)⟩)
  | _ => cases h

/-- No other token that may come is refused. -/
theorem Place.isRefusal_of_next [Platform] {dialect : Dialect} {place : Place} {token : Token}
    {error : DecodeError} (h : place.next dialect token = some (.error error)) :
    error.IsRefusal dialect := by
  unfold next at h
  split at h
  · exact isRefusal_of_startValue h
  · cases h
  · exact isRefusal_of_startValue h
  all_goals cases h

/-- A text that is not read is malformed at a place of its own, or one of its tokens is refused. -/
theorem malformed_or_isRefusal_of_decode [Platform] {dialect : Dialect} {text : Text}
    {error : DecodeError} (h : decode dialect text = .error error) :
    (∃ complaint offset, error = .malformed complaint (Position.of text offset)) ∨
      error.IsRefusal dialect := by
  have htokens : ∀ place tokens, readTokens dialect text place tokens = .error error →
      (∃ complaint offset, error = .malformed complaint (Position.of text offset)) ∨
        error.IsRefusal dialect := by
    intro place tokens hread
    induction tokens generalizing place with
    | stop reason source =>
        rw [readTokens] at hread
        split at hread
        · cases hread
        · exact Or.inl ⟨_, _, (Except.error.inj hread).symm⟩
    | cons token source rest ih =>
        rw [readTokens] at hread
        split at hread
        · next place' _ => exact ih place' hread
        · next cause hnext =>
          obtain rfl := Except.error.inj hread
          exact Or.inr (Place.isRefusal_of_next hnext)
        · exact Or.inl ⟨_, _, (Except.error.inj hread).symm⟩
  unfold decode at h
  split at h
  · exact Or.inl ⟨_, _, (Except.error.inj h).symm⟩
  · exact htokens _ _ h

/-! ## Dialects -/

/-- A number of the standard has the same value in the extended dialect. -/
theorem Numeral.value_extended {n : Numeral} {v : Value} (h : n.value .standard = .ok v) :
    n.value .extended = .ok v := by
  unfold value at h ⊢
  split at h
  · next hinteger => rw [if_pos hinteger, h]
  · next hinteger =>
    rw [if_neg hinteger]
    split at h
    · cases h
    · exact h

/-- A token that may come under the standard leads to the same place in the extended dialect. -/
theorem Place.next_extended [Platform] {place place' : Place} {token : Token}
    (h : place.next .standard token = some (.ok place')) :
    place.next .extended token = some (.ok place') := by
  -- The dialects differ only in the numbers with which a value may start.
  have hstart : ∀ outer, startValue .standard outer token = some (.ok place') →
      startValue .extended outer token = some (.ok place') := by
    intro outer hstandard
    cases token with
    | number n =>
        rw [startValue] at hstandard ⊢
        cases hvalue : n.value .standard with
        | error e => rw [hvalue] at hstandard; cases hstandard
        | ok v =>
            rw [hvalue] at hstandard
            rw [Numeral.value_extended hvalue]
            exact hstandard
    | constant c => cases hstandard
    | _ => exact hstandard
  unfold next at h ⊢
  split at h
  · exact hstart _ h
  · exact h
  · exact hstart _ h
  all_goals exact h

/-- What a text holds by the standard it holds in the extended dialect. -/
theorem decode_extended [Platform] {text : Text} {v : Value} (h : parseDocument text = .ok v) :
    decode .extended text = .ok v := by
  have htokens : ∀ place tokens, readTokens .standard text place tokens = .ok v →
      readTokens .extended text place tokens = .ok v := by
    intro place tokens hread
    induction tokens generalizing place with
    | stop reason source => exact hread
    | cons token source rest ih =>
        rw [readTokens] at hread ⊢
        split at hread
        · next place' hnext =>
          rw [Place.next_extended hnext]
          exact ih place' hread
        · cases hread
        · cases hread
  unfold parseDocument decode at h
  unfold decode
  split at h
  · cases h
  · exact htokens _ _ h

end Json

end KeyOrder
