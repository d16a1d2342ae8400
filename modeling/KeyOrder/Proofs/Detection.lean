import KeyOrder.Proofs.Gaps
import KeyOrder.Proofs.Verdict
/-!
# Comments and documents

Three readers go over the string literals of a text: the one that looks for comments, the
one that removes them, and the reader of documents.  In a document all three end every
literal at the same place, so nothing in a document is taken for a comment or removed.  In
a text that is a document without its comments the first comment cannot be overlooked,
since all literals before it are closed; so the comments are found exactly if there are any.
-/

namespace KeyOrder.Comment

open Json

/-! ## Texts without comments -/

/-- A text that is left alone: no slash stands outside its literals, and removing its comments takes
nothing away. -/
structure Inert (text : Text) : Prop where
  uncommented : Uncommented text
  strip_eq : strip text = text

/-- The empty text is left alone. -/
theorem inert_nil : Inert [] where
  uncommented := by
    unfold Uncommented
    simp [emptyLiterals]
  strip_eq := rfl

/-- A character that is neither a quote nor a slash is kept. -/
theorem strip_cons {c : Char} (hc : c ≠ '"' ∧ c ≠ '/') (rest : Text) :
    strip (c :: rest) = c :: strip rest := by
  rw [strip, stripFrom]
  · rfl
  · exact hc.1
  · exact fun _ heq => absurd heq hc.2
  · exact fun _ heq => absurd heq hc.2

/-- A text is left alone with plain characters in front. -/
theorem Inert.append {plain rest : Text} (h : Inert rest) (hplain : IsPlain plain) :
    Inert (plain ++ rest) where
  uncommented := h.uncommented.append hplain
  strip_eq := by
    induction plain with
    | nil => exact h.strip_eq
    | cons c plain ih =>
        obtain ⟨hc, hplain⟩ := List.forall_mem_cons.mp hplain
        rw [List.cons_append, strip_cons hc, ih hplain]

/-- A text is left alone with a closed literal in front. -/
theorem Inert.literal {body rest : Text} (h : Inert rest) (hbody : Closes body) :
    Inert ('"' :: (body ++ rest)) where
  uncommented := h.uncommented.literal (hbody.after rest)
  strip_eq := by
    have hrest : stripFrom .code rest = rest := h.strip_eq
    rw [strip, stripFrom, stripFrom_string, hbody.cut, hrest]

/-! ## Documents -/

/-- Blanks are plain. -/
theorem isPlain_of_isBlank {text : Text} (h : ∀ c ∈ text, isBlank c = true) : IsPlain text :=
  isPlain_of_forall (by decide) (by decide) h

/-- A character that is a token by itself is plain. -/
theorem isPlain_of_punctuation? {c : Char} {token : Token} (h : punctuation? c = some token) :
    IsPlain [c] := by
  have htoken : ∀ d ∈ [c], punctuation? d = some token := List.forall_mem_singleton.mpr h
  exact isPlain_of_forall (fun hquote => by cases hquote) (fun hslash => by cases hslash) htoken

/-- What is read from a place on is left alone. -/
theorem inert_of_readFrom [Platform] {dialect : Dialect} {text rest : Text} {place : Place}
    {v : Value} (h : readFrom dialect text place rest = .ok v) : Inert rest := by
  -- A token takes up several characters at once, so the induction is on the length of the rest.
  induction hlength : rest.length using Nat.strong_induction_on generalizing rest place with
  | _ length ih =>
  subst hlength
  cases rest with
  | nil => exact inert_nil
  | cons c rest =>
      cases hblank : isBlank c with
      | true =>
          have hblanks : ∀ d ∈ [c], isBlank d = true := List.forall_mem_singleton.mpr hblank
          have hread : readFrom dialect text place rest = .ok v :=
            (readFrom_blanks hblanks place rest).symm.trans h
          exact (ih rest.length (by simp) hread rfl).append (isPlain_of_isBlank hblanks)
      | false =>
          obtain ⟨token, after, place', hscan, -, hread⟩ := exists_step_of_readFrom hblank h
          have hafter : Inert after := ih after.length (length_scanToken_lt hscan) hread rfl
          cases hpunctuation : punctuation? c with
          | some found =>
              rw [scanToken_punctuation hpunctuation] at hscan
              obtain ⟨-, rfl⟩ := Prod.mk.inj (Except.ok.inj hscan)
              exact hafter.append (isPlain_of_punctuation? hpunctuation)
          | none =>
              by_cases hquote : c = '"'
              · subst hquote
                obtain ⟨literal, s, -, rfl, hcloses, -⟩ := exists_literal_of_scanToken hscan
                exact hafter.literal hcloses
              · have hword : isWordChar c = true :=
                  isWordChar_iff.mpr ⟨hblank, hquote, hpunctuation⟩
                obtain ⟨-, word, rfl, -, hplain, -⟩ := exists_word_of_scanToken hword hscan
                exact hafter.append hplain

/-- A document is left alone. -/
theorem inert_of_parseDocument [Platform] {text : Text} {v : Value}
    (h : parseDocument text = .ok v) : Inert text :=
  inert_of_readFrom (parseDocument_eq_ok_iff.mp h)

/-- A document that is read is not skipped. -/
theorem processValue_ne_commented [Platform] (options : ProcessOptions) (content : Text)
    (v : Value) : processValue options content v ≠ .ok .commented := by
  intro h
  rcases processValue_cases h with ⟨heq, -⟩ | ⟨_, _, -, -, heq | heq | ⟨heq, -⟩⟩ <;> cases heq

/-- Nothing is removed from a document and no comment is found in it, whatever its strings hold; so
it is processed alike whether comments may be lost or not, and never skipped. -/
theorem strip_eq_self_of_parseDocument [Platform] {text : Text} {v : Value}
    (h : parseDocument text = .ok v) :
    strip text = text ∧ detect text = false ∧
      ∀ options : ProcessOptions,
        processText { options with force := true } text
          = processText { options with force := false } text ∧
        ∀ outcome, processText options text = .ok outcome → outcome.status ≠ .skipped := by
  obtain ⟨huncommented, hstrip⟩ := inert_of_parseDocument h
  have hdetect := huncommented.detect
  have hread : ∀ options : ProcessOptions,
      processText options text = processValue options text v := by
    intro options
    refine processText_of_readAs ⟨fun hfound => ?_, ?_⟩
    · rw [hdetect] at hfound
      cases hfound
    · rwa [readText, hdetect, if_neg Bool.false_ne_true]
  refine ⟨hstrip, hdetect, fun options => ⟨?_, fun outcome houtcome hskipped => ?_⟩⟩
  · rw [hread, hread]
    rfl
  · rw [hread] at houtcome
    cases outcome with
    | commented => exact processValue_ne_commented options text v houtcome
    | _ => cases hskipped

section Marked

/-- There are halves of pairs. -/
local instance neZero_halves : NeZero 1024 :=
  ⟨by decide⟩

/-- A document whose only string holds a run of backslashes, a quote, the marks of comments and half
of a pair. -/
def markedDocument : Value :=
  .list [.str (codeText "\\\\\"// /*" ++ [CodePoint.leading 0])]

/-- The marks of comments in a string are kept, after backslashes and an escaped quote too. -/
theorem strip_eq_self_of_parseDocument_marked :
    parseDocument "[\n\t\"\\\\\\\\\\\"// /*\\ud800\"\n]\n".toList = .ok markedDocument ∧
      strip "[\n\t\"\\\\\\\\\\\"// /*\\ud800\"\n]\n".toList
        = "[\n\t\"\\\\\\\\\\\"// /*\\ud800\"\n]\n".toList ∧
      detect "[\n\t\"\\\\\\\\\\\"// /*\\ud800\"\n]\n".toList = false := by
  have hjoined : (codeText "\\\\\"// /*" ++ [CodePoint.leading 0]).IsJoined := by decide
  have hdocument : markedDocument.IsDocument :=
    .list (List.forall_mem_singleton.mpr (.scalar trivial hjoined))
  have hread : parseDocument "[\n\t\"\\\\\\\\\\\"// /*\\ud800\"\n]\n".toList
      = .ok markedDocument :=
    parseDocument_printDocument .tabs hdocument (by decide)
  obtain ⟨hstrip, hdetect, -⟩ := strip_eq_self_of_parseDocument hread
  exact ⟨hread, hstrip, hdetect⟩

end Marked

/-! ## Texts that are documents without their comments -/

/-- The segments of a row that are no comments. -/
def kept (row : List Segment) : List Segment :=
  row.filter fun segment => !segment.isComment

/-- What is kept is no comment. -/
theorem not_isComment_of_mem_kept {row : List Segment} {segment : Segment}
    (h : segment ∈ kept row) : segment.isComment = false := by
  simpa using (List.mem_filter.mp h).2

/-- What is kept follows each other as it is to. -/
theorem IsCut.kept {row : List Segment} (h : IsCut row) : IsCut (kept row) := by
  induction row with
  | nil => trivial
  | cons segment row ih =>
      cases segment with
      | code c => exact ⟨h.1, ih h.2⟩
      | literal text =>
          obtain ⟨⟨body, rfl, hbody⟩, hrow⟩ := h
          refine ⟨⟨body, rfl, fun more hmore => hbody more fun hend => hmore ?_⟩, ih hrow⟩
          subst hend
          rfl
      | line text | block text => exact ih h.2

/-- Nothing in place of the comments is what is kept. -/
theorem filled_kept (gap : Text) (row : List Segment) : filled gap (kept row) = filled [] row := by
  induction row with
  | nil => rfl
  | cons segment row ih =>
      cases segment with
      | code c => exact congrArg (c :: ·) ih
      | literal text => exact congrArg (text ++ ·) ih
      | line text | block text => exact ih

/-- Without comments no word is severed. -/
theorem not_severed_kept (row : List Segment) : ¬ Severed (kept row) := by
  rintro ⟨before, c, after, hrow, -, comments, d, rest, rfl, hne, hcomments, -⟩
  obtain ⟨segment, comments, rfl⟩ := List.exists_cons_of_ne_nil hne
  have hmem : segment ∈ kept row := by
    rw [hrow]
    simp
  have hcomment := hcomments segment List.mem_cons_self
  rw [not_isComment_of_mem_kept hmem] at hcomment
  cases hcomment

/-- The literals of a text are closed if the text is a document without its comments. -/
theorem literalsClosed_of_parseDocument [Platform] {text : Text} {v : Value}
    (h : parseDocument (strip text) = .ok v) : LiteralsClosed (segments text) := by
  have hnone : ∀ c ∈ ([] : Text), isBlank c = true := List.forall_mem_nil _
  rw [strip_eq_filled, ← filled_kept [], parseDocument_eq_ok_iff] at h
  -- Where no comment is left none severs a word.
  have hread : readFrom .standard [] (.value []) (filled [] (kept (segments text))) = .ok v ∧
      ¬ Severed (kept (segments text)) ∧ LiteralsClosed (kept (segments text)) :=
    readFrom_filled hnone hnone (isCut_segments text).kept (Or.inr (not_severed_kept _)) h
  intro literal hmem
  exact hread.2.2 literal (List.mem_filter.mpr ⟨hmem, rfl⟩)

/-- What is not its own text without comments has one. -/
theorem exists_isComment_of_strip_ne {text : Text} (h : strip text ≠ text) :
    ∃ segment ∈ segments text, segment.isComment = true := by
  by_contra hnone
  push Not at hnone
  refine h ?_
  rw [strip_eq_filled, filled_of_not_isComment [] fun segment hmem =>
    Bool.eq_false_iff.mpr (hnone segment hmem), flatMap_text_segments]

/-- In a text that is a document without its comments, comments are found exactly if there are any.
So what is read is always the text without its comments, and where comments may not be lost the
document is skipped exactly if it has some. -/
theorem detect_eq_true_iff_strip_ne [Platform] {text : Text} {v : Value}
    (h : parseDocument (strip text) = .ok v) :
    (detect text = true ↔ strip text ≠ text) ∧ readText text = strip text ∧
      ∀ options : ProcessOptions, options.force = false →
        (processText options text = .ok .commented ↔ strip text ≠ text) := by
  have hfound : detect text = true ↔ strip text ≠ text := by
    constructor
    · intro hdetect hstrip
      rw [hstrip] at h
      rw [(inert_of_parseDocument h).uncommented.detect] at hdetect
      cases hdetect
    · intro hne
      have hmarker := hasMarker_of_isComment (isCut_segments text)
        (literalsClosed_of_parseDocument h) (exists_isComment_of_strip_ne hne)
      rwa [flatMap_text_segments] at hmarker
  have hread : readText text = strip text := by
    rw [readText]
    split
    · rfl
    · next hdetect => exact (not_not.mp (mt hfound.mpr hdetect)).symm
  refine ⟨hfound, hread, fun options hforce => ?_⟩
  rw [← hfound]
  constructor
  · intro hskipped
    by_contra hdetect
    have hreadAs : ReadAs options.force text v := ⟨fun hfalse => absurd hfalse hdetect, hread ▸ h⟩
    rw [processText_of_readAs hreadAs] at hskipped
    exact processValue_ne_commented options text v hskipped
  · intro hdetect
    simp [processText, hdetect, hforce]

/-- A comment with a quote is found, though the quote and that of a later string could be taken for
a literal. -/
theorem detect_eq_true_iff_strip_ne_quote :
    parseDocument (strip "[\n\t/* \" */\"//\"\n]\n//\"".toList)
        = .ok (.list [.str (codeText "//")]) ∧
      detect "[\n\t/* \" */\"//\"\n]\n//\"".toList = true := by
  have hjoined : (codeText "//").IsJoined := by decide
  have hdocument : (Value.list [.str (codeText "//")]).IsDocument :=
    .list (List.forall_mem_singleton.mpr (.scalar trivial hjoined))
  have hread : parseDocument (strip "[\n\t/* \" */\"//\"\n]\n//\"".toList)
      = .ok (.list [.str (codeText "//")]) :=
    parseDocument_printDocument .tabs hdocument (by decide)
  exact ⟨hread, (detect_eq_true_iff_strip_ne hread).1.mpr (by decide)⟩

end KeyOrder.Comment
