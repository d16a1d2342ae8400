import KeyOrder.Proofs.RoundTrip
import KeyOrder.Proofs.TokenEnds
import KeyOrder.Run.Process
/-!
# Gaps in place of comments

A document is read alike whatever blanks stand in place of its comments, and also
when nothing does, as long as no comment stands in the middle of a word.  There it
makes the difference: with a space in its place the word is cut and the text is no
document; with nothing in its place the two parts are one word.
-/

namespace KeyOrder.Comment

open Json

/-! ## Severed words -/

/-- A row that goes on with a character of a word after one or more comments. -/
def ResumesWord (row : List Segment) : Prop :=
  ∃ comments d after, row = comments ++ .code d :: after ∧ comments ≠ [] ∧
    (∀ segment ∈ comments, segment.isComment = true) ∧ isWordChar d = true

/-- Somewhere in a row nothing but comments stands between two characters of words. -/
def Severed (row : List Segment) : Prop :=
  ∃ before c after, row = before ++ .code c :: after ∧ isWordChar c = true ∧ ResumesWord after

/-- A row does not go on with a word after comments if a character comes first. -/
theorem not_resumesWord_code (c : Char) (row : List Segment) : ¬ ResumesWord (.code c :: row) := by
  rintro ⟨comments, d, after, hrow, hne, hcomments, -⟩
  obtain ⟨segment, comments, rfl⟩ := List.exists_cons_of_ne_nil hne
  rw [List.cons_append] at hrow
  obtain ⟨rfl, -⟩ := List.cons.inj hrow
  cases hcomments _ List.mem_cons_self

/-- A comment in front of what goes on with a word, or in front of its next character. -/
theorem ResumesWord.cons {segment : Segment} (hsegment : segment.isComment = true)
    {row : List Segment} (h : ResumesWord row ∨ ∃ d after, row = .code d :: after ∧
      isWordChar d = true) : ResumesWord (segment :: row) := by
  rcases h with ⟨comments, d, after, rfl, -, hcomments, hd⟩ | ⟨d, after, rfl, hd⟩
  · exact ⟨segment :: comments, d, after, rfl, List.cons_ne_nil _ _,
      List.forall_mem_cons.mpr ⟨hsegment, hcomments⟩, hd⟩
  · exact ⟨[segment], d, after, rfl, List.cons_ne_nil _ _,
      List.forall_mem_cons.mpr ⟨hsegment, List.forall_mem_nil _⟩, hd⟩

/-- No word is severed in an empty row. -/
theorem not_severed_nil : ¬ Severed [] := by
  rintro ⟨before, c, after, hrow, -⟩
  simp at hrow

/-- A word is severed after the first segment of a row, or later. -/
theorem severed_cons_iff {segment : Segment} {row : List Segment} :
    Severed (segment :: row) ↔
      (∃ c, segment = .code c ∧ isWordChar c = true ∧ ResumesWord row) ∨ Severed row := by
  constructor
  · rintro ⟨before, c, after, hrow, hc, hafter⟩
    cases before with
    | nil =>
        obtain ⟨rfl, rfl⟩ := List.cons.inj hrow
        exact Or.inl ⟨c, rfl, hc, hafter⟩
    | cons first before =>
        obtain ⟨rfl, rfl⟩ := List.cons.inj hrow
        exact Or.inr ⟨before, c, after, rfl, hc, hafter⟩
  · rintro (⟨c, rfl, hc, hrow⟩ | ⟨before, c, after, rfl, hc, hafter⟩)
    · exact ⟨[], c, row, rfl, hc, hrow⟩
    · exact ⟨segment :: before, c, after, rfl, hc, hafter⟩

/-- A segment that is no character of a word severs none. -/
theorem severed_cons_of_not_word {segment : Segment} {row : List Segment}
    (h : ∀ c, segment = .code c → isWordChar c = false) :
    Severed (segment :: row) ↔ Severed row := by
  rw [severed_cons_iff]
  refine or_iff_right ?_
  rintro ⟨c, rfl, hc, -⟩
  rw [h c rfl] at hc
  cases hc

/-- A whole word in front severs nothing, if the row does not go on with it. -/
theorem not_severed_word (word : Text) {row : List Segment} (hresumes : ¬ ResumesWord row)
    (hrow : ¬ Severed row) : ¬ Severed (word.map .code ++ row) := by
  induction word with
  | nil => exact hrow
  | cons c word ih =>
      rw [List.map_cons, List.cons_append, severed_cons_iff]
      rintro (⟨d, -, -, hd⟩ | hword)
      · cases word with
        | nil => exact hresumes hd
        | cons e word => exact not_resumesWord_code e _ hd
      · exact ih hword

/-! ## The start of a filled row -/

/-- Characters outside literals and comments stay. -/
theorem filled_map_code (gap word : Text) (row : List Segment) :
    filled gap (word.map .code ++ row) = word ++ filled gap row := by
  induction word with
  | nil => rfl
  | cons c word ih => rw [List.map_cons, List.cons_append, filled_code, ih, List.cons_append]

/-- Blanks in front do not change what a text starts with. -/
theorem startsWithPunctuation_append {blanks : Text} (h : ∀ c ∈ blanks, isBlank c = true)
    (rest : Text) : StartsWithPunctuation (blanks ++ rest) ↔ StartsWithPunctuation rest := by
  unfold StartsWithPunctuation
  rw [skipBlanks, List.dropWhile_append_of_pos h]
  rfl

/-- A character that is no blank is what a text starts with. -/
theorem startsWithPunctuation_cons {c : Char} (h : isBlank c = false) (rest : Text) :
    StartsWithPunctuation (c :: rest) ↔ punctuation? c ≠ none := by
  unfold StartsWithPunctuation
  rw [skipBlanks, List.dropWhile_cons_of_neg (by rw [h]; exact Bool.false_ne_true)]
  simp

/-- What starts with a token of one character does not go on with a numeral. -/
theorem endsNumeral_of_startsWithPunctuation {rest : Text} (h : StartsWithPunctuation rest) :
    EndsNumeral rest := by
  refine endsNumeral_of_not_isWordChar fun c hc => ?_
  obtain ⟨tail, rfl⟩ := List.head?_eq_some_iff.mp hc
  rw [Bool.eq_false_iff]
  intro hword
  obtain ⟨hblank, -, hpunctuation⟩ := isWordChar_iff.mp hword
  exact (startsWithPunctuation_cons hblank tail).mp h hpunctuation

section Blanks

variable {gap : Text} (hgap : ∀ c ∈ gap, isBlank c = true)

include hgap

/-- What a row starts with does not depend on the blanks in place of its comments. -/
theorem startsWithPunctuation_filled {gap' : Text} (hgap' : ∀ c ∈ gap', isBlank c = true)
    {row : List Segment} (hcut : IsCut row) (h : StartsWithPunctuation (filled gap row)) :
    StartsWithPunctuation (filled gap' row) := by
  induction row with
  | nil => exact h
  | cons segment row ih =>
      cases segment with
      | code c =>
          rw [filled_code] at h ⊢
          cases hblank : isBlank c with
          | true =>
              have hc : ∀ d ∈ [c], isBlank d = true := by simpa using hblank
              exact (startsWithPunctuation_append hc _).mpr
                (ih hcut.tail ((startsWithPunctuation_append hc _).mp h))
          | false =>
              exact (startsWithPunctuation_cons hblank _).mpr
                ((startsWithPunctuation_cons hblank _).mp h)
      | literal text =>
          obtain ⟨⟨body, rfl, -⟩, -⟩ := hcut
          exact absurd rfl ((startsWithPunctuation_cons rfl _).mp h)
      | line text | block text =>
          rw [filled_comment rfl] at h ⊢
          exact (startsWithPunctuation_append hgap' _).mpr
            (ih hcut.tail ((startsWithPunctuation_append hgap _).mp h))

/-- A row that starts with a token of one character does not go on with a word. -/
theorem not_resumesWord_of_filled {row : List Segment}
    (h : StartsWithPunctuation (filled gap row)) : ¬ ResumesWord row := by
  rintro ⟨comments, d, after, rfl, -, hcomments, hd⟩
  induction comments with
  | nil =>
      obtain ⟨hblank, -, hpunctuation⟩ := isWordChar_iff.mp hd
      exact (startsWithPunctuation_cons hblank _).mp h hpunctuation
  | cons segment comments ih =>
      obtain ⟨hsegment, hcomments⟩ := List.forall_mem_cons.mp hcomments
      rw [List.cons_append, filled_comment hsegment] at h
      exact ih ((startsWithPunctuation_append hgap _).mp h) hcomments

end Blanks

/-- Without anything in place of its comments, a row that starts with a character of a word starts
with a segment for it, or goes on with a word. -/
theorem resumesWord_or_of_filled_nil {row : List Segment} (hcut : IsCut row) {d : Char}
    (hd : isWordChar d = true) {rest : Text} (h : filled [] row = d :: rest) :
    ResumesWord row ∨ ∃ after, row = .code d :: after := by
  induction row with
  | nil => cases h
  | cons segment row ih =>
      cases segment with
      | code c =>
          obtain ⟨rfl, -⟩ := List.cons.inj h
          exact Or.inr ⟨row, rfl⟩
      | literal text =>
          obtain ⟨⟨body, rfl, -⟩, -⟩ := hcut
          obtain ⟨rfl, -⟩ := List.cons.inj h
          exact absurd rfl (isWordChar_iff.mp hd).2.1
      | line text | block text =>
          rw [filled_comment rfl, List.nil_append] at h
          refine Or.inl (.cons rfl ?_)
          rcases ih hcut.tail h with hresumes | ⟨after, rfl⟩
          · exact Or.inl hresumes
          · exact Or.inr ⟨d, after, rfl, hd⟩

/-- The characters of a word stand next to each other in a row if there is a gap in place of
comments, or if no comment is in the word. -/
theorem exists_row_of_filled_word {gap : Text} (hgap : ∀ c ∈ gap, isBlank c = true) {c : Char}
    (hc : isWordChar c = true) {row : List Segment} (hcut : IsCut row)
    (hwhole : gap ≠ [] ∨ ¬ Severed (.code c :: row)) {word after : Text}
    (hword : ∀ d ∈ word, isWordChar d = true) (h : filled gap row = word ++ after) :
    ∃ row', row = word.map .code ++ row' ∧ after = filled gap row' := by
  induction word generalizing c row with
  | nil => exact ⟨row, rfl, h.symm⟩
  | cons d word ih =>
      obtain ⟨hd, hword⟩ := List.forall_mem_cons.mp hword
      have hrow : ∃ after, row = .code d :: after := by
        cases hgapCase : gap with
        | nil =>
            subst hgapCase
            refine (resumesWord_or_of_filled_nil hcut hd h).resolve_left fun hresumes => ?_
            rcases hwhole with hne | hwhole
            · exact hne rfl
            · exact hwhole (severed_cons_iff.mpr (Or.inl ⟨c, rfl, hc, hresumes⟩))
        | cons e gapRest =>
            -- Neither a gap nor a literal starts with a character of a word.
            cases row with
            | nil => cases h
            | cons segment row =>
                cases segment with
                | code e =>
                    obtain ⟨rfl, -⟩ := List.cons.inj h
                    exact ⟨row, rfl⟩
                | literal text =>
                    obtain ⟨⟨body, rfl, -⟩, -⟩ := hcut
                    obtain ⟨rfl, -⟩ := List.cons.inj h
                    exact absurd rfl (isWordChar_iff.mp hd).2.1
                | line text | block text =>
                    rw [filled_comment rfl, hgapCase] at h
                    obtain ⟨rfl, -⟩ := List.cons.inj h
                    have hblank := hgap e (by rw [hgapCase]; exact List.mem_cons_self)
                    rw [(isWordChar_iff.mp hd).1] at hblank
                    cases hblank
      obtain ⟨rowRest, rfl⟩ := hrow
      rw [filled_code, List.cons_append] at h
      have hwhole' : gap ≠ [] ∨ ¬ Severed (.code d :: rowRest) :=
        hwhole.imp_right fun hsevered hlater => hsevered (severed_cons_iff.mpr (Or.inr hlater))
      obtain ⟨row', rfl, hafter⟩ := ih hd hcut.tail hwhole' hword (List.cons.inj h).2
      exact ⟨row', rfl, hafter⟩

/-- A row without its leading characters follows its segments as they are to. -/
theorem IsCut.of_map_code {word : Text} {row : List Segment} (h : IsCut (word.map .code ++ row)) :
    IsCut row := by
  induction word with
  | nil => exact h
  | cons c word ih => exact ih h.tail

/-! ## Reading filled rows -/

/-- All literals of a row are closed. -/
def LiteralsClosed (row : List Segment) : Prop :=
  ∀ text, .literal text ∈ row → ∃ body, text = '"' :: body ∧ Closes body

/-- A segment that is no literal does not count. -/
theorem LiteralsClosed.cons {segment : Segment} {row : List Segment} (h : LiteralsClosed row)
    (hsegment : ∀ text, segment ≠ .literal text) : LiteralsClosed (segment :: row) := by
  intro text hmem
  rcases List.mem_cons.mp hmem with heq | hmem
  · exact absurd heq.symm (hsegment text)
  · exact h text hmem

/-- A whole word in front does not count. -/
theorem LiteralsClosed.append_word {row : List Segment} (h : LiteralsClosed row) (word : Text) :
    LiteralsClosed (word.map .code ++ row) := by
  induction word with
  | nil => exact h
  | cons c word ih => exact ih.cons fun text heq => by cases heq

/-- A row that is read with blanks in place of its comments is read alike with other blanks, and
with nothing if no word is severed; with blanks none is.  Its literals are closed. -/
theorem readFrom_filled [Platform] {gap gap' : Text} (hgap : ∀ c ∈ gap, isBlank c = true)
    (hgap' : ∀ c ∈ gap', isBlank c = true) {text text' : Text} {v : Value} {row : List Segment}
    (hcut : IsCut row) (hwhole : gap ≠ [] ∨ ¬ Severed row) {place : Place}
    (h : readFrom .standard text place (filled gap row) = .ok v) :
    readFrom .standard text' place (filled gap' row) = .ok v ∧ ¬ Severed row ∧
      LiteralsClosed row := by
  -- A word takes up several segments at once, so the induction is on the length of the row.
  induction hlength : row.length using Nat.strong_induction_on generalizing row place with
  | _ length ih =>
  subst hlength
  cases row with
  | nil => exact ⟨readFrom_nil_eq_ok h, not_severed_nil, fun text hmem => by cases hmem⟩
  | cons segment row =>
      have hlater : gap ≠ [] ∨ ¬ Severed row :=
        hwhole.imp_right fun hsevered hrow => hsevered (severed_cons_iff.mpr (Or.inr hrow))
      cases segment with
      | line body | block body =>
          rw [filled_comment rfl] at h ⊢
          rw [readFrom_blanks hgap] at h
          rw [readFrom_blanks hgap']
          obtain ⟨hread, hsevered, hclosed⟩ := ih row.length (by simp) hcut.tail hlater h rfl
          refine ⟨hread, ?_, hclosed.cons fun text heq => by cases heq⟩
          rwa [severed_cons_of_not_word fun c heq => by cases heq]
      | literal body =>
          obtain ⟨⟨body, rfl, hbody⟩, hrow⟩ := hcut
          rw [filled_literal, List.cons_append] at h ⊢
          obtain ⟨token, after, place', hscan, hnext, hread⟩ := exists_step_of_readFrom rfl h
          obtain ⟨literal, s, -, htext, hcloses, hliteral⟩ := exists_literal_of_scanToken hscan
          -- The token ends where the segment does.
          have hends : (body, filled gap row) = (literal, after) := by
            rw [← hbody _ (by rintro rfl; rfl), htext, hcloses.cut]
          obtain ⟨rfl, rfl⟩ := Prod.mk.inj hends
          rw [readFrom_of_scanToken (hliteral _) hnext]
          obtain ⟨hread', hsevered, hclosed⟩ := ih row.length (by simp) hrow hlater hread rfl
          refine ⟨hread', ?_, ?_⟩
          · rwa [severed_cons_of_not_word fun c heq => by cases heq]
          · intro text hmem
            rcases List.mem_cons.mp hmem with heq | hmem
            · exact ⟨body, Segment.literal.inj heq, hcloses⟩
            · exact hclosed text hmem
      | code c =>
          obtain ⟨hquote, hrow⟩ := hcut
          rw [filled_code] at h ⊢
          cases hword : isWordChar c with
          | false =>
              -- A blank or a token of one character: the reader goes on right after it.
              have hstep : ∃ place', (∀ rest, readFrom .standard text place (c :: rest)
                    = readFrom .standard text place' rest) ∧
                  ∀ rest, readFrom .standard text' place (c :: rest)
                    = readFrom .standard text' place' rest := by
                cases hblank : isBlank c with
                | true =>
                    have hc : ∀ d ∈ [c], isBlank d = true := by simpa using hblank
                    exact ⟨place, readFrom_blanks hc place, readFrom_blanks hc place⟩
                | false =>
                    cases hpunctuation : punctuation? c with
                    | none =>
                        rw [isWordChar_iff.mpr ⟨hblank, hquote, hpunctuation⟩] at hword
                        cases hword
                    | some token =>
                        obtain ⟨token', after, place', hscan, hnext, -⟩ :=
                          exists_step_of_readFrom hblank h
                        rw [scanToken_punctuation hpunctuation] at hscan
                        obtain ⟨rfl, -⟩ := Prod.mk.inj (Except.ok.inj hscan)
                        exact ⟨place', readFrom_punctuation hpunctuation hnext,
                          readFrom_punctuation hpunctuation hnext⟩
              obtain ⟨place', hstep, hstep'⟩ := hstep
              rw [hstep] at h
              obtain ⟨hread, hsevered, hclosed⟩ := ih row.length (by simp) hrow hlater h rfl
              refine ⟨(hstep' _).trans hread, ?_, hclosed.cons fun text heq => by cases heq⟩
              rwa [severed_cons_of_not_word]
              rintro d ⟨⟩
              exact hword
          | true =>
              have hblank := (isWordChar_iff.mp hword).1
              obtain ⟨token, after, place', hscan, hnext, hread⟩ :=
                exists_step_of_readFrom hblank h
              obtain ⟨htoken, word, htext, hchars, -, hmore⟩ :=
                exists_word_of_scanToken hword hscan
              obtain ⟨w, outer, rfl⟩ := Place.exists_after_of_isWord htoken hnext
              obtain ⟨row', rfl, rfl⟩ :=
                exists_row_of_filled_word hgap hword hrow hwhole hchars htext
              have hrow' := hrow.of_map_code
              have hlater' : gap ≠ [] ∨ ¬ Severed row' := hlater.imp_right fun hsevered hmore' =>
                hsevered (by
                  obtain ⟨before, d, rest, rfl, hd, hrest⟩ := hmore'
                  exact ⟨word.map .code ++ before, d, rest, by simp, hd, hrest⟩)
              obtain ⟨hread', hsevered, hclosed⟩ :=
                ih row'.length (by simp) hrow' hlater' hread rfl
              -- What follows the word starts alike in both texts, so the word ends in both.
              have hstarts := startsWithPunctuation_of_readFrom hread
              have hstarts' := startsWithPunctuation_filled hgap hgap' hrow' hstarts
              have hscan' := hmore _ (endsNumeral_of_startsWithPunctuation hstarts')
              refine ⟨?_, ?_, ?_⟩
              · rw [filled_map_code, readFrom_of_scanToken hscan' hnext, hread']
              · exact not_severed_word (c :: word) (not_resumesWord_of_filled hgap hstarts) hsevered
              · exact hclosed.append_word (c :: word)

/-! ## Detected comments -/

/-- Characters in front do not hide that a text is taken to hold comments. -/
theorem hasMarker_cons {text : Text} (h : hasMarker text = true) (c : Char) :
    hasMarker (c :: text) = true := by
  unfold hasMarker
  split
  · rfl
  · rfl
  · next heq =>
    obtain ⟨-, rfl⟩ := List.cons.inj heq
    exact h
  · next heq => cases heq

/-- A row of segments with a comment is taken to hold comments if its literals are closed. -/
theorem hasMarker_of_isComment {row : List Segment} (hcut : IsCut row)
    (hclosed : LiteralsClosed row) (h : ∃ segment ∈ row, segment.isComment = true) :
    hasMarker (emptyLiterals (row.flatMap Segment.text)) = true := by
  induction row with
  | nil =>
      obtain ⟨segment, hmem, -⟩ := h
      cases hmem
  | cons segment row ih =>
      have hrest : LiteralsClosed row := fun text hmem => hclosed text (List.mem_cons_of_mem _ hmem)
      have hlater (hsegment : segment.isComment = false) :
          hasMarker (emptyLiterals (row.flatMap Segment.text)) = true := by
        refine ih hcut.tail hrest ?_
        obtain ⟨comment, hmem, hcomment⟩ := h
        rcases List.mem_cons.mp hmem with rfl | hmem
        · rw [hsegment] at hcomment
          cases hcomment
        · exact ⟨comment, hmem, hcomment⟩
      rw [List.flatMap_cons]
      cases segment with
      | code c =>
          rw [Segment.text, List.singleton_append, emptyLiterals, if_neg hcut.1]
          exact hasMarker_cons (hlater rfl) c
      | literal text =>
          obtain ⟨body, rfl, hbody⟩ := hclosed text List.mem_cons_self
          rw [Segment.text, List.cons_append, emptyLiterals_of_afterLiteral? (hbody.after _)]
          exact hasMarker_cons (hasMarker_cons (hlater rfl) _) _
      | line text =>
          obtain ⟨⟨body, rfl⟩, -⟩ := hcut
          simp [Segment.text, emptyLiterals, hasMarker]
      | block text =>
          obtain ⟨⟨body, rfl⟩, -⟩ := hcut
          simp [Segment.text, emptyLiterals, hasMarker]

/-- Without comments in a row nothing is left out of it. -/
theorem filled_of_not_isComment (gap : Text) {row : List Segment}
    (h : ∀ segment ∈ row, segment.isComment = false) :
    filled gap row = row.flatMap Segment.text := by
  rw [filled, List.flatMap_def, List.flatMap_def]
  congr 1
  refine List.map_congr_left fun segment hmem => ?_
  rw [h segment hmem]
  rfl

/-! ## Comments as blanks -/

/-- With a space in place of each comment a text is read as it is read without its comments, where
none of them severs a word; where one does it is not read at all.  If it is read, then a document
whose comments may be lost is processed as the document with the spaces. -/
theorem parseDocument_spaced_eq_ok_iff [Platform] (text : Text) (v : Value) :
    (parseDocument (spaced text) = .ok v ↔
      parseDocument (strip text) = .ok v ∧ ¬ Severed (segments text)) ∧
    ∀ options : ProcessOptions, options.force = true → parseDocument (spaced text) = .ok v →
      processText options text = processValue options text v := by
  have hspace : ∀ c ∈ [' '], isBlank c = true := List.forall_mem_singleton.mpr rfl
  have hnone : ∀ c ∈ ([] : Text), isBlank c = true := List.forall_mem_nil _
  have hcut := isCut_segments text
  rw [strip_eq_filled, spaced]
  have hspaced : parseDocument (filled [' '] (segments text)) = .ok v →
      parseDocument (filled [] (segments text)) = .ok v ∧ ¬ Severed (segments text) ∧
        LiteralsClosed (segments text) := by
    rw [parseDocument_eq_ok_iff, parseDocument_eq_ok_iff]
    exact readFrom_filled hspace hnone hcut (Or.inl (List.cons_ne_nil _ _))
  refine ⟨⟨fun h => ⟨(hspaced h).1, (hspaced h).2.1⟩, ?_⟩, fun options hforce h => ?_⟩
  · rintro ⟨h, hsevered⟩
    rw [parseDocument_eq_ok_iff] at h ⊢
    exact (readFrom_filled hnone hspace hcut (Or.inr hsevered) h).1
  · obtain ⟨hstrip, -, hclosed⟩ := hspaced h
    have hread : parseDocument (if detect text = true then strip text else text) = .ok v := by
      split
      · rwa [strip_eq_filled]
      · next hdetect =>
        -- Comments would have been detected, so there are none.
        have hplain : ∀ segment ∈ segments text, segment.isComment = false := by
          intro segment hmem
          rw [Bool.eq_false_iff]
          intro hcomment
          refine hdetect ?_
          rw [← hasMarker_of_isComment hcut hclosed ⟨segment, hmem, hcomment⟩,
            flatMap_text_segments]
          rfl
        rwa [filled_of_not_isComment _ hplain, flatMap_text_segments] at h
    unfold processText
    simp only [hforce, Bool.not_true, Bool.and_false, Bool.false_eq_true, if_false, hread]

/-- The options of a run that rewrites documents in spite of their comments. -/
def losingComments : ProcessOptions where
  check := false
  write := true
  force := true
  tabs := false
  indent := 2
  sortFrom := 0
  sortOrder := []

/-- A comment between a comma and an item is a blank. -/
theorem parseDocument_spaced_comma :
    parseDocument (spaced "[1,/**/2]\n".toList) = .ok (.list [.int 1, .int 2]) ∧
      processText losingComments "[1,/**/2]\n".toList
        = .ok (.updated "[\n  1,\n  2\n]\n".toList) := by
  have hspaced : spaced "[1,/**/2]\n".toList = "[1, 2]\n".toList := by
    simp [spaced, segments, cutBlock, filled, Segment.isComment, Segment.text]
  have hread : parseDocument (spaced "[1,/**/2]\n".toList) = .ok (.list [.int 1, .int 2]) := by
    rw [hspaced, parseDocument_eq_ok_iff]
    refine (readFrom_punctuation rfl rfl _).trans ?_
    refine (readFrom_of_scanToken
      (show scanToken _ = .ok (_, ", 2]\n".toList) from rfl) rfl).trans ?_
    refine (readFrom_punctuation rfl rfl _).trans ?_
    refine (readFrom_blanks (List.forall_mem_singleton.mpr rfl) _ _).trans ?_
    refine (readFrom_of_scanToken
      (show scanToken _ = .ok (_, "]\n".toList) from rfl) rfl).trans ?_
    refine (readFrom_punctuation rfl rfl _).trans ?_
    exact readFrom_finish _
  refine ⟨hread, ?_⟩
  rw [(parseDocument_spaced_eq_ok_iff _ _).2 losingComments rfl hread]
  rfl

/-- A comment within a number is no blank: without it the number is whole, with a space in its place
there is no document. -/
theorem parseDocument_strip_severed :
    parseDocument (strip "1/**/2\n".toList) = .ok (.int 12) ∧
      (¬ ∃ v, parseDocument (spaced "1/**/2\n".toList) = .ok v) ∧
      processText losingComments "1/**/2\n".toList = .ok (.updated "12\n".toList) := by
  have hspaced : spaced "1/**/2\n".toList = "1 2\n".toList := by
    simp [spaced, segments, cutBlock, filled, Segment.isComment, Segment.text]
  have hstrip : strip "1/**/2\n".toList = "12\n".toList := by rfl
  have hdetect : detect "1/**/2\n".toList = true := by
    simp [detect, emptyLiterals, hasMarker]
  have hread : parseDocument (strip "1/**/2\n".toList) = .ok (.int 12) := by
    rw [hstrip, parseDocument_eq_ok_iff]
    refine (readFrom_of_scanToken
      (show scanToken _ = .ok (_, "\n".toList) from rfl) rfl).trans ?_
    exact readFrom_finish _
  refine ⟨hread, ?_, ?_⟩
  · rintro ⟨v, hv⟩
    rw [hspaced, parseDocument_eq_ok_iff] at hv
    have hfirst : readFrom .standard "1 2\n".toList (.after (.int 1) []) " 2\n".toList = .ok v :=
      (readFrom_of_scanToken rfl rfl).symm.trans hv
    have hstarts := startsWithPunctuation_of_readFrom hfirst
    exact hstarts '2' rfl rfl
  · simp only [processText, hdetect, losingComments, Bool.not_true, Bool.and_false,
      Bool.false_eq_true, if_false, if_true, hread]
    rfl

end KeyOrder.Comment
