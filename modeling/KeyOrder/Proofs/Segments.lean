import KeyOrder.Comment.Strip
import Mathlib
/-!
# Segments of texts with comments

A text that may hold comments is a row of segments: string literals, comments, and
single characters outside of both.  The segments make up the text; removing its
comments leaves out those that are comments, and a comment may as well be replaced
by a gap of any other kind.
-/

namespace KeyOrder.Comment

/-! ## Literals and blocks -/

/-- What belongs to a string literal after its opening quote, and what follows the literal; without
a closing quote all belongs to it. -/
def cutLiteral : Text → Text × Text
  | [] => ([], [])
  | '"' :: rest => (['"'], rest)
  | '\\' :: c :: rest => ('\\' :: c :: (cutLiteral rest).1, (cutLiteral rest).2)
  | c :: rest => (c :: (cutLiteral rest).1, (cutLiteral rest).2)

/-- What belongs to a block comment after its slash and star, and what follows the comment; without
a star and slash all belongs to it. -/
def cutBlock : Text → Text × Text
  | [] => ([], [])
  | '*' :: '/' :: rest => (['*', '/'], rest)
  | c :: rest => (c :: (cutBlock rest).1, (cutBlock rest).2)

/-- A literal and what follows it make up the text. -/
theorem cutLiteral_append (text : Text) : (cutLiteral text).1 ++ (cutLiteral text).2 = text := by
  fun_induction cutLiteral text with
  | case1 => rfl
  | case2 rest => rfl
  | case3 c rest ih => rw [List.cons_append, List.cons_append, ih]
  | case4 c rest _ _ ih => rw [List.cons_append, ih]

/-- A block comment and what follows it make up the text. -/
theorem cutBlock_append (text : Text) : (cutBlock text).1 ++ (cutBlock text).2 = text := by
  fun_induction cutBlock text with
  | case1 => rfl
  | case2 rest => rfl
  | case3 c rest _ ih => rw [List.cons_append, ih]

/-- What follows a literal is not longer than the text. -/
theorem length_cutLiteral_le (text : Text) : (cutLiteral text).2.length ≤ text.length := by
  conv => rhs; rw [← cutLiteral_append text]
  rw [List.length_append]
  omega

/-- What follows a block comment is not longer than the text. -/
theorem length_cutBlock_le (text : Text) : (cutBlock text).2.length ≤ text.length := by
  conv => rhs; rw [← cutBlock_append text]
  rw [List.length_append]
  omega

/-- A character that is neither a quote nor a backslash belongs to the literal. -/
theorem cutLiteral_cons {c : Char} (hquote : c ≠ '"') (hslash : c ≠ '\\') (rest : Text) :
    cutLiteral (c :: rest) = (c :: (cutLiteral rest).1, (cutLiteral rest).2) := by
  rw [cutLiteral.eq_def]
  split
  · next heq => cases heq
  · next heq => exact absurd (List.cons.inj heq).1 hquote
  · next heq => exact absurd (List.cons.inj heq).1 hslash
  · next heq =>
    obtain ⟨rfl, rfl⟩ := List.cons.inj heq
    rfl

/-- A literal is cut off again in front of anything else; one without a closing quote only at the
end of a text. -/
theorem cutLiteral_append_of_cut (text : Text) {more : Text}
    (hmore : (cutLiteral text).2 = [] → more = []) :
    cutLiteral ((cutLiteral text).1 ++ more) = ((cutLiteral text).1, more) := by
  fun_induction cutLiteral text with
  | case1 =>
      rw [hmore rfl]
      rfl
  | case2 rest => rfl
  | case3 c rest ih => rw [List.cons_append, List.cons_append, cutLiteral, ih hmore]
  | case4 c rest hquote hescape ih =>
      by_cases hslash : c = '\\'
      · -- A backslash that escapes nothing is the last character of the text.
        have hrest : rest = [] := by
          cases rest with
          | nil => rfl
          | cons d tail => exact absurd rfl (hescape d tail hslash)
        subst hrest
        rw [hmore rfl, hslash]
        rfl
      · rw [List.cons_append, cutLiteral_cons (fun h => hquote h) hslash, ih hmore]

/-! ## Segments -/

/-- A segment of a text that may hold comments. -/
inductive Segment where
  /-- A character outside string literals and comments. -/
  | code (c : Char)
  /-- A string literal with its quotes. -/
  | literal (text : Text)
  /-- A line comment without the line feed that ends it. -/
  | line (text : Text)
  /-- A block comment. -/
  | block (text : Text)
  deriving DecidableEq

namespace Segment

/-- The text of a segment. -/
def text : Segment → Text
  | code c => [c]
  | literal text => text
  | line text => text
  | block text => text

/-- Whether a segment is a comment. -/
def isComment : Segment → Bool
  | code _ => false
  | literal _ => false
  | line _ => true
  | block _ => true

end Segment

/-- The segments of a text. -/
def segments (text : Text) : List Segment :=
  match text with
  | [] => []
  | '"' :: rest => .literal ('"' :: (cutLiteral rest).1) :: segments (cutLiteral rest).2
  | '/' :: '/' :: rest =>
    .line ('/' :: '/' :: rest.takeWhile (· != '\n')) :: segments (rest.dropWhile (· != '\n'))
  | '/' :: '*' :: rest => .block ('/' :: '*' :: (cutBlock rest).1) :: segments (cutBlock rest).2
  | c :: rest => .code c :: segments rest
termination_by text.length
decreasing_by
  · have := length_cutLiteral_le rest
    simp only [List.length_cons]
    omega
  · have := (List.dropWhile_sublist (l := rest) (· != '\n')).length_le
    simp only [List.length_cons]
    omega
  · have := length_cutBlock_le rest
    simp only [List.length_cons]
    omega
  · simp

/-- The segments of a text make it up. -/
theorem flatMap_text_segments (text : Text) : (segments text).flatMap Segment.text = text := by
  fun_induction segments text with
  | case1 => rfl
  | case2 rest ih => rw [List.flatMap_cons, ih, Segment.text, List.cons_append, cutLiteral_append]
  | case3 rest ih =>
      rw [List.flatMap_cons, ih, Segment.text, List.cons_append, List.cons_append,
        List.takeWhile_append_dropWhile]
  | case4 rest ih =>
      rw [List.flatMap_cons, ih, Segment.text, List.cons_append, List.cons_append, cutBlock_append]
  | case5 c rest _ _ _ ih => rw [List.flatMap_cons, ih, Segment.text, List.singleton_append]

/-- Only the empty text has no segments. -/
theorem segments_eq_nil_iff {text : Text} : segments text = [] ↔ text = [] := by
  constructor
  · intro h
    rw [← flatMap_text_segments text, h, List.flatMap_nil]
  · rintro rfl
    rw [segments]

/-- How the segments of a text follow each other: a quote always opens a literal, and a literal ends
where it is cut; only at the end of the text it may lack its closing quote.  A comment starts with
two slashes, or with a slash and a star. -/
def IsCut : List Segment → Prop
  | [] => True
  | .code c :: row => c ≠ '"' ∧ IsCut row
  | .literal text :: row =>
    (∃ body, text = '"' :: body ∧
      ∀ more, (row = [] → more = []) → cutLiteral (body ++ more) = (body, more)) ∧ IsCut row
  | .line text :: row => (∃ body, text = '/' :: '/' :: body) ∧ IsCut row
  | .block text :: row => (∃ body, text = '/' :: '*' :: body) ∧ IsCut row

/-- The segments of a text follow each other as they are to. -/
theorem isCut_segments (text : Text) : IsCut (segments text) := by
  fun_induction segments text with
  | case1 => trivial
  | case2 rest ih =>
      refine ⟨⟨(cutLiteral rest).1, rfl, fun more hmore => ?_⟩, ih⟩
      exact cutLiteral_append_of_cut rest fun hend => hmore (segments_eq_nil_iff.mpr hend)
  | case3 rest ih => exact ⟨⟨_, rfl⟩, ih⟩
  | case4 rest ih => exact ⟨⟨_, rfl⟩, ih⟩
  | case5 c rest hquote _ _ ih => exact ⟨fun h => hquote h, ih⟩

/-- What follows the first segment follows as it is to. -/
theorem IsCut.tail {segment : Segment} {row : List Segment} (h : IsCut (segment :: row)) :
    IsCut row := by
  cases segment <;> exact h.2

/-! ## Gaps for comments -/

/-- The text of a row of segments with a gap in place of each comment. -/
def filled (gap : Text) (row : List Segment) : Text :=
  row.flatMap fun segment => if segment.isComment then gap else segment.text

/-- A comment leaves its gap. -/
theorem filled_comment {gap : Text} {segment : Segment} (h : segment.isComment = true)
    (row : List Segment) : filled gap (segment :: row) = gap ++ filled gap row := by
  rw [filled, List.flatMap_cons, if_pos h]
  rfl

/-- A character outside literals and comments stays. -/
@[simp] theorem filled_code (gap : Text) (c : Char) (row : List Segment) :
    filled gap (.code c :: row) = c :: filled gap row := by
  rfl

/-- A literal stays. -/
@[simp] theorem filled_literal (gap text : Text) (row : List Segment) :
    filled gap (.literal text :: row) = text ++ filled gap row := by
  rfl

/-- A text with a space in place of each comment. -/
def spaced (text : Text) : Text :=
  filled [' '] (segments text)

/-! ## Removing comments -/

/-- In a literal all is kept up to its end. -/
theorem stripFrom_string (text : Text) :
    stripFrom .string text = (cutLiteral text).1 ++ stripFrom .code (cutLiteral text).2 := by
  fun_induction cutLiteral text with
  | case1 => rfl
  | case2 rest => rfl
  | case3 c rest ih => rw [stripFrom, stripFrom, ih, List.cons_append, List.cons_append]
  | case4 c rest hquote hescape ih =>
      by_cases hslash : c = '\\'
      · have hrest : rest = [] := by
          cases rest with
          | nil => rfl
          | cons d tail => exact absurd rfl (hescape d tail hslash)
        rw [hslash, hrest]
        rfl
      · rw [stripFrom, ih, List.cons_append]
        · exact fun h => hquote h
        · exact hslash

/-- Up to the end of its line nothing of a line comment is kept. -/
theorem stripFrom_line (text : Text) :
    stripFrom .line text = stripFrom .code (text.dropWhile (· != '\n')) := by
  induction text with
  | nil => rfl
  | cons c rest ih =>
      by_cases hfeed : c = '\n'
      · subst hfeed
        rfl
      · rw [stripFrom, ih, List.dropWhile_cons_of_pos (by simpa using hfeed)]
        exact hfeed

/-- Up to its end nothing of a block comment is kept. -/
theorem stripFrom_block (text : Text) :
    stripFrom .block text = stripFrom .code (cutBlock text).2 := by
  fun_induction cutBlock text with
  | case1 => rfl
  | case2 rest => rfl
  | case3 c rest hend ih =>
      rw [stripFrom, ih]
      exact hend

/-- Removing comments leaves nothing in their place and keeps all other segments. -/
theorem strip_eq_filled (text : Text) : strip text = filled [] (segments text) := by
  rw [strip]
  fun_induction segments text with
  | case1 => rfl
  | case2 rest ih => rw [stripFrom, stripFrom_string, ih, filled_literal, List.cons_append]
  | case3 rest ih => rw [stripFrom, stripFrom_line, ih, filled_comment rfl, List.nil_append]
  | case4 rest ih => rw [stripFrom, stripFrom_block, ih, filled_comment rfl, List.nil_append]
  | case5 c rest hquote hline hblock ih =>
      rw [stripFrom, ih, filled_code]
      · exact hquote
      · exact hline
      · exact hblock

end KeyOrder.Comment
