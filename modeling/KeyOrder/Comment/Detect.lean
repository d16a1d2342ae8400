import KeyOrder.Text.CodePoint
/-!
# Detecting comments

A text is taken to hold comments if two slashes, or a slash and a star, are left
after all string literals are emptied.  A literal that is never closed, or in
which a backslash stands before a line feed, is no literal; its first quote is
left alone and the search goes on after it.
-/

namespace KeyOrder.Comment

/-- What follows the string literal whose opening quote has been read, if it is closed. -/
def afterLiteral? : Text → Option Text
  | [] => none
  | '"' :: rest => some rest
  | '\\' :: c :: rest => if c = '\n' then none else afterLiteral? rest
  | c :: rest => if c = '\\' then none else afterLiteral? rest

/-- A literal is not longer than the text. -/
theorem length_afterLiteral_lt {text rest : Text} (h : afterLiteral? text = some rest) :
    rest.length < text.length := by
  fun_induction afterLiteral? text with
  | case1 => simp at h
  | case2 => simp_all
  | case3 => simp at h
  | case4 c tail _ ih =>
    have := ih h
    simp only [List.length_cons]
    omega
  | case5 => simp at h
  | case6 c tail _ _ _ ih =>
    have := ih h
    simp only [List.length_cons]
    omega

/-- A text with all string literals emptied. -/
def emptyLiterals : Text → Text
  | [] => []
  | c :: rest =>
    if c = '"' then
      match _h : afterLiteral? rest with
      | some after => '"' :: '"' :: emptyLiterals after
      | none => '"' :: emptyLiterals rest
    else c :: emptyLiterals rest
termination_by text => text.length
decreasing_by
  · have := length_afterLiteral_lt _h
    simp only [List.length_cons]
    omega
  · simp
  · simp

/-- Whether two slashes, or a slash and a star, stand next to each other. -/
def hasMarker : Text → Bool
  | '/' :: '/' :: _ => true
  | '/' :: '*' :: _ => true
  | _ :: rest => hasMarker rest
  | [] => false

/-- Whether a text is taken to hold comments. -/
def detect (text : Text) : Bool :=
  hasMarker (emptyLiterals text)

end KeyOrder.Comment
