import KeyOrder.Text.CodePoint
/-!
# Removing comments

A line comment runs from two slashes to the end of its line, whose line feed
stays.  A block comment runs from slash and star to the first star and slash
after them.  Neither starts inside a string literal, and a literal ends at the
first quote that no backslash escapes.
-/

namespace KeyOrder.Comment

/-- Where the reader of a text stands. -/
inductive Mode where
  /-- Outside strings and comments. -/
  | code
  /-- Inside a string literal. -/
  | string
  /-- Inside a string literal, right after a backslash. -/
  | escape
  /-- Inside a line comment. -/
  | line
  /-- Inside a block comment. -/
  | block
  deriving DecidableEq, Repr

/-- What is left of a text without its comments, read from a mode on. -/
def stripFrom : Mode → Text → Text
  | .code, '"' :: rest => '"' :: stripFrom .string rest
  | .code, '/' :: '/' :: rest => stripFrom .line rest
  | .code, '/' :: '*' :: rest => stripFrom .block rest
  | .code, c :: rest => c :: stripFrom .code rest
  | .string, '"' :: rest => '"' :: stripFrom .code rest
  | .string, '\\' :: rest => '\\' :: stripFrom .escape rest
  | .string, c :: rest => c :: stripFrom .string rest
  | .escape, c :: rest => c :: stripFrom .string rest
  | .line, '\n' :: rest => '\n' :: stripFrom .code rest
  | .line, _ :: rest => stripFrom .line rest
  | .block, '*' :: '/' :: rest => stripFrom .code rest
  | .block, _ :: rest => stripFrom .block rest
  | _, [] => []

/-- A text without its comments. -/
def strip (text : Text) : Text :=
  stripFrom .code text

end KeyOrder.Comment
