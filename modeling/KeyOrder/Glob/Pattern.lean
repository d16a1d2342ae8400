import KeyOrder.Glob.Brace
import KeyOrder.Glob.Piece
/-!
# Path patterns

A pattern selects paths.  Two stars stand for any text, one star for any text
within a directory, a question mark for one character within a directory, and
everything else for itself.  Two stars and a slash at the very start also stand
for nothing at all.  Line feeds are special in two ways: two stars do not go
over them, and one at the end of a path is passed over.
-/

namespace KeyOrder.Glob

/-- A piece of a path pattern. -/
inductive Piece where
  /-- Two stars: any text. -/
  | anything
  /-- A star: any text without a slash. -/
  | withinName
  /-- A question mark: one character that is no slash. -/
  | oneInName
  /-- A character that stands for itself. -/
  | literal (c : CodePoint)
  deriving DecidableEq

/-- A path pattern. -/
structure Pattern where
  /-- Whether the pattern starts with two stars and a slash. -/
  anyDirectory : Bool
  pieces : List Piece
  deriving DecidableEq

/-! ## Reading -/

/-- The pieces of a text. -/
def piecesOf : CodeText → List Piece
  | .scalar '*' :: .scalar '*' :: rest => .anything :: piecesOf rest
  | .scalar '*' :: rest => .withinName :: piecesOf rest
  | .scalar '?' :: rest => .oneInName :: piecesOf rest
  | c :: rest => .literal c :: piecesOf rest
  | [] => []

/-- The pattern of a text. -/
def Pattern.ofText : CodeText → Pattern
  | .scalar '*' :: .scalar '*' :: .scalar '/' :: rest =>
    { anyDirectory := true, pieces := piecesOf rest }
  | text => { anyDirectory := false, pieces := piecesOf text }

/-! ## Matching -/

/-- The ends of a path that a piece takes together with the rest of the pattern. -/
def Piece.take : Piece → CodeText → Ends → Ends
  | anything => takeAny (· != .scalar '\n')
  | withinName => takeAny (· != .scalar '/')
  | oneInName => takeOne (· != .scalar '/')
  | literal c => takeOne (· == c)

/-- What may be left of a path at the end of a pattern. -/
def atEnd : CodeText → Bool
  | [] => true
  | [.scalar '\n'] => true
  | _ => false

/-- The ends of a path that pieces take. -/
def takePieces (pieces : List Piece) (path : CodeText) : Ends :=
  pieces.foldr (fun piece => piece.take path) (endsOf atEnd path)

/-- Whether a pattern takes a whole path. -/
def Pattern.matches (pattern : Pattern) (path : CodeText) : Bool :=
  let ends := takePieces pattern.pieces path
  whole ends ||
    (pattern.anyDirectory &&
      whole (takeThrough (· == .scalar '/') (· != .scalar '\n') path ends))

/-- Whether a path is selected by the text of a pattern: it equals the text, or one of the
patterns that the text stands for takes it. -/
def matchesPattern (path pattern : CodeText) : Bool :=
  path == pattern ||
    (expandBraces pattern).any fun alternative => (Pattern.ofText alternative).matches path

/-- Whether it can be told if a pattern selects a path: a path that equals the pattern is not
compared further. -/
def isDecided [Platform] (path pattern : CodeText) : Bool :=
  path == pattern || isExpandable pattern

/-- Whether a pattern selects a path, if that can be told. -/
def selects [Platform] (path pattern : CodeText) : Except Fault Bool :=
  if isDecided path pattern then .ok (matchesPattern path pattern) else .error .tooManyChoices

/-- Whether a text has characters that are special in file patterns. -/
def isGlob (text : CodeText) : Bool :=
  text.any fun c =>
    c == .scalar '*' || c == .scalar '?' || c == .scalar '[' || c == .scalar ']'

/-! ## Regular expressions -/

/-- The characters that need a backslash in a regular expression. -/
def regexSpecials : List Char :=
  "()[]".toList ++ ['{', '}'] ++ "?*+-|^$\\.&~# \t\n\r\x0b\x0c".toList

/-- A character in a regular expression that stands for itself. -/
def regexLiteral (c : CodePoint) : CodeText :=
  if (regexSpecials.map CodePoint.scalar).contains c then [.scalar '\\', c] else [c]

/-- A piece as a regular expression. -/
def Piece.regex : Piece → CodeText
  | anything => codeText ".*"
  | withinName => codeText "[^/]*"
  | oneInName => codeText "[^/]"
  | literal c => regexLiteral c

/-- A pattern as a regular expression. -/
def Pattern.regex (pattern : Pattern) : CodeText :=
  .scalar '^' :: ((if pattern.anyDirectory then codeText "(?:.*/)?" else []) ++
    pattern.pieces.flatMap Piece.regex ++ [.scalar '$'])

end KeyOrder.Glob
