/-!
# Pieces of patterns

A pattern is a row of pieces.  Each piece says which texts it takes from the
start of a path or a name; the rest of the pattern must take what is left.  What
a row of pieces can take is told for all ends of a text at once, so that no end
is gone through twice.
-/

namespace KeyOrder.Glob

variable {α : Type}

/-- Which ends of a text are taken: the whole text first, then each end after one more character,
the empty one last. -/
abbrev Ends := List Bool

/-- Whether the whole text is taken. -/
def whole (ends : Ends) : Bool :=
  ends.headD false

/-- The ends that a pattern without pieces takes. -/
def endsOf (taken : List α → Bool) : List α → Ends
  | [] => [taken []]
  | c :: text => taken (c :: text) :: endsOf taken text

/-- Takes allowed characters, as many as the rest of the pattern needs. -/
def takeAny (allowed : α → Bool) : List α → Ends → Ends
  | c :: text, rest :: ends =>
    let further := takeAny allowed text ends
    (rest || (allowed c && whole further)) :: further
  | _, ends => ends

/-- Takes one character that is allowed. -/
def takeOne (allowed : α → Bool) : List α → Ends → Ends
  | c :: text, _ :: ends => (allowed c && whole ends) :: takeOne allowed text ends
  | _, _ => [false]

/-- Takes a row of allowed characters up to and with a last one. -/
def takeThrough (last allowed : α → Bool) : List α → Ends → Ends
  | c :: text, _ :: ends =>
    let further := takeThrough last allowed text ends
    ((last c && whole ends) || (allowed c && whole further)) :: further
  | _, _ => [false]

end KeyOrder.Glob
