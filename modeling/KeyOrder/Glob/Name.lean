import KeyOrder.Glob.Piece
import KeyOrder.Text.CodePoint
/-!
# Patterns of file names

A file name pattern selects names within one directory.  A star stands for any
text, a question mark for one character, and a bracket for one character of a
set: characters and ranges, or with an exclamation mark all others.  A bracket
right after the start of a set is literal, and so is an opening bracket that is
never closed.  A range that runs backwards is empty and goes away before the
exclamation mark is looked for.
-/

namespace KeyOrder.Glob

/-! ## Character sets -/

/-- A part of a character set. -/
inductive SetItem where
  | single (c : CodePoint)
  | range (low high : CodePoint)
  deriving DecidableEq

/-- Whether a character belongs to a part of a set. -/
def SetItem.contains (c : CodePoint) : SetItem → Bool
  | single d => c == d
  | range low high => low.code ≤ c.code && c.code ≤ high.code

/-- The text before the first hyphen that has at least `least` characters before it, and the text
after the hyphen. -/
def splitHyphen? : Nat → CodeText → Option (CodeText × CodeText)
  | _, [] => none
  | 0, .scalar '-' :: rest => some ([], rest)
  | least, c :: rest => (splitHyphen? (least - 1) rest).map fun cut => (c :: cut.1, cut.2)

/-- A cut at a hyphen takes the hyphen away. -/
theorem length_splitHyphen_lt {least : Nat} {text before after : CodeText}
    (h : splitHyphen? least text = some (before, after)) : after.length < text.length := by
  fun_induction splitHyphen? least text generalizing before after with
  | case1 => simp at h
  | case2 => simp_all
  | case3 least c rest _ ih =>
    simp only [Option.map_eq_some_iff, Prod.mk.injEq] at h
    obtain ⟨⟨b, a⟩, hcut, -, rfl⟩ := h
    have := ih hcut
    simp only [List.length_cons]
    omega

/-- The body of a set cut at the hyphens that make ranges: such a hyphen has a character before
it that is not the end of another range, and a character after it. -/
def hyphenParts (least : Nat) (body : CodeText) : List CodeText :=
  match _h : splitHyphen? least body with
  | none => [body]
  | some (before, []) => [before ++ [.scalar '-']]
  | some (before, c :: after) => before :: hyphenParts 2 (c :: after)
termination_by body.length
decreasing_by exact length_splitHyphen_lt _h

/-- Joins a part to the next one where the range between them is empty; the two ends go away. -/
def dropEmptyRange (part : CodeText) : List CodeText → List CodeText
  | [] => [part]
  | next :: rest =>
    match part.getLast?, next.head? with
    | some low, some high =>
      if high.code < low.code then (part.dropLast ++ next.tail) :: rest else part :: next :: rest
    | _, _ => part :: next :: rest

/-- The items of parts between which ranges stand; `low` is the lower end that is still open. -/
def setItems : Option CodePoint → List CodeText → List SetItem
  | _, [] => []
  | low, part :: rest =>
    let (start, part) :=
      match low, part with
      | some l, h :: tail => ([SetItem.range l h], tail)
      | _, part => ([], part)
    match rest with
    | [] => start ++ part.map .single
    | _ :: _ => start ++ part.dropLast.map .single ++ setItems part.getLast? rest

/-- A set of characters. -/
structure CharSet where
  negated : Bool
  items : List SetItem
  deriving DecidableEq

/-- Whether a character belongs to a set. -/
def CharSet.contains (set : CharSet) (c : CodePoint) : Bool :=
  (set.items.any (SetItem.contains c)) != set.negated

/-- A character at the start of a text, if it stands there, and what follows it. -/
def takeChar (c : CodePoint) : CodeText → CodeText × CodeText
  | [] => ([], [])
  | d :: rest => if d = c then ([c], rest) else ([], d :: rest)

/-- The set of parts between which ranges stand.  An exclamation mark at the very start is the mark
of a negated set, even where it comes there only because an empty range went away; a hyphen right
after it makes no range. -/
def CharSet.ofParts : List CodeText → CharSet
  | [.scalar '!'] :: next :: rest =>
    { negated := true, items := .single (.scalar '-') :: setItems none (next :: rest) }
  | (.scalar '!' :: part) :: rest => { negated := true, items := setItems none (part :: rest) }
  | parts => { negated := false, items := setItems none parts }

/-- The set between two brackets. -/
def CharSet.ofText (text : CodeText) : CharSet :=
  let least := if text.head? = some (.scalar '!') then 2 else 1
  .ofParts ((hyphenParts least text).foldr dropEmptyRange [])

/-- The text of a set and what follows its closing bracket; an exclamation mark and a bracket at
the start do not close it. -/
def closeSet? (text : CodeText) : Option (CodeText × CodeText) :=
  let (mark, body) := takeChar (.scalar '!') text
  let (first, rest) := takeChar (.scalar ']') body
  match rest.dropWhile (· != .scalar ']') with
  | [] => none
  | _ :: after => some (mark ++ first ++ rest.takeWhile (· != .scalar ']'), after)

/-- Taking a character does not lengthen the text. -/
theorem length_takeChar_le (c : CodePoint) (text : CodeText) :
    (takeChar c text).2.length ≤ text.length := by
  unfold takeChar
  split
  · simp
  · split <;> simp

/-- A set is shorter than the text. -/
theorem length_closeSet_lt {text set after : CodeText} (h : closeSet? text = some (set, after)) :
    after.length < text.length := by
  have h1 := length_takeChar_le (.scalar '!') text
  have h2 := length_takeChar_le (.scalar ']') (takeChar (.scalar '!') text).2
  have h3 : ∀ l : CodeText, (l.dropWhile (· != .scalar ']')).length ≤ l.length :=
    fun l => (List.dropWhile_sublist _).length_le
  replace h3 := h3 (takeChar (.scalar ']') (takeChar (.scalar '!') text).2).2
  simp only [closeSet?] at h
  split at h
  · simp at h
  · next heq =>
    simp only [Option.some.injEq, Prod.mk.injEq] at h
    rw [heq, List.length_cons, h.2] at h3
    omega

/-! ## Names -/

/-- A piece of a name pattern. -/
inductive NamePiece where
  /-- A star: any text. -/
  | anything
  /-- A question mark: one character. -/
  | one
  /-- One character of a set. -/
  | oneOf (set : CharSet)
  /-- A character that stands for itself. -/
  | literal (c : CodePoint)
  deriving DecidableEq

/-- The pieces of a name pattern. -/
def namePieces (text : CodeText) : List NamePiece :=
  match text with
  | [] => []
  | c :: rest =>
    if c = .scalar '*' then .anything :: namePieces rest
    else if c = .scalar '?' then .one :: namePieces rest
    else if c = .scalar '[' then
      match _h : closeSet? rest with
      | some (set, after) => .oneOf (CharSet.ofText set) :: namePieces after
      | none => .literal c :: namePieces rest
    else .literal c :: namePieces rest
termination_by text.length
decreasing_by
  all_goals simp only [List.length_cons]
  all_goals try have := length_closeSet_lt _h
  all_goals omega

/-- The ends of a name that a piece takes together with the rest of the pattern. -/
def NamePiece.take : NamePiece → CodeText → Ends → Ends
  | anything => takeAny fun _ => true
  | one => takeOne fun _ => true
  | oneOf set => takeOne set.contains
  | literal c => takeOne (· == c)

/-- Whether a name pattern takes a whole name. -/
def matchesName (pattern name : CodeText) : Bool :=
  whole ((namePieces pattern).foldr (fun piece => piece.take name) (endsOf List.isEmpty name))

end KeyOrder.Glob
