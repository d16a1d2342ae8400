import KeyOrder.Text.Utf8
/-!
# Paths in a directory tree

A path is a row of names with slashes between them.  Before use it is
normalised: empty names and single dots go away, double dots stay.  A path that
starts with a slash stands for itself, any other is taken from the working
directory.  A name is known by its bytes, and some unpaired halves stand for
single bytes that belong to no character.
-/

namespace KeyOrder

/-- Splits a text at its slashes. -/
def splitSlashes : CodeText → List CodeText
  | [] => [[]]
  | .scalar '/' :: rest => [] :: splitSlashes rest
  | c :: rest =>
    match splitSlashes rest with
    | [] => [[c]]
    | name :: names => (c :: name) :: names

/-- A normalised path. -/
structure Path where
  /-- What it starts with: nothing, one slash, or two. -/
  root : CodeText
  names : List CodeText
  deriving DecidableEq

/-- The slash between names. -/
def slash : CodePoint :=
  .scalar '/'

/-- The name of a directory inside itself. -/
def currentName : CodeText :=
  [.scalar '.']

/-- The name of the directory above inside a directory. -/
def parentName : CodeText :=
  [.scalar '.', .scalar '.']

/-- The slashes at the start of a path, of which exactly two are kept and more count as one. -/
def leadingRoot (text : CodeText) : CodeText :=
  match (text.takeWhile (· == slash)).length with
  | 0 => []
  | 2 => [slash, slash]
  | _ => [slash]

/-- The normalised path of a text. -/
def Path.ofText (text : CodeText) : Path :=
  { root := leadingRoot text
    names := (splitSlashes text).filter fun name => name != [] && name != currentName }

/-- The path of a text in which single dots stay, also the one that a slash at the end stands
for. -/
def Path.literal (text : CodeText) : Path :=
  { root := leadingRoot text
    names := (splitSlashes text).filter (· != []) ++
      (if text.getLast? = some slash then [currentName] else []) }

/-- Whether a path stands for itself. -/
def Path.isAbsolute (path : Path) : Bool :=
  !path.root.isEmpty

/-- A path as it is shown; a path without names is its root or the current directory. -/
def Path.text (path : Path) : CodeText :=
  match path.root, path.names with
  | [], [] => currentName
  | root, names => root ++ [slash].intercalate names

/-- A path taken from a directory. -/
def Path.inside (directory path : Path) : Path :=
  if path.isAbsolute then path
  else { directory with names := directory.names ++ path.names }

/-! ## Bytes of paths -/

/-- The bytes of a code point in a path.  A second half with the low bits 80 to FF stands for that
byte alone, any other half for none. -/
def CodePoint.pathBytes? : CodePoint → Option (List UInt8)
  | scalar c => some (Utf8.encodeChar c)
  | leading _ => none
  | trailing bits => if 0x80 ≤ bits.val && bits.val ≤ 0xFF then some [UInt8.ofNat bits] else none

/-- The bytes of a path or a name, if it has any. -/
def pathBytes? (path : CodeText) : Option (List UInt8) :=
  (path.mapM CodePoint.pathBytes?).map List.flatten

/-- How many bytes a path or a name has. -/
def pathSize (path : CodeText) : Nat :=
  ((pathBytes? path).getD []).length

/-- The first halves of a path that stand for no byte. -/
def pathEncodeFault? (path : CodeText) : Option Utf8.EncodeFault :=
  Utf8.encodeFault? (fun c => c.pathBytes?.isSome) path

/-- Whether two names are one: they have the same bytes. -/
def sameName (a b : CodeText) : Bool :=
  (pathBytes? a).isSome && pathBytes? a == pathBytes? b

/-! ## Joining and splitting texts of paths -/

/-- A text without the slashes at its end. -/
def dropEndSlashes (text : CodeText) : CodeText :=
  (text.reverse.dropWhile (· == slash)).reverse

/-- Joins two texts of paths; an absolute one replaces what stands before it. -/
def joinPaths (directory name : CodeText) : CodeText :=
  if name.head? = some slash then name
  else if directory.isEmpty || directory.getLast? = some slash then directory ++ name
  else directory ++ slash :: name

/-- Joins two texts of which either may be missing. -/
def joinIfAny (directory name : CodeText) : CodeText :=
  if directory.isEmpty then name
  else if name.isEmpty then directory
  else joinPaths directory name

/-- The directory part and the last name of a text, cut at its last slash; the directory part
loses its slashes at the end unless it has nothing else. -/
def splitLast (text : CodeText) : CodeText × CodeText :=
  let name := (text.reverse.takeWhile (· != slash)).reverse
  let head := text.take (text.length - name.length)
  let bare := dropEndSlashes head
  (if bare.isEmpty then head else bare, name)

end KeyOrder
