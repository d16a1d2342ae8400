import KeyOrder.Store.Basic
import KeyOrder.Store.Path
import KeyOrder.Text.Lines
/-!
# Directory trees

A directory tree holds files and directories under names.  Paths are followed
from its top, name by name, and a double dot goes one directory up.  Texts that
are read have their line ends unified; texts are written as they are.
-/

namespace KeyOrder

/-- A file or a directory. -/
inductive Node where
  | file (bytes : List UInt8)
  | directory (entries : List (CodeText × Node))

/-- The entries of a directory; a file has none. -/
def Node.entries? : Node → Option (List (CodeText × Node))
  | .file _ => none
  | .directory entries => some entries

/-- Whether a node is a file. -/
def Node.isFile : Node → Bool
  | .file _ => true
  | .directory _ => false

/-- A directory tree and the directory that relative paths start from. -/
structure Tree where
  top : Node
  working : Path

/-! ## Following names -/

/-- The entry of a name. -/
def entryOf? (name : CodeText) (entries : List (CodeText × Node)) : Option Node :=
  (entries.find? fun entry => sameName name entry.1).map Prod.snd

/-- The node under a row of names, none of which is a double dot. -/
def Node.find? (node : Node) : List CodeText → Option Node
  | [] => some node
  | name :: names =>
    match node with
    | .file _ => none
    | .directory entries =>
      match entryOf? name entries with
      | some inner => inner.find? names
      | none => none

/-- Puts an entry in place of the one of its name, or at the end. -/
def putEntry (name : CodeText) (node : Node) : List (CodeText × Node) → List (CodeText × Node)
  | [] => [(name, node)]
  | entry :: rest =>
    if sameName name entry.1 then (entry.1, node) :: rest else entry :: putEntry name node rest

/-- The tree with another node under a row of names; directories that are missing are made. -/
def Node.put (node : Node) (names : List CodeText) (new : Node) : Node :=
  match names with
  | [] => new
  | name :: names =>
    let entries := node.entries?.getD []
    let inner := (entryOf? name entries).getD (.directory [])
    .directory (putEntry name (inner.put names new) entries)

/-- The tree without the node under a row of names. -/
def Node.erase (node : Node) : List CodeText → Node
  | [] => node
  | name :: names =>
    match node with
    | .file bytes => .file bytes
    | .directory entries =>
      match names with
      | [] => .directory (entries.filter fun entry => !sameName name entry.1)
      | _ :: _ =>
        match entryOf? name entries with
        | some inner => .directory (putEntry name (inner.erase names) entries)
        | none => .directory entries

/-! ## Following paths -/

/-- The most bytes that a name may have. -/
def maxNameBytes : Nat := 255

/-- The number of bytes that is too much for a whole path. -/
def pathBytesLimit : Nat := 4096

/-- The place that names lead to from a place in the tree, or why they lead nowhere; `trail` holds
the names that were followed with the nodes under them, last one first.  A single dot asks for a
directory and stays there.  The last name may be missing. -/
def Node.follow (top : Node) (trail : List (CodeText × Node)) :
    List CodeText → Except Refusal (List CodeText)
  | [] => .ok (trail.reverse.map Prod.fst)
  | name :: names =>
    match (trail.head?.map Prod.snd).getD top with
    | .file _ => .error .notDirectory
    | .directory entries =>
      if name = currentName then top.follow trail names
      else if name = parentName then top.follow trail.tail names
      else if maxNameBytes < pathSize name then .error .nameTooLong
      else
        match entryOf? name entries with
        | some node => top.follow ((name, node) :: trail) names
        | none =>
          if names.isEmpty then .ok (trail.reverse.map Prod.fst ++ [name]) else .error .notFound

/-- Why no file can have a path: it has no bytes, or it holds a null character. -/
def pathFault? (path : CodeText) : Option FileFault :=
  match pathEncodeFault? path with
  | some fault => some (.unencodable fault)
  | none => if path.contains (.scalar '\x00') then some .nullCharacter else none

namespace Tree

/-- The path that a text stands for. -/
def path (tree : Tree) (text : CodeText) : Path :=
  tree.working.inside (Path.ofText text)

/-- The place of a path in the tree; its last name may be missing. -/
def locate (tree : Tree) (path : Path) : Except Refusal (List CodeText) :=
  if pathBytesLimit ≤ pathSize path.text then .error .nameTooLong
  else tree.top.follow [] path.names

/-- The node under a path. -/
def node (tree : Tree) (path : Path) : Except Refusal Node := do
  let place ← tree.locate path
  match tree.top.find? place with
  | some node => .ok node
  | none => .error .notFound

/-- The bytes of a file. -/
def bytes (tree : Tree) (path : Path) : Except Refusal (List UInt8) := do
  match ← tree.node path with
  | .file bytes => .ok bytes
  | .directory _ => .error .isDirectory

/-- The tree after bytes were written to a file, whose directory must be there. -/
def writeBytes (tree : Tree) (path : Path) (bytes : List UInt8) : Except Refusal Tree := do
  let place ← tree.locate path
  match tree.top.find? place with
  | some (.directory _) => .error .isDirectory
  | _ => .ok { tree with top := tree.top.put place (.file bytes) }

/-- The path that a text stands for, unless no file can have it. -/
def soundPath (tree : Tree) (text : CodeText) : Except FileFault Path :=
  match pathFault? (tree.path text).text with
  | some fault => .error fault
  | none => .ok (tree.path text)

/-- The text of a file, its line ends unified. -/
def read (tree : Tree) (text : CodeText) : Except FileFault Text := do
  let path ← tree.soundPath text
  let bytes ← (tree.bytes path).mapError (.system · path.text)
  let content ← (Utf8.decode bytes).mapError .undecodable
  return unifyLineEnds content

/-- Writes a text to a file. -/
def write (tree : Tree) (text : CodeText) (content : Text) : Except FileFault Tree := do
  let path ← tree.soundPath text
  (tree.writeBytes path (Utf8.encode content)).mapError (.system · path.text)

/-- Whether a path leads to a node of a kind; names that are too long cannot be asked for. -/
def test (tree : Tree) (text : CodeText) (kind : Node → Bool) : Except FileFault Bool :=
  match tree.soundPath text with
  | .error _ => .ok false
  | .ok path =>
    match tree.node path with
    | .ok node => .ok (kind node)
    | .error .nameTooLong => .error (.system .nameTooLong path.text)
    | .error _ => .ok false

/-! ## Making trees -/

/-- A tree with nothing but its working directory. -/
def empty (working : Path) : Tree :=
  { top := (Node.directory []).put working.names (.directory []), working }

/-- The place of a path that need not be there; double dots go up whatever stands there. -/
def placeOf (tree : Tree) (text : CodeText) : List CodeText :=
  (tree.path text).names.foldl
    (fun place name => if name = parentName then place.dropLast else place ++ [name]) []

/-- Puts a node under a path, with the directories that lead to it. -/
def put (tree : Tree) (text : CodeText) (node : Node) : Tree :=
  { tree with top := tree.top.put (tree.placeOf text) node }

/-- Makes a directory with the directories that lead to it, unless it is there. -/
def makeDirectory (tree : Tree) (text : CodeText) : Tree :=
  match tree.top.find? (tree.placeOf text) with
  | some (.directory _) => tree
  | _ => tree.put text (.directory [])

/-- Removes what is under a path. -/
def erase (tree : Tree) (text : CodeText) : Tree :=
  { tree with top := tree.top.erase (tree.placeOf text) }

end Tree

/-! ## Files of a tree -/

mutual

/-- The files of a node with their paths from it. -/
def Node.files : Node → List (CodeText × List UInt8)
  | .file bytes => [([], bytes)]
  | .directory entries => filesOfEntries entries

/-- The files of entries with their paths. -/
def filesOfEntries : List (CodeText × Node) → List (CodeText × List UInt8)
  | [] => []
  | (name, node) :: rest =>
    (node.files.map fun file => (joinIfAny name file.1, file.2)) ++ filesOfEntries rest

end

/-- The files below the working directory with their paths from it. -/
def Tree.files (tree : Tree) : List (CodeText × List UInt8) :=
  match tree.top.find? tree.working.names with
  | some node => node.files
  | none => []

end KeyOrder
