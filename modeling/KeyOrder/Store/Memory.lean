import KeyOrder.Glob.Pattern
import KeyOrder.Store.Basic
/-!
# Stores in memory

A store in memory is a table of files by their exact paths.  Some files may be
locked against writing, and all writes are recorded.  A pattern selects the
paths that it matches.
-/

namespace KeyOrder

/-- A store in memory. -/
structure MemoryStore where
  /-- The bytes of each file. -/
  files : List (CodeText × List UInt8)
  /-- The files that cannot be written. -/
  locked : List CodeText
  /-- The files that were written, in order. -/
  written : List CodeText

namespace MemoryStore

/-- A store with the given files. -/
def ofFiles (files : List (CodeText × List UInt8)) : MemoryStore :=
  { files, locked := [], written := [] }

/-- The bytes of a file. -/
def bytes? (store : MemoryStore) (path : CodeText) : Option (List UInt8) :=
  store.files.lookup path

/-- Gives a file its bytes, whether it is locked or not. -/
def put (store : MemoryStore) (path : CodeText) (bytes : List UInt8) : MemoryStore :=
  { store with files := (path, bytes) :: store.files.filter (·.1 != path) }

/-- Removes a file. -/
def erase (store : MemoryStore) (path : CodeText) : MemoryStore :=
  { store with files := store.files.filter (·.1 != path) }

/-- Locks a file against writing. -/
def lock (store : MemoryStore) (path : CodeText) : MemoryStore :=
  { store with locked := path :: store.locked }

/-- Lets a file be written again. -/
def unlock (store : MemoryStore) (path : CodeText) : MemoryStore :=
  { store with locked := store.locked.filter (· != path) }

/-- The store without its record of writes. -/
def forgetWrites (store : MemoryStore) : MemoryStore :=
  { store with written := [] }

/-- The text of a file. -/
def read (store : MemoryStore) (path : CodeText) : Except FileFault Text :=
  match store.bytes? path with
  | none => .error (.refused .notFound path)
  | some bytes => (Utf8.decode bytes).mapError .undecodable

/-- Writes a text and records it. -/
def write (store : MemoryStore) (path : CodeText) (text : Text) : Except FileFault MemoryStore :=
  if store.locked.contains path then .error (.refused .denied path)
  else .ok { store.put path (Utf8.encode text) with written := store.written ++ [path] }

/-- The paths that a pattern matches, if it can be told for all of them. -/
def glob [Platform] (store : MemoryStore) (pattern : CodeText) : Except FileFault (List CodeText) :=
  let paths := store.files.map (·.1)
  if paths.all fun path => Glob.isDecided path pattern then
    .ok (paths.filter fun path => Glob.matchesPattern path pattern)
  else .error (.pattern .tooManyChoices)

instance [Platform] : FileStore MemoryStore where
  read := read
  write := write
  isThere store path := .ok (store.bytes? path).isSome
  glob := glob

end MemoryStore

end KeyOrder
