import KeyOrder.Glob.Brace
import KeyOrder.Text.Quoted
import KeyOrder.Text.Utf8
/-!
# Stores

A store holds files under paths.  Everything the program does with files goes
through the four operations of a store, so it can be stated for any of them.
-/

namespace KeyOrder

/-- Why a store refuses an operation. -/
inductive Refusal where
  | notFound
  | denied
  | isDirectory
  | notDirectory
  | nameTooLong
  deriving DecidableEq

/-- The wording of a refusal. -/
def Refusal.message : Refusal → String
  | notFound => "No such file or directory"
  | denied => "Permission denied"
  | isDirectory => "Is a directory"
  | notDirectory => "Not a directory"
  | nameTooLong => "File name too long"

/-- The number that the operating system gives a refusal. -/
def Refusal.number : Refusal → Nat
  | notFound => 2
  | denied => 13
  | isDirectory => 21
  | notDirectory => 20
  | nameTooLong => 36

/-- Why an operation on a file failed. -/
inductive FileFault where
  /-- A store refused it. -/
  | refused (refusal : Refusal) (path : CodeText)
  /-- The operating system refused it. -/
  | system (refusal : Refusal) (path : CodeText)
  /-- The path has no bytes. -/
  | unencodable (fault : Utf8.EncodeFault)
  /-- The path holds a null character, which ends every path. -/
  | nullCharacter
  /-- The bytes of the file are no text. -/
  | undecodable (fault : Utf8.Fault)
  /-- A pattern cannot be searched for. -/
  | pattern (fault : Glob.Fault)
  deriving DecidableEq

/-- The wording of a fault; the operating system adds its number and quotes the path with care. -/
def FileFault.message : FileFault → String
  | refused refusal path => refusal.message ++ ": '" ++ path.shown ++ "'"
  | system refusal path =>
    "[Errno " ++ toString refusal.number ++ "] " ++ refusal.message ++ ": " ++
      String.ofList path.quoted
  | unencodable fault => fault.message
  | nullCharacter => "embedded null byte"
  | undecodable fault => fault.message
  | pattern fault => fault.message

/-- Whether a fault tells something about a file; a null character tells that the path was never
one, and ends whatever used it. -/
def FileFault.concernsFile : FileFault → Bool
  | nullCharacter => false
  | pattern _ => false
  | _ => true

/-- The operations of a store. -/
class FileStore (σ : Type) where
  /-- The text of a file. -/
  read : σ → CodeText → Except FileFault Text
  /-- The store after a text was written to a file. -/
  write : σ → CodeText → Text → Except FileFault σ
  /-- Whether there is something under a path. -/
  isThere : σ → CodeText → Except FileFault Bool
  /-- The files that a pattern selects, in no particular order. -/
  glob : σ → CodeText → Except FileFault (List CodeText)

/-! ## Sorted sets of paths -/

/-- The distinct paths of a list in the order by code. -/
def sortedSet (paths : List CodeText) : List CodeText :=
  (distinct paths).mergeSort CodeText.le

end KeyOrder
