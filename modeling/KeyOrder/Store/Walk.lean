import KeyOrder.Glob.Name
import KeyOrder.Store.Tree
/-!
# Patterns in a directory tree

A pattern is gone through in a tree directory by directory.  Its last name is
matched against the names of the directories that the part before it leads to.
A name that is just two stars stands for what the part before it names and for
everything below it; whether the part before has to name a directory depends on
the platform.  A part without special characters is only looked up.  Each name
from the first one with special characters on is searched for within the search
for those behind it, and so is each directory below two stars; a pattern that
asks for too many searches one within another is refused.
-/

namespace KeyOrder

/-- Whether a character is special in file names. -/
def isMagic (c : CodePoint) : Bool :=
  c == .scalar '*' || c == .scalar '?' || c == .scalar '['

/-- Whether a text has characters that are special in file names. -/
def hasMagic (text : CodeText) : Bool :=
  text.any isMagic

/-- The name that stands for a directory and everything below it. -/
def allName : CodeText :=
  [.scalar '*', .scalar '*']

/-- A text that loses all its characters to slashes has nothing special. -/
theorem hasMagic_of_dropWhile_nil {text : CodeText} (h : text.dropWhile (· == slash) = []) :
    hasMagic text = false := by
  induction text with
  | nil => rfl
  | cons c rest ih =>
    rw [List.dropWhile_cons] at h
    split at h
    · next hc =>
      have : c = slash := by simpa using hc
      subst this
      exact ih h
    · simp at h

/-- The directory part of a text is shorter if it has special characters. -/
theorem length_splitLast_lt {text : CodeText} (h : hasMagic (splitLast text).1 = true) :
    (splitLast text).1.length < text.length := by
  have hlen : text.reverse.length = text.length := List.length_reverse
  cases hrev : text.reverse with
  | nil =>
    have : text = [] := by simpa using hrev
    subst this
    simp [splitLast, dropEndSlashes, hasMagic] at h
  | cons c rest =>
    rw [hrev, List.length_cons] at hlen
    by_cases hc : c = slash
    · have hbare : dropEndSlashes text = (rest.dropWhile (· == slash)).reverse := by
        simp [dropEndSlashes, hrev, hc]
      have hhead : (splitLast text).1 =
          if (dropEndSlashes text).isEmpty then text else dropEndSlashes text := by
        simp [splitLast, hrev, hc]
      rw [hhead] at h ⊢
      split
      · next hempty =>
        rw [if_pos hempty] at h
        have hnil : text.reverse.dropWhile (· == slash) = [] := by
          simpa [dropEndSlashes] using hempty
        have hmagic := hasMagic_of_dropWhile_nil hnil
        simp only [hasMagic, List.any_reverse] at hmagic h
        rw [hmagic] at h
        exact absurd h (by simp)
      · rw [hbare, List.length_reverse]
        have := (List.dropWhile_sublist (l := rest) (· == slash)).length_le
        omega
    · have hname : 0 < (text.reverse.takeWhile (· != slash)).length := by
        simp [hrev, hc]
      have hdrop : ∀ l : CodeText, (dropEndSlashes l).length ≤ l.length := fun l => by
        simpa [dropEndSlashes] using
          (List.dropWhile_sublist (l := l.reverse) (· == slash)).length_le
      have htake := List.length_take_le
        (text.length - (text.reverse.takeWhile (· != slash)).length) text
      simp only [splitLast, List.length_reverse]
      split
      · omega
      · have := hdrop (text.take (text.length - (text.reverse.takeWhile (· != slash)).length))
        omega

mutual

/-- The paths of everything below a node, or of the directories alone. -/
def Node.descendants (onlyDirectories : Bool) : Node → List CodeText
  | .file _ => []
  | .directory entries => descendantsOfEntries onlyDirectories entries

/-- The paths of entries and everything below them. -/
def descendantsOfEntries (onlyDirectories : Bool) : List (CodeText × Node) → List CodeText
  | [] => []
  | (name, node) :: rest =>
    (if onlyDirectories && node.isFile then []
      else name :: (node.descendants onlyDirectories).map (joinPaths name)) ++
    descendantsOfEntries onlyDirectories rest

/-- How many levels stand below a node, files or directories, or directories alone. -/
def Node.levels (onlyDirectories : Bool) : Node → Nat
  | .file _ => 0
  | .directory entries => levelsOfEntries onlyDirectories entries

/-- How many levels entries and what stands below them make up. -/
def levelsOfEntries (onlyDirectories : Bool) : List (CodeText × Node) → Nat
  | [] => 0
  | (_, node) :: rest =>
    max (if onlyDirectories && node.isFile then 0 else node.levels onlyDirectories + 1)
      (levelsOfEntries onlyDirectories rest)

end

namespace Tree

/-- The node that a text leads to as it stands: a slash at its end asks for a directory, and every
slash counts for the length of the path. -/
def lookup? (tree : Tree) (text : CodeText) : Option Node :=
  if pathBytesLimit ≤ pathSize (joinPaths tree.working.text text) then none
  else (tree.node (tree.working.inside (Path.literal text))).toOption

/-- Whether a text leads to a directory. -/
def hasDirectory (tree : Tree) (text : CodeText) : Bool :=
  match tree.lookup? text with
  | some (.directory _) => true
  | _ => false

/-- The names in a directory that a name pattern takes. -/
def namesIn (tree : Tree) (directory pattern : CodeText) (onlyDirectories : Bool) : List CodeText :=
  match tree.lookup? directory with
  | some (.directory entries) =>
    (entries.filter fun entry =>
      !(onlyDirectories && entry.2.isFile) && Glob.matchesName pattern entry.1).map (·.1)
  | _ => []

/-- The empty path, which stands for what the directory part names, and everything below it; it
may be asked for that the part names a directory. -/
def allIn [Platform] (tree : Tree) (directory : CodeText) (onlyDirectories : Bool) :
    List CodeText :=
  (if Platform.testsDirectories && !tree.hasDirectory directory then [] else [[]]) ++
    (match tree.lookup? directory with
      | some node => node.descendants onlyDirectories
      | none => [])

/-- A name without special characters, if it is in a directory; the empty name stands for the
directory itself. -/
def plainIn (tree : Tree) (directory name : CodeText) : List CodeText :=
  if name.isEmpty then (if tree.hasDirectory directory then [name] else [])
  else if (tree.lookup? (joinIfAny directory name)).isSome then [name]
  else []

/-- What the last name of a pattern selects in a directory. -/
def lastIn [Platform] (tree : Tree) (directory name : CodeText) (onlyDirectories : Bool) :
    List CodeText :=
  if name = allName then tree.allIn directory onlyDirectories
  else if hasMagic name then tree.namesIn directory name onlyDirectories
  else tree.plainIn directory name

/-- The paths that a pattern leads to, or the directories alone. -/
def walk [Platform] (tree : Tree) (pattern : CodeText) (onlyDirectories : Bool) : List CodeText :=
  let directory := (splitLast pattern).1
  let name := (splitLast pattern).2
  if !hasMagic pattern then
    if name.isEmpty then (if tree.hasDirectory directory then [pattern] else [])
    else if (tree.lookup? pattern).isSome then [pattern] else []
  else if directory.isEmpty then tree.lastIn [] name onlyDirectories
  else
    let directories :=
      if _h : hasMagic directory then tree.walk directory true else [directory]
    directories.flatMap fun directory =>
      (tree.lastIn directory name onlyDirectories).map (joinPaths directory)
termination_by pattern.length
decreasing_by exact length_splitLast_lt _h

/-- Keeps the paths that lead to files. -/
def keepFiles (tree : Tree) : List CodeText → Except FileFault (List CodeText)
  | [] => .ok []
  | text :: rest => do
    let isFile ← tree.test text Node.isFile
    let others ← tree.keepFiles rest
    return if isFile then (Path.ofText text).text :: others else others

/-- What stands before the first name of a pattern that has special characters: the directory in
which the search starts. -/
def startOf (pattern : CodeText) : CodeText :=
  (splitLast (pattern.takeWhile fun c => !isMagic c)).1

/-- How many searches for the last name of a pattern in a directory go on one within another: for
two stars there is one more, and one for each level below the directory. -/
def searchesIn (tree : Tree) (directory name : CodeText) (onlyDirectories : Bool) : Nat :=
  if name = allName then (tree.lookup? directory).elim 0 (Node.levels onlyDirectories) + 2 else 1

/-- How many searches for a pattern go on one within another: the one for the last name, and within
it those in the directories that the other names lead to, and the one for these directories. -/
def searches [Platform] (tree : Tree) (pattern : CodeText) (onlyDirectories : Bool) : Nat :=
  let directory := (splitLast pattern).1
  let name := (splitLast pattern).2
  if !hasMagic pattern then 1
  else if directory.isEmpty then tree.searchesIn [] name onlyDirectories + 1
  else if _h : hasMagic directory then
    max (tree.searches directory true)
      (((tree.walk directory true).map fun found =>
        tree.searchesIn found name onlyDirectories).foldl max 0) + 1
  else tree.searchesIn directory name onlyDirectories + 1
termination_by pattern.length
decreasing_by exact length_splitLast_lt _h

/-- Why a pattern is not searched for to the end, or the search for it cannot even start. -/
def searchFault? [Platform] (tree : Tree) (pattern : CodeText) : Option FileFault :=
  if Platform.maxSearches < tree.searches pattern false then some (.pattern .tooManySearches)
  else if hasMagic pattern then pathFault? (joinPaths tree.working.text (startOf pattern))
  else none

/-- The files that a pattern selects, their paths normalised. -/
def glob [Platform] (tree : Tree) (pattern : CodeText) : Except FileFault (List CodeText) :=
  match tree.searchFault? pattern with
  | some fault => .error fault
  | none => tree.keepFiles (tree.walk pattern false)

instance [Platform] : FileStore Tree where
  read := read
  write := write
  isThere tree path := tree.test path fun _ => true
  glob := glob

end Tree

end KeyOrder
