import KeyOrder.Glob.Pattern
import KeyOrder.Store.Basic
import KeyOrder.Text.Lines
/-!
# Ignored files

Files are left out if a pattern selects them.  Lines of an ignore file become
patterns for everything below the names they give; comments and exceptions in it
are dropped.
-/

namespace KeyOrder

/-- The end of a pattern that selects everything below a directory. -/
def belowSuffix : CodeText :=
  codeText "/**"

/-! ## Ignore files -/

/-- The pattern of a line of an ignore file, if it has one: a line that starts with a slash or
holds one further on is tied to the top, any other names things in every directory. -/
def ignoreGlob? (line : Text) : Option CodeText :=
  let line := line.trim
  if line.isEmpty || line.head? = some '#' || line.head? = some '!' then none
  else
    match Text.dropEnd line (· == '/') with
    | [] => none
    | '/' :: rest => some (CodeText.ofText rest ++ belowSuffix)
    | name =>
      if name.contains '/' then some (CodeText.ofText name ++ belowSuffix)
      else some (codeText "**/" ++ CodeText.ofText name ++ belowSuffix)

/-- The patterns of an ignore file. -/
def ignoreGlobs (text : Text) : List CodeText :=
  text.lines.filterMap ignoreGlob?

/-- The name of the ignore file. -/
def ignoreFileName : CodeText :=
  codeText ".gitignore"

/-- The patterns of the ignore file of a store; a file that cannot be read has none. -/
def storeIgnoreGlobs {σ : Type} [FileStore σ] (store : σ) : List CodeText :=
  match FileStore.read store ignoreFileName with
  | .ok text => ignoreGlobs text
  | .error _ => []

/-! ## Paths -/

/-- Whether a pattern names a directory without special characters that a path lies below. -/
def liesBelow (path pattern : CodeText) : Bool :=
  belowSuffix.isSuffixOf pattern &&
    (let directory := pattern.take (pattern.length - belowSuffix.length)
    !Glob.isGlob directory && (directory ++ [CodePoint.scalar '/']).isPrefixOf path)

/-- Whether a path is ignored: some pattern selects it or names a directory that it lies below.
The patterns after the first such one do not matter. -/
def isIgnored [Platform] (path : CodeText) : List CodeText → Except Glob.Fault Bool
  | [] => .ok false
  | pattern :: patterns =>
    match Glob.selects path pattern with
    | .error fault => .error fault
    | .ok selected =>
      if selected || liesBelow path pattern then .ok true else isIgnored path patterns

end KeyOrder
