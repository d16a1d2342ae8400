import KeyOrder.Run.Fault
import KeyOrder.Run.Ignore
/-!
# Target files

The files that patterns stand for.  A pattern without special characters is taken
as it is, so that a mistyped path is reported; but the alternatives of a brace
group count only if they are there.  What patterns with special characters select
is filtered by the ignored patterns.
-/

namespace KeyOrder

/-- The paths that no pattern ignores. -/
def unignored [Platform] (ignored : List CodeText) :
    List CodeText → Except Glob.Fault (List CodeText)
  | [] => .ok []
  | path :: paths => do
    let leftOut ← isIgnored path ignored
    let others ← unignored ignored paths
    return if leftOut then others else path :: others

/-- The files of one alternative of a pattern; `several` says that there are others. -/
def alternativeTargets [Platform] {σ : Type} [FileStore σ] (store : σ) (ignored : List CodeText)
    (several : Bool) (alternative : CodeText) : Except Fault (List CodeText) :=
  if Glob.isGlob alternative then do
    let found ← (FileStore.glob store alternative).mapError .file
    (unignored ignored found).mapError .pattern
  else if several then do
    let there ← (FileStore.isThere store alternative).mapError .file
    return if there then [alternative] else []
  else .ok [alternative]

/-- The files of one pattern. -/
def patternTargets [Platform] {σ : Type} [FileStore σ] (store : σ) (ignored : List CodeText)
    (pattern : CodeText) : Except Fault (List CodeText) := do
  let alternatives ← (Glob.alternatives pattern).mapError .pattern
  let found ← alternatives.mapM (alternativeTargets store ignored (1 < alternatives.length))
  return found.flatten

/-- The files that patterns stand for, each once and in order. -/
def targets [Platform] {σ : Type} [FileStore σ] (store : σ) (patterns ignored : List CodeText)
    (useIgnoreFile : Bool) : Except Fault (List CodeText) :=
  let ignored := ignored ++ (if useIgnoreFile then storeIgnoreGlobs store else [])
  (patterns.mapM (patternTargets store ignored)).map fun found => sortedSet found.flatten

end KeyOrder
