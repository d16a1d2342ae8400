import KeyOrder.Config.Basic
import KeyOrder.Glob.Pattern
import KeyOrder.Glob.Specificity
/-!
# Settings of a file

What holds for one file: the rule of the most specific pattern that selects it,
the earliest of equally specific ones, and the configuration for all that the
rule does not set.
-/

namespace KeyOrder

/-- What holds for a file. -/
structure Settings where
  sortFrom : Nat
  ignored : Bool
  sortOrder : Option (List CodeText)
  /-- The pattern whose rule decided. -/
  matchedPattern : Option CodeText
  deriving DecidableEq

/-- The entry with the most specific pattern, the first of equally specific ones. -/
def mostSpecific? : List (CodeText × Rule) → Option (CodeText × Rule)
  | [] => none
  | entry :: rest =>
    match mostSpecific? rest with
    | none => some entry
    | some best =>
      if Glob.specificity best.1 ≤ Glob.specificity entry.1 then some entry else some best

/-- The rule that decides for a path, with its pattern. -/
def ruleFor? (path : CodeText) (files : List (CodeText × Rule)) : Option (CodeText × Rule) :=
  mostSpecific? (files.filter fun entry => Glob.matchesPattern path entry.1)

/-- What holds for a path. -/
def Config.settingsFor (config : Config) (path : CodeText) : Settings :=
  match ruleFor? path config.files with
  | none =>
    { sortFrom := config.sortFrom, ignored := false, sortOrder := none, matchedPattern := none }
  | some (pattern, rule) =>
    { sortFrom := rule.sortFrom.getD config.sortFrom
      ignored := rule.ignored
      sortOrder := rule.sortOrder
      matchedPattern := some pattern }

/-- What holds for a path, if it can be told which patterns select it. -/
def Config.resolve [Platform] (config : Config) (path : CodeText) : Except Glob.Fault Settings :=
  if config.files.all fun entry => Glob.isDecided path entry.1 then .ok (config.settingsFor path)
  else .error .tooManyChoices

/-- The depth that is used: what the command line says, else what the settings say. -/
def Settings.depth (settings : Settings) (given : Option Int) : Int :=
  given.getD settings.sortFrom

end KeyOrder
