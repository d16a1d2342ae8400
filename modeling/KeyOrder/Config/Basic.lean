import KeyOrder.Text.CodePoint
/-!
# Configuration

What a configuration says: which files are taken and which are left out, from
which depth on mappings are sorted, and what holds instead for files that a
pattern selects.
-/

namespace KeyOrder

/-- What holds for the files that a pattern selects; what is not set is taken from the
configuration. -/
structure Rule where
  /-- The least depth that is sorted. -/
  sortFrom : Option Nat
  /-- Whether the files are left alone. -/
  ignored : Bool
  /-- The keys that come first in the root mapping. -/
  sortOrder : Option (List CodeText)
  deriving DecidableEq

/-- A configuration. -/
structure Config where
  /-- Where the schema of the configuration is published. -/
  schemaUrl : Option CodeText
  /-- The patterns of the files that are taken. -/
  included : List CodeText
  /-- The patterns of the files that are left out. -/
  ignored : List CodeText
  /-- The least depth that is sorted. -/
  sortFrom : Nat
  /-- Rules for files that a pattern selects, in the order of their declaration. -/
  files : List (CodeText × Rule)
  deriving DecidableEq

/-- The patterns that are taken if nothing else is said. -/
def defaultIncluded : List CodeText :=
  [codeText "**/*.json"]

/-- The least depth that is sorted if nothing else is said. -/
def defaultSortFrom : Nat := 1

/-- A rule that sets nothing. -/
def Rule.empty : Rule :=
  { sortFrom := none, ignored := false, sortOrder := none }

/-- The configuration that holds if there is none. -/
def Config.default : Config :=
  { schemaUrl := none
    included := defaultIncluded
    ignored := []
    sortFrom := defaultSortFrom
    files := [] }

/-- The names under which a configuration is looked for, in this order. -/
def configNames : List CodeText :=
  [codeText ".sortjsonrc.json", codeText ".sortjsonrc", codeText "sortjson.config.json"]

end KeyOrder
