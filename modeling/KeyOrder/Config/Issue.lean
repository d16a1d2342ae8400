import KeyOrder.Number.Digits
/-!
# Issues of configurations

What is wrong with a configuration, and where.  All issues are collected: a
reading that went wrong somewhere still has a value, so that the rest can be
read.
-/

namespace KeyOrder

/-- What is wrong at a place of a configuration. -/
inductive Problem where
  | unknownKey
  /-- A key of the mapping is no text of characters. -/
  | unreadableKey
  | notInteger
  | negative
  | notList
  | notString
  | notBool
  | nullGiven
  | notMapping
  | notConfig
  | notRule
  deriving DecidableEq

/-- The wording of a problem. -/
def Problem.message : Problem → String
  | unknownKey => "Extra inputs are not permitted"
  | unreadableKey => "Input should be a valid string, unable to parse raw data as a unicode string"
  | notInteger => "Input should be a valid integer"
  | negative => "Input should be greater than or equal to 0"
  | notList => "Input should be a valid tuple"
  | notString => "Input should be a valid string"
  | notBool => "Input should be a valid boolean"
  | nullGiven => "Value error, null is not allowed; omit the key instead"
  | notMapping => "Input should be a valid dictionary"
  | notConfig => "Input should be a valid dictionary or instance of SortJsonConfig"
  | notRule => "Input should be a valid dictionary or instance of FileConfig"

/-- A problem and the keys and positions that lead to it. -/
structure Issue where
  location : List CodeText
  problem : Problem
  deriving DecidableEq

/-- The location with slashes between its parts. -/
def Issue.path (issue : Issue) : CodeText :=
  [.scalar '/'].intercalate issue.location

/-- The wording of an issue; the path is left out if it is empty. -/
def Issue.message (issue : Issue) : String :=
  if issue.path.isEmpty then issue.problem.message
  else issue.path.shown ++ ": " ++ issue.problem.message

/-- The issues of a configuration and where it was read. -/
structure ConfigError where
  source : CodeText
  issues : List Issue
  deriving DecidableEq

/-- The wording of a fault: the source and the first issue. -/
def ConfigError.message (error : ConfigError) : String :=
  "Invalid config in " ++ error.source.shown ++ ": " ++
    (match error.issues with
      | issue :: _ => issue.message
      | [] => "unknown error")

/-! ## Readings with issues -/

/-- A reading: a value, which counts only if there are no issues. -/
structure Checked (α : Type) where
  value : α
  issues : List Issue

/-- A reading that went well. -/
def Checked.ok {α : Type} (value : α) : Checked α :=
  ⟨value, []⟩

/-- A reading that went wrong. -/
def Checked.bad {α : Type} (value : α) (location : List CodeText) (problem : Problem) : Checked α :=
  ⟨value, [⟨location, problem⟩]⟩

/-- Changes the value of a reading. -/
def Checked.map {α β : Type} (f : α → β) (checked : Checked α) : Checked β :=
  ⟨f checked.value, checked.issues⟩

/-- The readings of the items of a list, each with its position. -/
def checkItems {α β : Type} (check : Nat → α → Checked β) (position : Nat) :
    List α → Checked (List β)
  | [] => .ok []
  | item :: rest =>
    let first := check position item
    let others := checkItems check (position + 1) rest
    ⟨first.value :: others.value, first.issues ++ others.issues⟩

end KeyOrder
