import KeyOrder.Config.Check
import KeyOrder.Json.Decode
import KeyOrder.Run.Fault
/-!
# Finding a configuration

The first candidate that can be read and decoded is the configuration, and then
it must be valid.  A candidate that is missing, unreadable or malformed is passed
over.
-/

namespace KeyOrder

/-- A configuration and the name that it was found under. -/
structure LoadedConfig where
  source : CodeText
  config : Config
  deriving DecidableEq

/-- Decodes the text of a configuration. -/
def decodeConfig [Platform] (text : Text) : Except Json.DecodeError Value :=
  Json.decode .extended text

/-- Reads a configuration from its text; `source` names it in messages. -/
def Config.ofText [Platform] (source : CodeText) (text : Text) : Except Fault Config := do
  let v ← (decodeConfig text).mapError .decode
  (Config.ofValue source v).mapError .config

/-- The decoded text of a candidate, if it can be read and is well formed. -/
def readCandidate [Platform] {σ : Type} [FileStore σ] (store : σ) (name : CodeText) :
    Except Fault (Option Value) :=
  match FileStore.read store name with
  | .error fault => if fault.concernsFile then .ok none else .error (.file fault)
  | .ok text =>
    match decodeConfig text with
    | .ok v => .ok (some v)
    | .error (.malformed _ _) => .ok none
    | .error error => .error (.decode error)

/-- The first candidate that is a configuration. -/
def findConfig [Platform] {σ : Type} [FileStore σ] (store : σ) :
    List CodeText → Except Fault (Option LoadedConfig)
  | [] => .ok none
  | name :: names =>
    match readCandidate store name with
    | .error fault => .error fault
    | .ok none => findConfig store names
    | .ok (some v) =>
      match Config.ofValue name v with
      | .ok config => .ok (some { source := name, config })
      | .error error => .error (.config error)

/-- The configuration of a store, or the default one. -/
def loadConfig [Platform] {σ : Type} [FileStore σ] (store : σ) : Except Fault Config :=
  (findConfig store configNames).map fun loaded =>
    match loaded with
    | some found => found.config
    | none => Config.default

end KeyOrder
