import KeyOrder.Config.Basic
import KeyOrder.Config.Issue
import KeyOrder.Json.Value
/-!
# Reading configurations

A configuration is read from a decoded value.  Types are strict: a truth value
or a number with a fraction is no integer, and null is no value.  Every known
key is read, in a fixed order, and after them come the unknown keys in the order
of the document.  A mapping of settings of which some key holds an unpaired
surrogate is not read at all; the keys of rules are patterns, and may be any.
-/

namespace KeyOrder

/-! ## Plain values -/

/-- Reads a depth. -/
def checkDepth (location : List CodeText) : Value → Checked Nat
  | .int n => if n < 0 then .bad 0 location .negative else .ok n.toNat
  | _ => .bad 0 location .notInteger

/-- Reads a text. -/
def checkText (location : List CodeText) : Value → Checked CodeText
  | .str s => .ok s
  | _ => .bad [] location .notString

/-- The location of an item of a list. -/
def itemLocation (location : List CodeText) (position : Nat) : List CodeText :=
  location ++ [CodeText.ofText (digitsOfNat position)]

/-- Reads a list of texts. -/
def checkTexts (location : List CodeText) : Value → Checked (List CodeText)
  | .list items =>
    checkItems (fun position item => checkText (itemLocation location position) item) 0 items
  | _ => .bad [] location .notList

/-- Reads a truth value. -/
def checkBool (location : List CodeText) : Value → Checked Bool
  | .bool b => .ok b
  | _ => .bad false location .notBool

/-- Reads a value that may be left out but not be null. -/
def checkGiven {α : Type} (check : List CodeText → Value → Checked α) (location : List CodeText) :
    Value → Checked (Option α)
  | .null => .bad none location .nullGiven
  | v => (check location v).map some

/-! ## Mappings -/

/-- The value of a key. -/
def memberAt? (members : List (Key × Value)) (key : String) : Option Value :=
  (members.find? fun member => member.1.name == codeText key).map Prod.snd

/-- Reads the value of a key, if the key is there. -/
def checkField {α : Type} (check : List CodeText → Value → Checked α) (default : α)
    (location : List CodeText) (members : List (Key × Value)) (key : String) : Checked α :=
  match memberAt? members key with
  | some v => check (location ++ [codeText key]) v
  | none => .ok default

/-- The issues of the keys that are not known. -/
def unknownKeys (known : List String) (location : List CodeText) (members : List (Key × Value)) :
    List Issue :=
  members.filterMap fun member =>
    if known.any fun key => member.1.name == codeText key then none
    else some ⟨location ++ [member.1.name], .unknownKey⟩

/-- Whether all keys of a mapping are texts of characters. -/
def keysArePlain (members : List (Key × Value)) : Bool :=
  members.all fun member => member.1.name.isPlain

/-! ## Rules and configurations -/

/-- Reads a rule. -/
def checkRule (location : List CodeText) : Value → Checked Rule
  | .map members =>
    if !keysArePlain members then .bad Rule.empty location .unreadableKey
    else
      let sortFrom := checkField (checkGiven checkDepth) none location members "sortFrom"
      let ignored := checkField checkBool false location members "ignore"
      let sortOrder := checkField (checkGiven checkTexts) none location members "sortOrder"
      { value :=
          { sortFrom := sortFrom.value, ignored := ignored.value, sortOrder := sortOrder.value }
        issues := sortFrom.issues ++ ignored.issues ++ sortOrder.issues ++
          unknownKeys ["sortFrom", "ignore", "sortOrder"] location members }
  | _ => .bad Rule.empty location .notRule

/-- Reads a rule with its pattern. -/
def checkRuleMember (location : List CodeText) (member : Key × Value) :
    Checked (CodeText × Rule) :=
  let pattern := member.1.name
  (checkRule (location ++ [pattern]) member.2).map fun rule => (pattern, rule)

/-- Reads the rules of a configuration. -/
def checkRules (location : List CodeText) : Value → Checked (List (CodeText × Rule))
  | .map members => checkItems (fun _ member => checkRuleMember location member) 0 members
  | _ => .bad [] location .notMapping

/-- Reads a configuration. -/
def checkConfig : Value → Checked Config
  | .map members =>
    if !keysArePlain members then .bad Config.default [] .unreadableKey
    else
      let schemaUrl := checkField (checkGiven checkText) none [] members "$schema"
      let included := checkField checkTexts defaultIncluded [] members "include"
      let ignored := checkField checkTexts [] [] members "ignore"
      let sortFrom := checkField checkDepth defaultSortFrom [] members "sortFrom"
      let files := checkField checkRules [] [] members "files"
      { value :=
          { schemaUrl := schemaUrl.value
            included := included.value
            ignored := ignored.value
            sortFrom := sortFrom.value
            files := files.value }
        issues := schemaUrl.issues ++ included.issues ++ ignored.issues ++ sortFrom.issues ++
          files.issues ++
          unknownKeys ["$schema", "include", "ignore", "sortFrom", "files"] [] members }
  | _ => .bad Config.default [] .notConfig

/-- The configuration of a decoded value, or all that is wrong with it. -/
def Config.ofValue (source : CodeText) (v : Value) : Except ConfigError Config :=
  let checked := checkConfig v
  if checked.issues.isEmpty then .ok checked.value else .error ⟨source, checked.issues⟩

end KeyOrder
