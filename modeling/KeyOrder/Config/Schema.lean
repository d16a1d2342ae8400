import KeyOrder.Config.Basic
import KeyOrder.Json.Print
/-!
# The schema of configurations

A document in the schema language that describes configurations, for editors.
-/

namespace KeyOrder.Schema

/-! ## Building blocks -/

/-- A string. -/
def text (s : String) : Value :=
  .str (codeText s)

/-- A mapping with the given members. -/
def object (members : List (String × Value)) : Value :=
  .map (members.map fun member => (.str (codeText member.1), member.2))

/-- The schema of a type by name. -/
def type (name : String) : Value :=
  object [("type", text name)]

/-- The members of the schema of lists of strings. -/
def stringListMembers : List (String × Value) :=
  [("items", type "string"), ("type", text "array")]

/-- The schema of a value that may be null, and is if it is left out. -/
def nullable (schema : Value) (description title : String) : Value :=
  object [("anyOf", .list [schema, type "null"]), ("default", .null),
    ("description", text description), ("title", text title)]

/-! ## The document -/

/-- The schema of rules. -/
def rule : Value :=
  object [
    ("additionalProperties", .bool false),
    ("description", text "Per-pattern override entry of the `files` table."),
    ("properties", object [
      ("sortFrom", nullable (object [("minimum", .int 0), ("type", text "integer")])
        "Depth to start sorting from for this file pattern" "Sortfrom"),
      ("ignore", object [
        ("default", .bool false),
        ("description", text "Whether to ignore files matching this pattern"),
        ("title", text "Ignore"),
        ("type", text "boolean")]),
      ("sortOrder", nullable (object stringListMembers)
        "Keys placed first, in this order, when the root mapping is sorted" "Sortorder")]),
    ("title", text "FileConfig"),
    ("type", text "object")]

/-- The schema of a list of patterns. -/
def patterns (default : List CodeText) (description title : String) : Value :=
  object ([
    ("default", Value.list (default.map Value.str)),
    ("description", text description)] ++
    [("items", type "string"), ("title", text title), ("type", text "array")])

/-- The schema of configurations. -/
def config : Value :=
  object [
    ("$schema", text "http://json-schema.org/draft-07/schema#"),
    ("$defs", object [("FileConfig", rule)]),
    ("additionalProperties", .bool false),
    ("description", text "sort-json configuration file."),
    ("properties", object [
      ("$schema", nullable (type "string") "JSON Schema URL" "$Schema"),
      ("include", patterns defaultIncluded "Glob patterns for files to include" "Include"),
      ("ignore", patterns [] "Glob patterns for files to ignore" "Ignore"),
      ("sortFrom", object [
        ("default", .int defaultSortFrom),
        ("description",
          text "Depth to start sorting from (0 = root, 1 = first level children, etc.)"),
        ("minimum", .int 0),
        ("title", text "Sortfrom"),
        ("type", text "integer")]),
      ("files", object [
        ("additionalProperties", object [("$ref", text "#/$defs/FileConfig")]),
        ("description", text "Per-file configuration overrides (glob pattern -> config)"),
        ("title", text "Files"),
        ("type", text "object")])]),
    ("title", text "sort-json configuration"),
    ("type", text "object")]

/-- The schema as a document. -/
def document : Text :=
  Json.printDocument (.spaces 1) config

/-- The file that the schema is written to if no other is named. -/
def defaultPath : CodeText :=
  codeText "schema.json"

end KeyOrder.Schema
