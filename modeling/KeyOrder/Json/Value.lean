import KeyOrder.Number.Shortest
import KeyOrder.Text.Quoted
/-!
# Values

The values that can be sorted and printed.  A decoded document holds nulls,
booleans, numbers, strings, lists, and mappings with distinct string keys.  A
caller may also hand over tuples, which count as lists, keys of other types, and
objects of other types, which can be neither sorted nor printed.  A mapping keeps
the order of its members.
-/

namespace KeyOrder

/-- A key of a mapping. -/
inductive Key where
  | null
  | bool (b : Bool)
  | int (n : Int)
  | float (x : Double)
  | str (s : CodeText)
  | bytes (bs : List UInt8)
  | tuple (keys : List Key)
  /-- An object of another type, by the name it goes by and the one it has in a compound key, as far
  as it has them. -/
  | object (typeName : String) (name quoted : Option CodeText)

/-- A value. -/
inductive Value where
  | null
  | bool (b : Bool)
  | int (n : Int)
  | float (x : Double)
  | str (s : CodeText)
  | list (items : List Value)
  | tuple (items : List Value)
  | map (members : List (Key × Value))
  /-- An object of another type, such as a set or a byte string, and what it holds. -/
  | object (typeName : String) (content : List Value)

/-! ## Members -/

/-- Gives a key a value: in its place if it is there, else at the end. -/
def putMember {κ α : Type} [DecidableEq κ] (key : κ) (value : α) : List (κ × α) → List (κ × α)
  | [] => [(key, value)]
  | (k, v) :: rest => if k = key then (k, value) :: rest else (k, v) :: putMember key value rest

/-- Members in the order of their first occurrence, each with its last value. -/
def mergeMembers {κ α : Type} [DecidableEq κ] (pairs : List (κ × α)) : List (κ × α) :=
  pairs.foldl (fun members pair => putMember pair.1 pair.2 members) []

/-- Members with string keys. -/
def stringMembers (members : List (CodeText × Value)) : List (Key × Value) :=
  members.map fun member => (.str member.1, member.2)

/-- The mapping with the given string members; of equal keys the first place and the last value
count. -/
def Value.ofMembers (pairs : List (CodeText × Value)) : Value :=
  .map (stringMembers (mergeMembers pairs))

/-! ## Nesting -/

mutual

/-- How many lists, tuples and mappings stand inside one another. -/
def Value.nesting : Value → Nat
  | .list items => nestingOfItems items + 1
  | .tuple items => nestingOfItems items + 1
  | .map members => nestingOfMembers members + 1
  | _ => 0

/-- The greatest nesting among items. -/
def nestingOfItems : List Value → Nat
  | [] => 0
  | v :: rest => max v.nesting (nestingOfItems rest)

/-- The greatest nesting among the values of members. -/
def nestingOfMembers : List (Key × Value) → Nat
  | [] => 0
  | (_, v) :: rest => max v.nesting (nestingOfMembers rest)

end

/-! ## Names of keys -/

mutual

/-- The name of a key as it stands inside a compound key; an integer of too many digits has
none. -/
def Key.quoted? : Key → Option CodeText
  | .str s => some (CodeText.ofText s.quoted)
  | .null => some (codeText "None")
  | .bool b => some (codeText (if b then "True" else "False"))
  | .int n => if isWritable n then some (CodeText.ofText (digitsOfInt n)) else none
  | .float x => some (CodeText.ofText x.text)
  | .bytes bs => some (CodeText.ofText (quotedBytes bs))
  | .object _ _ quoted => quoted
  | .tuple [key] => key.quoted?.map fun name => codeText "(" ++ name ++ codeText ",)"
  | .tuple keys => (quotedKeys? keys).map fun names => codeText "(" ++ names ++ codeText ")"

/-- The names of the parts of a compound key, with commas between them. -/
def quotedKeys? : List Key → Option CodeText
  | [] => some []
  | [key] => key.quoted?
  | key :: rest => do return (← key.quoted?) ++ codeText ", " ++ (← quotedKeys? rest)

end

/-- The name of a key, if it has one: a string is its own name. -/
def Key.name? : Key → Option CodeText
  | .str s => some s
  | .object _ name _ => name
  | key => key.quoted?

/-- The name of a key that has one. -/
def Key.name (key : Key) : CodeText :=
  key.name?.getD []

@[simp] theorem Key.name_str (s : CodeText) : (Key.str s).name = s := by
  rfl

end KeyOrder
