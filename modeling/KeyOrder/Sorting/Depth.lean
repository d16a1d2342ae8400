import KeyOrder.Json.Value
import KeyOrder.Platform
import KeyOrder.Sorting.Rank
/-!
# Sorting from a depth on

Mappings are sorted from a depth on.  The root has depth zero, every mapping adds
one and lists add nothing.  Shallower mappings keep their order, and only
mappings at depth zero follow the custom order.  Keys become names, and members
with the same name fall together after sorting.  The names of a mapping are
asked for before anything else is done with it.
-/

namespace KeyOrder

/-- Which mappings are sorted, and how. -/
structure Scope where
  /-- The least depth at which mappings are sorted. -/
  sortFrom : Nat
  /-- The custom order of mappings at depth zero. -/
  order : List CodeText

/-- The custom order at a depth. -/
def Scope.orderAt (scope : Scope) (depth : Nat) : List CodeText :=
  if depth = 0 then scope.order else []

/-- The order of members in which a mapping at a depth is gone through. -/
def Scope.arrange {α : Type} (scope : Scope) (depth : Nat) (pairs : List (CodeText × α)) :
    List (CodeText × α) :=
  if scope.sortFrom ≤ depth then sortByRank (scope.orderAt depth) pairs else pairs

/-! ## Sorting -/

mutual

/-- Sorts the mappings of a value that stands at a depth. -/
def sortValue (scope : Scope) (depth : Nat) : Value → Value
  | .map members => .ofMembers (scope.arrange depth (sortMembers scope (depth + 1) members))
  | .list items => .list (sortItems scope depth items)
  | .tuple items => .list (sortItems scope depth items)
  | v => v

/-- Sorts within items. -/
def sortItems (scope : Scope) (depth : Nat) : List Value → List Value
  | [] => []
  | v :: items => sortValue scope depth v :: sortItems scope depth items

/-- Names the keys of members and sorts within their values. -/
def sortMembers (scope : Scope) (depth : Nat) : List (Key × Value) → List (CodeText × Value)
  | [] => []
  | (key, v) :: members => (key.name, sortValue scope depth v) :: sortMembers scope depth members

end

/-! ## Values that cannot be sorted -/

/-- Why a value cannot be sorted. -/
inductive SortError where
  /-- The depth is negative. -/
  | negativeDepth (depth : Int)
  /-- The value has too many containers inside one another. -/
  | nestedTooDeeply
  /-- A key has no name. -/
  | unnamed
  /-- An object of a type that is not sorted. -/
  | unsupported (typeName : String)
  deriving DecidableEq

/-- The wording of a fault. -/
def SortError.message : SortError → String
  | negativeDepth depth => messageWith "sort_from must be non-negative, got " depth
  | nestedTooDeeply => "maximum recursion depth exceeded in comparison"
  | unnamed => unwritableMessage
  | unsupported typeName => "sort_keys_from_depth does not support value type " ++ typeName

/-- Whether all keys of members have names. -/
def areNamed (members : List (Key × Value)) : Bool :=
  members.all fun member => member.1.name?.isSome

mutual

/-- What ends the sorting of a value that stands at a depth, mappings being gone through in sorted
order once their keys have names. -/
def obstacle? (scope : Scope) (depth : Nat) : Value → Option SortError
  | .map members =>
    if areNamed members then
      (scope.arrange depth (memberObstacles scope (depth + 1) members)).findSome? (·.2)
    else some .unnamed
  | .list items => itemObstacle? scope depth items
  | .tuple items => itemObstacle? scope depth items
  | .object typeName _ => some (.unsupported typeName)
  | _ => none

/-- What ends the sorting of items. -/
def itemObstacle? (scope : Scope) (depth : Nat) : List Value → Option SortError
  | [] => none
  | v :: items => (obstacle? scope depth v).or (itemObstacle? scope depth items)

/-- What ends the sorting of each member's value, under the name of its key. -/
def memberObstacles (scope : Scope) (depth : Nat) :
    List (Key × Value) → List (CodeText × Option SortError)
  | [] => []
  | (key, v) :: members =>
    (key.name, obstacle? scope depth v) :: memberObstacles scope depth members

end

/-- Sorts a value from a depth on; the depth is checked first, and then the nesting. -/
def sortFromDepth [Platform] (v : Value) (sortFrom : Int) (order : List CodeText) :
    Except SortError Value :=
  if sortFrom < 0 then .error (.negativeDepth sortFrom)
  else if Platform.maxSortedNesting < v.nesting then .error .nestedTooDeeply
  else
    let scope : Scope := { sortFrom := sortFrom.toNat, order := order }
    match obstacle? scope 0 v with
    | some error => .error error
    | none => .ok (sortValue scope 0 v)

/-- Sorts every mapping of a value. -/
def sortAll [Platform] (v : Value) : Except SortError Value :=
  sortFromDepth v 0 []

end KeyOrder
