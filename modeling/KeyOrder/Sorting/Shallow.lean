import KeyOrder.Json.Value
import KeyOrder.Sorting.Runs
/-!
# Sorting the root alone

The root mapping is sorted by its keys as they are: numbers by their value,
truth values counting as zero and one, and texts by code.  Nothing below the
root is touched.  Keys of different kinds have no order among each other that
anyone should rely on; here kinds come one after the other.  A key that is no
number is neither less nor greater than any number, so members with such keys
have no order that a sort could reach; their result is what sorting by runs
makes of them.
-/

namespace KeyOrder

/-! ## Numbers -/

/-- The value of a finite double in units. -/
def signedUnits (negative : Bool) (m : Magnitude) : Int :=
  if negative then -(m.units : Int) else m.units

/-- A number on the line with both infinities. -/
inductive Extended where
  | bottom
  | units (n : Int)
  | top

/-- Order on the line. -/
def Extended.compare : Extended → Extended → Ordering
  | bottom, bottom => .eq
  | bottom, _ => .lt
  | top, top => .eq
  | top, _ => .gt
  | units _, bottom => .gt
  | units m, units n => Ord.compare m n
  | units _, top => .lt

/-- The place of a double on the line; what is no number has none. -/
def Double.extended? : Double → Option Extended
  | finite negative m => some (.units (signedUnits negative m))
  | infinite negative => some (if negative then .bottom else .top)
  | nan => none

/-- The place of an integer on the line. -/
def extendedOfInt (n : Int) : Extended :=
  .units (n * Nat.pow 2 unitExponent)

/-! ## Keys -/

/-- The kinds of keys that have an order among each other, and a key of each. -/
inductive KeyClass where
  | null
  /-- A number; what is no number has no place. -/
  | number (place : Option Extended)
  | str (s : CodeText)
  | bytes (bs : List UInt8)
  | tuple
  | object

/-- The class of a key. -/
def Key.keyClass : Key → KeyClass
  | .null => .null
  | .bool b => .number (some (extendedOfInt (if b then 1 else 0)))
  | .int n => .number (some (extendedOfInt n))
  | .float x => .number x.extended?
  | .str s => .str s
  | .bytes bs => .bytes bs
  | .tuple _ => .tuple
  | .object _ _ _ => .object

/-- The number of a class. -/
def KeyClass.index : KeyClass → Nat
  | null => 0
  | number _ => 1
  | str _ => 2
  | bytes _ => 3
  | tuple => 4
  | object => 5

/-- The order that a reflexive comparison gives. -/
def orderingOfLe {α : Type} (le : α → α → Bool) (a b : α) : Ordering :=
  if le a b then (if le b a then .eq else .lt) else .gt

/-- Order of keys that are not compound; what is no number has no order to any number. -/
def KeyClass.compare? (a b : KeyClass) : Option Ordering :=
  match a, b with
  | number (some x), number (some y) => some (x.compare y)
  | number _, number _ => none
  | str s, str t => some (orderingOfLe CodeText.le s t)
  | bytes s, bytes t => some (orderingOfLe (dictionaryLe UInt8.toNat) s t)
  | a, b => some (Ord.compare a.index b.index)

mutual

/-- Order of keys as they are. -/
def Key.compare? : Key → Key → Option Ordering
  | .tuple s, .tuple t => compareKeys? s t
  | a, b => a.keyClass.compare? b.keyClass

/-- Order of compound keys: the first parts that are not equal decide. -/
def compareKeys? : List Key → List Key → Option Ordering
  | [], [] => some .eq
  | [], _ :: _ => some .lt
  | _ :: _, [] => some .gt
  | a :: as, b :: bs =>
    match a.compare? b with
    | some .eq => compareKeys? as bs
    | other => other

end

/-- Whether a key is less than another. -/
def Key.lt (a b : Key) : Bool :=
  a.compare? b == some .lt

mutual

/-- Whether a key has an order to every key of its kind: no part of it is no number. -/
def Key.isOrdered : Key → Bool
  | .float x => x.extended?.isSome
  | .tuple keys => keysAreOrdered keys
  | _ => true

/-- Whether all parts of a compound key have an order. -/
def keysAreOrdered : List Key → Bool
  | [] => true
  | key :: rest => key.isOrdered && keysAreOrdered rest

end

/-! ## The root mapping -/

/-- Members sorted by their keys; equal keys keep their order. -/
def sortByKey (members : List (Key × Value)) : List (Key × Value) :=
  if keysAreOrdered (members.map Prod.fst) then members.mergeSort fun p q => !q.1.lt p.1
  else sortByRuns (fun p q => p.1.lt q.1) members

/-- Sorts the root mapping by its keys. -/
def sortRoot : Value → Value
  | .map members => .map (sortByKey members)
  | v => v

end KeyOrder
