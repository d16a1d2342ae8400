import KeyOrder.Text.CodePoint
/-!
# Ranks of keys

A mapping may have a custom order: the keys that it lists come first, in the
order of their first occurrence, and all other keys follow by code point.
-/

namespace KeyOrder

/-- Where a key stands in a custom order. -/
inductive Rank where
  /-- The key is listed, first at this position. -/
  | listed (position : Nat)
  /-- The key is not listed. -/
  | other (key : CodeText)
  deriving DecidableEq

/-- Listed keys come before others. -/
def Rank.le : Rank → Rank → Bool
  | listed i, listed j => i ≤ j
  | listed _, other _ => true
  | other _, listed _ => false
  | other s, other t => s.le t

/-- The rank of a key in a custom order; an empty order is the order by code point. -/
def rankIn (order : List CodeText) (key : CodeText) : Rank :=
  match order.idxOf? key with
  | some position => .listed position
  | none => .other key

/-- Sorts by the rank of the first components; equal keys keep their order. -/
def sortByRank {α : Type} (order : List CodeText) (pairs : List (CodeText × α)) :
    List (CodeText × α) :=
  pairs.mergeSort fun p q => (rankIn order p.1).le (rankIn order q.1)

/-- Sorts keys by rank. -/
def sortKeys (order : List CodeText) (keys : List CodeText) : List CodeText :=
  keys.mergeSort fun s t => (rankIn order s).le (rankIn order t)

end KeyOrder
