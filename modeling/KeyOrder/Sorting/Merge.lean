/-!
# Merging runs

Two runs of items are merged into one.  Their first items are compared in turns;
once one run's items have gone first often enough in a row, the runs are leapt
along instead: what goes first is found by looking ever further and then by
halving.  Under an order this is a stable merge like any other.  Under a
comparison that is none, what is compared with what decides the result, so all of
it is laid down here.
-/

namespace KeyOrder

variable {α : Type}

/-! ## Searching a row -/

/-- How many items at the start of a row go first, found by halving; `middle` says which item of a
row of some length is looked at. -/
def countByHalving (middle : Nat → Nat) (goesFirst : α → Bool) (row : List α) : Nat :=
  match _h : row.drop (middle row.length) with
  | [] => 0
  | item :: right =>
    if goesFirst item then middle row.length + 1 + countByHalving middle goesFirst right
    else countByHalving middle goesFirst (row.take (middle row.length))
termination_by row.length
decreasing_by
  all_goals
    have h := congrArg List.length _h
    simp only [List.length_drop, List.length_cons, List.length_take] at h ⊢
    omega

/-- Bounds for how many items at the start of a row go first: all before `low` do, and the item at
`high` is looked at next, each one about twice as far as the one before. -/
def leapBounds (goesFirst : α → Bool) (row : List α) (low high : Nat) : Nat × Nat :=
  match _h : row[high]? with
  | none => (low, row.length)
  | some item =>
    if goesFirst item then leapBounds goesFirst row (high + 1) (2 * high + 1) else (low, high)
termination_by row.length - high
decreasing_by
  have := (List.getElem?_eq_some_iff.mp _h).1
  omega

/-- How many items at the start of a row go first, found by leaps and then by halving. -/
def countByLeaps (middle : Nat → Nat) (goesFirst : α → Bool) (row : List α) : Nat :=
  let (low, high) := leapBounds goesFirst row 0 0
  low + countByHalving middle goesFirst ((row.take high).drop low)

/-! ## Merging from a side -/

/-- The side from which two runs are merged: forwards from their fronts or backwards from their
backs. -/
inductive Side where
  | front
  | back
  deriving DecidableEq

/-- The place of the middle item of a row, counted from a side; of two it is the later one. -/
def Side.middle : Side → Nat → Nat
  | front, length => length / 2
  | back, length => (length - 1) / 2

/-- Two runs that are being merged, both as they are seen from the side. -/
structure Merging (α : Type) where
  /-- The shorter run; of two items that may both go first, its item does. -/
  short : List α
  long : List α
  /-- The items that have gone, the last one first. -/
  gone : List α

namespace Merging

/-- Whether nothing is left to compare: the last item of the shorter run goes behind all others. -/
def isOver (m : Merging α) : Bool :=
  match m.short, m.long with
  | _ :: _ :: _, _ :: _ => false
  | _, _ => true

/-- All items when nothing is left to compare. -/
def items (m : Merging α) : List α :=
  m.gone.reverse ++ m.long ++ m.short

/-- Lets one item go, and tells whether it came from the longer run. -/
def turn (before : α → α → Bool) (m : Merging α) : Merging α × Bool :=
  match m.short, m.long with
  | x :: short, y :: long =>
    if before y x then ({ m with long, gone := y :: m.gone }, true)
    else ({ m with short, gone := x :: m.gone }, false)
  | _, _ => (m, false)

/-- Lets all items of the shorter run go that may go before the first one of the longer run, and
then that one; also tells how many they were. -/
def leapShort (side : Side) (before : α → α → Bool) (m : Merging α) : Merging α × Nat :=
  match m.long with
  | [] => (m, 0)
  | y :: long =>
    let count := countByLeaps side.middle (fun x => !before y x) m.short
    let passed : Merging α :=
      { m with short := m.short.drop count, gone := (m.short.take count).reverse ++ m.gone }
    (if passed.isOver then passed else { passed with long, gone := y :: passed.gone }, count)

/-- Lets all items of the longer run go that must go before the first one of the shorter run, and
then that one; also tells how many they were. -/
def leapLong (side : Side) (before : α → α → Bool) (m : Merging α) : Merging α × Nat :=
  match m.short with
  | [] => (m, 0)
  | x :: short =>
    let count := countByLeaps side.middle (fun y => before y x) m.long
    let passed : Merging α :=
      { m with long := m.long.drop count, gone := (m.long.take count).reverse ++ m.gone }
    (if passed.isOver then passed else { passed with short, gone := x :: passed.gone }, count)

/-- The length from which on a leap is worth another one. -/
def worthyLeap : Nat := 7

/-- Leaps along both runs, the left one first, and tells whether that was worth it. -/
def leap (side : Side) (before : α → α → Bool) (m : Merging α) : Merging α × Bool :=
  let (one, other) :=
    match side with
    | .front => (leapShort side before, leapLong side before)
    | .back => (leapLong side before, leapShort side before)
  let (m, first) := one m
  if m.isOver then (m, false)
  else
    let (m, second) := other m
    (m, worthyLeap ≤ first || worthyLeap ≤ second)

end Merging

/-- How a merge goes on. -/
inductive Pace where
  /-- Item by item; the last `streak` ones came from the same run. -/
  | turns (fromLong : Bool) (streak : Nat)
  | leaps

/-- Merges until nothing is left to compare.  After `patience` items in a row from one run leaps
begin; each one that is worth it makes leaps begin sooner, and one that is not ends them and makes
them begin later.  Every step lets an item go, so as many steps as items are enough. -/
def Merging.goOn (side : Side) (before : α → α → Bool) :
    Nat → Nat → Pace → Merging α → Merging α × Nat
  | 0, patience, _, m => (m, patience)
  | steps + 1, patience, pace, m =>
    if m.isOver then (m, patience)
    else
      match pace with
      | .turns fromLong streak =>
        let (m, long) := m.turn before
        let streak := if long = fromLong then streak + 1 else 1
        m.goOn side before steps patience (if patience ≤ streak then .leaps else .turns long streak)
      | .leaps =>
        let (m, worthy) := m.leap side before
        if m.isOver then (m, patience)
        else if worthy then m.goOn side before steps (max 1 (patience - 1)) .leaps
        else m.goOn side before steps (patience + 1) (.turns false 0)

/-- Merges two runs as they are seen from a side, of which the longer one has the item that goes
first; also gives the patience afterwards. -/
def mergeFrom (side : Side) (before : α → α → Bool) (patience : Nat) (short long : List α) :
    List α × Nat :=
  let start : Merging α := { short, long := long.tail, gone := long.take 1 }
  let (m, patience) :=
    start.goOn side before (short.length + long.length) patience (.turns false 0)
  (m.items, patience)

/-- Merges two runs that follow each other; also gives the patience afterwards.  What already
stands at its place at either end stays there. -/
def mergeRuns (lt : α → α → Bool) (patience : Nat) (left right : List α) : List α × Nat :=
  match right.head? with
  | none => (left, patience)
  | some b =>
    let start := countByLeaps Side.front.middle (fun x => !lt b x) left
    match left.getLast?, left.drop start with
    | some a, moved@(_ :: _) =>
      let stay := countByLeaps Side.back.middle (fun y => !lt y a) right.reverse
      let taken := right.take (right.length - stay)
      let (merged, patience) :=
        if taken.isEmpty then (moved, patience)
        else if moved.length ≤ taken.length then mergeFrom .front lt patience moved taken
        else
          let (items, patience) :=
            mergeFrom .back (fun x y => lt y x) patience taken.reverse moved.reverse
          (items.reverse, patience)
      (left.take start ++ merged ++ right.drop (right.length - stay), patience)
    | _, _ => (left ++ right, patience)

end KeyOrder
