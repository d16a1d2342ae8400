import KeyOrder.Sorting.Merge
/-!
# Sorting by runs

A list is cut into runs that already stand in order, short ones being filled up
by placing further items one by one, and neighbouring runs are merged.  Which
ones are merged first depends on their lengths alone.  Under an order this is a
stable sort like any other; here it is meant for comparisons that are none, whose
result depends on what is compared with what.
-/

namespace KeyOrder

variable {α : Type}

/-! ## Runs -/

/-- The longest start of a list in which `joined` holds from each item to the next, `last` being
the item before, and what follows it. -/
def joinedRun (joined : α → α → Bool) (last : α) : List α → List α × List α
  | [] => ([], [])
  | a :: rest =>
    if joined last a then
      let found := joinedRun joined a rest
      (a :: found.1, found.2)
    else ([], a :: rest)

/-- The run at the start of a list, turned round if it falls, and what follows it. -/
def leadingRun (lt : α → α → Bool) : List α → List α × List α
  | a :: b :: rest =>
    if lt b a then
      let found := joinedRun (fun x y => lt y x) b rest
      ((a :: b :: found.1).reverse, found.2)
    else
      let found := joinedRun (fun x y => !lt y x) b rest
      (a :: b :: found.1, found.2)
  | short => (short, [])

/-- A run is followed by no more items than there were. -/
theorem length_joinedRun_le (joined : α → α → Bool) (last : α) (items : List α) :
    (joinedRun joined last items).2.length ≤ items.length := by
  fun_induction joinedRun joined last items with
  | case1 => simp
  | case2 last a rest _ found ih => exact Nat.le_succ_of_le ih
  | case3 => simp

/-- The leading run of a list takes something of it. -/
theorem length_leadingRun_lt (lt : α → α → Bool) (first : α) (rest : List α) :
    (leadingRun lt (first :: rest)).2.length < (first :: rest).length := by
  cases rest with
  | nil => simp [leadingRun]
  | cons b rest =>
    have h1 := length_joinedRun_le (fun x y => lt y x) b rest
    have h2 := length_joinedRun_le (fun x y => !lt y x) b rest
    simp only [leadingRun, List.length_cons]
    split <;> simp only <;> omega

/-- Puts an item into a row, behind the items that it is not less than. -/
def placeInRow (lt : α → α → Bool) (row : List α) (x : α) : List α :=
  let place := countByHalving Side.front.middle (fun y => !lt x y) row
  row.take place ++ x :: row.drop place

/-- The runs of a list, each filled up to `least` items as long as there are any. -/
def runsOf (lt : α → α → Bool) (least : Nat) : List α → List (List α)
  | [] => []
  | first :: rest =>
    let found := leadingRun lt (first :: rest)
    let missing := least - found.1.length
    (found.2.take missing).foldl (placeInRow lt) found.1 :: runsOf lt least (found.2.drop missing)
termination_by items => items.length
decreasing_by
  have := length_leadingRun_lt lt first rest
  simp only [List.length_drop]
  omega

/-- The least length of the runs of a list of some length: it is halved until it is below 64, and
one is added if there was a remainder on the way. -/
def leastRun (remainder : Bool) (length : Nat) : Nat :=
  if length < 64 then length + (if remainder then 1 else 0)
  else leastRun (remainder || length % 2 == 1) (length / 2)
termination_by length

/-! ## The order of merges -/

/-- The first place at which the binary digits of the fractions `a / total` and `b / total` differ,
at most `digits`; the fractions are below one. -/
def digitOfDifference (total : Nat) : Nat → Nat → Nat → Nat
  | 0, _, _ => 0
  | digits + 1, a, b =>
    if total ≤ a then 1 + digitOfDifference total digits (2 * (a - total)) (2 * (b - total))
    else if total ≤ b then 1
    else 1 + digitOfDifference total digits (2 * a) (2 * b)

/-- The power of the border between two runs in a list of `total` items, the left one starting at
`start`: where the middles of the runs first lie in different halves, quarters and so on. -/
def borderPower (total start left right : Nat) : Nat :=
  digitOfDifference total total (2 * start + left) (2 * start + left + left + right)

/-- A run that waits to be merged, with the power of the border behind it. -/
structure Waiting (α : Type) where
  items : List α
  power : Nat

/-- Runs that wait, the last one first, before a current run, and the patience of merges. -/
structure Pile (α : Type) where
  waiting : List (Waiting α)
  current : List α
  patience : Nat

/-- Merges the current run with those before it as long as the borders have a greater power. -/
def collapse (lt : α → α → Bool) (power : Nat) :
    List (Waiting α) → List α → Nat → Pile α
  | [], current, patience => { waiting := [], current, patience }
  | run :: waiting, current, patience =>
    if power < run.power then
      let (merged, patience) := mergeRuns lt patience run.items current
      collapse lt power waiting merged patience
    else { waiting := run :: waiting, current, patience }

/-- Merges all runs; of three, the middle one is merged with the shorter neighbour. -/
def mergeAll (lt : α → α → Bool) : List (Waiting α) → List α → Nat → List α
  | [], current, _ => current
  | [run], current, patience => (mergeRuns lt patience run.items current).1
  | run :: earlier :: waiting, current, patience =>
    if earlier.items.length < current.length then
      let (merged, patience) := mergeRuns lt patience earlier.items run.items
      mergeAll lt ({ items := merged, power := earlier.power } :: waiting) current patience
    else
      let (merged, patience) := mergeRuns lt patience run.items current
      mergeAll lt (earlier :: waiting) merged patience
termination_by waiting => waiting.length

/-- Takes up the runs that follow the current one, which starts at `start`, and merges. -/
def takeUp (lt : α → α → Bool) (total : Nat) : List (List α) → Nat → Pile α → List α
  | [], _, pile => mergeAll lt pile.waiting pile.current pile.patience
  | next :: runs, start, pile =>
    let power := borderPower total start pile.current.length next.length
    let after := start + pile.current.length
    let pile := collapse lt power pile.waiting pile.current pile.patience
    takeUp lt total runs after
      { pile with waiting := { items := pile.current, power } :: pile.waiting, current := next }

/-- Sorts a list by a comparison that need not be an order. -/
def sortByRuns (lt : α → α → Bool) (items : List α) : List α :=
  match runsOf lt (leastRun false items.length) items with
  | [] => []
  | first :: runs =>
    takeUp lt items.length runs 0
      { waiting := [], current := first, patience := Merging.worthyLeap }

end KeyOrder
