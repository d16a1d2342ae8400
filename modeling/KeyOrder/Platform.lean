/-!
# What the program runs on

How deep a computation may go before it is broken off is not decided by the program: it depends
on what runs it, and on what else is going on around the computation.  So these bounds are the
reader's to choose, and nothing that is shown of the program depends on what they are.  The same
holds for a habit of searches that differs among versions of what carries them out.
-/

namespace KeyOrder

/-- The bounds and habits of what the program runs on. -/
class Platform where
  /-- The most choices that are made one after another to expand a pattern. -/
  maxChoices : Nat
  /-- The most searches for a pattern that go on one within another. -/
  maxSearches : Nat
  /-- The most containers of a document that may be open at once. -/
  maxDepth : Nat
  /-- The most containers inside one another that are sorted. -/
  maxSortedNesting : Nat
  /-- Whether two stars at the end of a pattern are searched for in directories alone. -/
  testsDirectories : Bool

/-- Bounds between what is known to go through and what is known not to. -/
instance usualPlatform : Platform where
  maxChoices := 980
  maxSearches := 980
  maxDepth := 1000
  maxSortedNesting := 500
  testsDirectories := false

end KeyOrder
