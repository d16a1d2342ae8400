import KeyOrder.Text.CodePoint
import Std.Data.HashSet
/-!
# Distinct texts

The texts of a list, each once, where it first stands.
-/

namespace KeyOrder

/-- The texts of a list that were not seen before, each where it first stands. -/
def distinctAfter (seen : Std.HashSet CodeText) : List CodeText → List CodeText
  | [] => []
  | text :: rest =>
    if seen.contains text then distinctAfter seen rest
    else text :: distinctAfter (seen.insert text) rest

/-- The texts of a list, each where it first stands. -/
def distinct (texts : List CodeText) : List CodeText :=
  distinctAfter ∅ texts

/-- What was seen is left out, and so is what stands earlier in the list. -/
theorem distinctAfter_eq (seen : Std.HashSet CodeText) (texts : List CodeText) :
    distinctAfter seen texts = (texts.filter fun text => !seen.contains text).eraseDups := by
  fun_induction distinctAfter seen texts with
  | case1 => rfl
  | case2 seen text rest h ih => simp [ih, h]
  | case3 seen text rest h ih =>
    rw [ih, List.filter_cons_of_pos (by simpa using h), List.eraseDups_cons, List.filter_filter]
    congr 2
    apply List.filter_congr
    intro x _
    simp only [Std.HashSet.contains_insert, Bool.not_or]
    rw [Bool.beq_comm]

/-- Later copies go away. -/
theorem distinct_eq_eraseDups (texts : List CodeText) : distinct texts = texts.eraseDups := by
  rw [distinct, distinctAfter_eq, List.filter_eq_self.mpr (by simp)]

end KeyOrder
