import KeyOrder.Text.CodePoint
/-!
# Specificity of patterns

Of several patterns that select a path the most specific one decides.  A pattern
without stars counts far more than one with stars, deeper and longer patterns
count more than flatter and shorter ones, and pairs of stars count against it.
-/

namespace KeyOrder.Glob

/-- How many pairs of stars stand in a text, read from left to right. -/
def countDoubleStars : CodeText → Nat
  | .scalar '*' :: .scalar '*' :: rest => countDoubleStars rest + 1
  | _ :: rest => countDoubleStars rest
  | [] => 0

/-- The score of a pattern. -/
def specificity (pattern : CodeText) : Int :=
  let doubles : Int := countDoubleStars pattern
  let singles : Int := (pattern.count (.scalar '*') : Int) - 2 * doubles
  let slashes : Int := pattern.count (.scalar '/')
  let plain : Int := if pattern.contains (.scalar '*') then 0 else 1000
  plain + 10 * slashes - 5 * doubles + singles + pattern.length

end KeyOrder.Glob
