import KeyOrder.Proofs.Scores
/-!
# Stars as they are counted and as they are read

The score of a pattern counts stars in its text: pairs of them from left to right, and the
stars that are left.  Reading the pattern finds the same pairs and the same stars on their
own, also in longer rows of stars, and also where two stars and a slash at the very start are
read apart.  A text without stars in front of a pattern is in no pair with it and adds its own
slashes and characters to the score.  So a pattern under a directory that is given by its
name scores more than the pattern in any directory, and more than the pattern alone.
-/

namespace KeyOrder.Glob

/-! ## Stars of a pattern -/

/-- How many pairs of stars a pattern is read with; that of a start in any directory counts too. -/
def Pattern.doubleStars (pattern : Pattern) : Nat :=
  pattern.pieces.count .anything + if pattern.anyDirectory then 1 else 0

/-- How many stars a pattern is read with that are in no pair. -/
def Pattern.singleStars (pattern : Pattern) : Nat :=
  pattern.pieces.count .withinName

/-- The pairs of stars that are counted are those that are read. -/
theorem countDoubleStars_eq_count (text : CodeText) :
    countDoubleStars text = (piecesOf text).count .anything := by
  fun_induction piecesOf text with
  | case1 rest ih => rw [countDoubleStars, ih, List.count_cons_self]
  | case2 rest hrest ih => rw [countDoubleStars_star hrest, ih, List.count_cons_of_ne (by decide)]
  | case3 rest ih =>
      rw [countDoubleStars_cons (by decide), ih, List.count_cons_of_ne (by decide)]
  | case4 c rest _ hstar _ ih =>
      rw [countDoubleStars_cons hstar, ih, List.count_cons_of_ne (by simp)]
  | case5 => rfl

/-- Each star is read in a pair or on its own. -/
theorem count_star_eq (text : CodeText) : text.count (.scalar '*')
    = 2 * (piecesOf text).count .anything + (piecesOf text).count .withinName := by
  fun_induction piecesOf text with
  | case1 rest ih =>
      rw [List.count_cons_self, List.count_cons_self, ih, List.count_cons_self,
        List.count_cons_of_ne (by decide)]
      omega
  | case2 rest _ ih =>
      rw [List.count_cons_self, ih, List.count_cons_self, List.count_cons_of_ne (by decide)]
      omega
  | case3 rest ih =>
      rw [List.count_cons_of_ne (by decide), ih, List.count_cons_of_ne (by decide),
        List.count_cons_of_ne (by decide)]
  | case4 c rest _ hstar _ ih =>
      rw [List.count_cons_of_ne fun h => hstar h, ih, List.count_cons_of_ne (by simp),
        List.count_cons_of_ne (by simp)]
  | case5 => rfl

/-- A pattern is read as the pieces of its text, but two stars and a slash at the very start are
read apart. -/
theorem ofText_cases (text : CodeText) : Pattern.ofText text = ⟨false, piecesOf text⟩ ∨
    ∃ rest, Pattern.ofText text = ⟨true, rest⟩ ∧
      piecesOf text = .anything :: .literal (.scalar '/') :: rest := by
  by_cases hstart : codeText "**/" <+: text
  · obtain ⟨rest, rfl⟩ := hstart
    exact Or.inr ⟨piecesOf rest, rfl, rfl⟩
  · exact Or.inl (Pattern.ofText_of_not_isPrefix hstart)

/-- The two stars that are read apart are one pair as well. -/
theorem doubleStars_ofText (text : CodeText) :
    (Pattern.ofText text).doubleStars = (piecesOf text).count .anything := by
  rcases ofText_cases text with hread | ⟨rest, hread, hpieces⟩
  · rw [hread]
    rfl
  · rw [hread, hpieces, List.count_cons_self, List.count_cons_of_ne (by decide)]
    rfl

/-- No star on its own is read apart. -/
theorem singleStars_ofText (text : CodeText) :
    (Pattern.ofText text).singleStars = (piecesOf text).count .withinName := by
  rcases ofText_cases text with hread | ⟨rest, hread, hpieces⟩
  · rw [hread]
    rfl
  · rw [hread, hpieces, List.count_cons_of_ne (by decide), List.count_cons_of_ne (by decide)]
    rfl

/-! ## Scores of directories -/

/-- A text without stars in front of a pattern adds its slashes and its length to the score. -/
theorem specificity_append {text : CodeText} (hstar : .scalar '*' ∉ text) (rest : CodeText) :
    specificity (text ++ rest)
      = specificity rest + 10 * text.count (.scalar '/') + text.length := by
  have hmem : .scalar '*' ∈ text ++ rest ↔ .scalar '*' ∈ rest := by
    rw [List.mem_append, or_iff_right hstar]
  rw [specificity_eq, specificity_eq, sum_weight_append hstar, if_congr hmem rfl rfl]
  omega

/-- So does a directory that is given without stars, and the slash after it. -/
theorem specificity_directory {directory : CodeText} (hstar : .scalar '*' ∉ directory)
    (rest : CodeText) : specificity (directory ++ .scalar '/' :: rest)
      = specificity rest + 10 * directory.count (.scalar '/') + directory.length + 11 := by
  have hslash : .scalar '*' ∉ directory ++ [.scalar '/'] := by simp [hstar]
  rw [List.append_cons, specificity_append hslash, List.count_append, List.length_append,
    List.count_singleton_self, List.length_singleton]
  omega

/-- A start in any directory adds eight to the score of a pattern that has other stars, and takes
away what a pattern without stars scores for that. -/
theorem specificity_anyDirectory (rest : CodeText) : specificity (codeText "**/" ++ rest)
    = specificity rest + 8 - if .scalar '*' ∈ rest then 0 else 1000 := by
  have hsum : ((piecesOf (codeText "**/" ++ rest)).map Piece.weight).sum
      = -3 + (11 + ((piecesOf rest).map Piece.weight).sum) := rfl
  have hstar : .scalar '*' ∈ codeText "**/" ++ rest := List.mem_cons_self
  rw [specificity_eq, specificity_eq, hsum, if_pos hstar]
  omega

/-- The pairs of stars and the other stars that the score counts are those that the pattern is
read with, so there is no negative number of either; and a pattern under a directory that is given
without stars scores more than the pattern in any directory, and more than the pattern alone. -/
theorem stars_counted_as_read :
    (∀ text : CodeText,
      countDoubleStars text = (Pattern.ofText text).doubleStars ∧
      (text.count (.scalar '*') : Int) - 2 * countDoubleStars text
        = (Pattern.ofText text).singleStars ∧
      0 ≤ (text.count (.scalar '*') : Int) - 2 * countDoubleStars text ∧
      specificity text = (if .scalar '*' ∈ text then 0 else 1000)
        + 10 * text.count (.scalar '/') - 5 * (Pattern.ofText text).doubleStars
        + (Pattern.ofText text).singleStars + text.length) ∧
    ∀ directory rest : CodeText, .scalar '*' ∉ directory →
      specificity (codeText "**/" ++ rest) < specificity (directory ++ .scalar '/' :: rest) ∧
      specificity rest < specificity (directory ++ .scalar '/' :: rest) := by
  constructor
  · intro text
    have hdouble : countDoubleStars text = (Pattern.ofText text).doubleStars := by
      rw [doubleStars_ofText, countDoubleStars_eq_count]
    have hsingle : (text.count (.scalar '*') : Int) - 2 * countDoubleStars text
        = (Pattern.ofText text).singleStars := by
      rw [singleStars_ofText, count_star_eq, countDoubleStars_eq_count]
      omega
    refine ⟨hdouble, hsingle, hsingle ▸ Int.natCast_nonneg _, ?_⟩
    rw [specificity, hsingle, hdouble]
    simp only [List.contains_iff_mem]
  · intro directory rest hdirectory
    rw [specificity_anyDirectory, specificity_directory hdirectory]
    constructor
    · split <;> omega
    · omega

/-- A directory with a name of one letter scores more than any directory, beside a row of three
stars. -/
theorem specificity_letterDirectory :
    .scalar '*' ∉ codeText "d" ∧
      specificity (codeText "**/***.json") < specificity (codeText "d/***.json") ∧
      specificity (codeText "***.json") < specificity (codeText "d/***.json") := by
  have hstar : .scalar '*' ∉ codeText "d" := by decide
  exact ⟨hstar, stars_counted_as_read.2 (codeText "d") (codeText "***.json") hstar⟩

/-- Of five stars around a slash three are read in front of it, the first two of them as a pair. -/
example : (Pattern.ofText (codeText "***/**")).doubleStars = 2 ∧
    (Pattern.ofText (codeText "***/**")).singleStars = 1 := by
  decide

end KeyOrder.Glob
