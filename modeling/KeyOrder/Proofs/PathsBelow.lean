import KeyOrder.Proofs.PlainPatterns
/-!
# Paths below a directory

A pattern that ends in a slash and two stars stands for what lies below a directory.  If the
directory has no wildcards, its text and a slash at the start of a path tell the same without the
pattern being read, whatever other characters the directory has.  This holds of paths
without line feeds and of patterns that leave nothing to choose; so for these looking at
directories ignores nothing but what the patterns select.
-/

namespace KeyOrder

open Glob

variable {path pattern directory : CodeText} {patterns : List CodeText}

/-! ## The pattern of a directory -/

/-- A directory without characters that are special in file patterns has no wildcards. -/
theorem wildcards_not_mem (hglob : isGlob directory = false) :
    .scalar '*' ∉ directory ∧ .scalar '?' ∉ directory := by
  rw [isGlob, List.any_eq_false] at hglob
  exact ⟨fun hstar => hglob _ hstar (by decide), fun hmark => hglob _ hmark (by decide)⟩

/-- What lies below a directory is read as the directory, a slash and two stars. -/
theorem ofText_below (hglob : isGlob directory = false) :
    Pattern.ofText (directory ++ belowSuffix)
      = ⟨false, (directory ++ [CodePoint.scalar '/']).map Piece.literal ++ [.anything]⟩ := by
  obtain ⟨hstar, hmark⟩ := wildcards_not_mem hglob
  have hstart : ¬ codeText "**/" <+: directory ++ belowSuffix := by
    rintro ⟨rest, heq⟩
    cases directory with
    | nil => exact absurd (List.cons.inj heq).1 (by decide)
    | cons c directory => exact hstar ((List.cons.inj heq).1 ▸ List.mem_cons_self)
  have hslash : ∀ tail, belowSuffix ≠ .scalar '*' :: tail := fun tail heq =>
    absurd (List.cons.inj heq).1 (by decide)
  rw [Pattern.ofText_of_not_isPrefix hstart, piecesOf_append directory hslash,
    piecesOf_eq_map_literal hstar hmark, List.map_append, List.append_assoc]
  rfl

/-- Without line feeds the pattern matches the paths that start with the directory and a slash. -/
theorem matches_below_iff (hglob : isGlob directory = false) (hpath : .scalar '\n' ∉ path) :
    (Pattern.ofText (directory ++ belowSuffix)).matches path = true ↔
      directory ++ [CodePoint.scalar '/'] <+: path := by
  rw [Pattern.matches_iff, ofText_below hglob, Pattern.taken, if_neg Bool.false_ne_true, one_mul,
    List.map_append, List.prod_append, mul_assoc, mem_prod_literal_mul]
  constructor
  · rintro ⟨rest, -, rfl⟩
    exact List.prefix_append _ rest
  · rintro ⟨rest, rfl⟩
    refine ⟨rest, ?_, rfl⟩
    -- The two stars take all that is left of the path, and nothing is passed over at its end.
    rw [List.map_singleton, List.prod_singleton]
    refine ⟨rest, fun c hc => bne_iff_ne.mpr ?_, [], mem_ending.mpr (Or.inl rfl), ?_⟩
    · rintro rfl
      exact hpath (List.mem_append_right _ hc)
    · exact List.append_nil rest

/-- A pattern that leaves nothing to choose selects a path if it equals the path or matches it as it
is. -/
theorem selects_of_own [Platform] (hown : alternatives pattern = .ok [pattern]) :
    selects path pattern = .ok (matchesPattern path pattern) ∧
      (matchesPattern path pattern = true ↔
        path = pattern ∨ (Pattern.ofText pattern).matches path = true) := by
  obtain ⟨hexpandable, hexpand⟩ := alternatives_eq_ok_iff.mp hown
  constructor
  · rw [selects, isDecided, hexpandable, Bool.or_true, if_pos rfl]
  · rw [matchesPattern, hexpand, List.any_cons, List.any_nil, Bool.or_false, Bool.or_eq_true,
      beq_iff_eq]

/-- The pattern for what lies below a directory selects the paths that start with the directory and
a slash. -/
theorem matchesPattern_below_iff [Platform] (hglob : isGlob directory = false)
    (hpath : .scalar '\n' ∉ path)
    (hown : alternatives (directory ++ belowSuffix) = .ok [directory ++ belowSuffix]) :
    matchesPattern path (directory ++ belowSuffix) = true ↔
      directory ++ [CodePoint.scalar '/'] <+: path := by
  rw [(selects_of_own hown).2, matches_below_iff hglob hpath, or_iff_right_iff_imp]
  rintro rfl
  exact ⟨codeText "**", List.append_assoc _ _ _⟩

/-! ## Looking at directories -/

/-- A path lies below a directory that a pattern names if the pattern is that for what lies below
it, it has no special characters, and the path starts with it and a slash. -/
theorem liesBelow_iff : liesBelow path pattern = true ↔
    ∃ directory, pattern = directory ++ belowSuffix ∧ isGlob directory = false ∧
      directory ++ [CodePoint.scalar '/'] <+: path := by
  have htake : ∀ directory : CodeText, (directory ++ belowSuffix).take
      ((directory ++ belowSuffix).length - belowSuffix.length) = directory := fun directory => by
    rw [List.length_append, Nat.add_sub_cancel, List.take_left]
  rw [liesBelow, Bool.and_eq_true, List.isSuffixOf_iff_suffix]
  constructor
  · rintro ⟨⟨directory, rfl⟩, h⟩
    rw [htake] at h
    exact ⟨directory, rfl, by simpa using h⟩
  · rintro ⟨directory, rfl, hglob, hprefix⟩
    rw [htake]
    exact ⟨List.suffix_append _ _, by simpa using ⟨hglob, hprefix⟩⟩

/-- What lies below a directory that a pattern names is selected by the pattern, if that leaves
nothing to choose. -/
theorem matchesPattern_of_liesBelow [Platform] (hpath : .scalar '\n' ∉ path)
    (hown : alternatives pattern = .ok [pattern]) (hbelow : liesBelow path pattern = true) :
    matchesPattern path pattern = true := by
  obtain ⟨directory, rfl, hglob, hprefix⟩ := liesBelow_iff.mp hbelow
  exact (matchesPattern_below_iff hglob hpath hown).mpr hprefix

/-- A path is ignored exactly if some pattern selects it, where this can be told of each pattern and
looking at directories tells nothing else. -/
theorem isIgnored_eq_any [Platform]
    (hselects : ∀ pattern ∈ patterns, selects path pattern = .ok (matchesPattern path pattern))
    (hbelow : ∀ pattern ∈ patterns, liesBelow path pattern = true →
      matchesPattern path pattern = true) :
    isIgnored path patterns = .ok (patterns.any (matchesPattern path)) := by
  induction patterns with
  | nil => rfl
  | cons pattern patterns ih =>
      obtain ⟨hpattern, hselects⟩ := List.forall_mem_cons.mp hselects
      obtain ⟨hlies, hbelow⟩ := List.forall_mem_cons.mp hbelow
      have hsame : (matchesPattern path pattern || liesBelow path pattern)
          = matchesPattern path pattern := by
        rw [Bool.or_eq_left_iff_imp]
        exact hlies
      rw [isIgnored, hpattern, List.any_cons]
      dsimp only
      rw [hsame, ih hselects hbelow]
      cases matchesPattern path pattern <;> rfl

/-- Without line feeds in it a path is ignored by patterns that leave nothing to choose exactly if
one of them selects it; looking at directories adds no path.  And the pattern for what lies below a
directory without special characters selects exactly the paths that start with the directory and a
slash. -/
theorem isIgnored_eq_selected [Platform] (path : CodeText) (hpath : .scalar '\n' ∉ path) :
    (∀ patterns : List CodeText, (∀ pattern ∈ patterns, alternatives pattern = .ok [pattern]) →
      isIgnored path patterns
        = .ok (decide (∃ pattern ∈ patterns, selects path pattern = .ok true))) ∧
    ∀ directory : CodeText, isGlob directory = false →
      alternatives (directory ++ belowSuffix) = .ok [directory ++ belowSuffix] →
      selects path (directory ++ belowSuffix)
        = .ok (decide (directory ++ [CodePoint.scalar '/'] <+: path)) := by
  constructor
  · intro patterns hown
    have hselects : ∀ pattern ∈ patterns,
        selects path pattern = .ok (matchesPattern path pattern) := fun pattern hpattern =>
      (selects_of_own (hown pattern hpattern)).1
    rw [isIgnored_eq_any hselects fun pattern hpattern =>
      matchesPattern_of_liesBelow hpath (hown pattern hpattern), Except.ok.injEq,
      Bool.eq_iff_iff, List.any_eq_true, decide_eq_true_iff]
    refine exists_congr fun pattern => and_congr_right fun hpattern => ?_
    rw [hselects pattern hpattern, Except.ok.injEq]
  · intro directory hglob hown
    rw [(selects_of_own hown).1, Except.ok.injEq, Bool.eq_iff_iff, decide_eq_true_iff]
    exact matchesPattern_below_iff hglob hpath hown

/-- Braces in the name of a directory stand for themselves where nothing is left to choose: what
lies below it is selected, and ignored behind a pattern that does not select it. -/
theorem isIgnored_literalBraces :
    isIgnored (codeText "lib/\x7ba\x7d/x.json")
        [codeText "*.txt", codeText "lib/\x7ba\x7d" ++ belowSuffix] = .ok true ∧
      selects (codeText "lib/\x7ba\x7d/x.json") (codeText "lib/\x7ba\x7d" ++ belowSuffix)
        = .ok true := by
  obtain ⟨hignored, hbelow⟩ := isIgnored_eq_selected (codeText "lib/\x7ba\x7d/x.json") (by decide)
  have hown : ∀ pattern ∈ [codeText "*.txt", codeText "lib/\x7ba\x7d" ++ belowSuffix],
      alternatives pattern = .ok [pattern] := by
    decide +kernel
  have hselects := hbelow (codeText "lib/\x7ba\x7d") (by decide) (hown _ (by simp))
  have hprefix : codeText "lib/\x7ba\x7d" ++ [CodePoint.scalar '/']
      <+: codeText "lib/\x7ba\x7d/x.json" := by
    decide
  rw [decide_eq_true hprefix] at hselects
  refine ⟨(hignored _ hown).trans (congrArg Except.ok (decide_eq_true ?_)), hselects⟩
  exact ⟨_, by simp, hselects⟩

/-- A path with a line feed is ignored as its start is the directory, although the pattern does not
select it. -/
example : isIgnored (codeText "d/\n.json") [codeText "d/**"] = .ok true ∧
    selects (codeText "d/\n.json") (codeText "d/**") = .ok false := by
  decide +kernel

end KeyOrder
