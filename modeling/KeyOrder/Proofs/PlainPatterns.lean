import KeyOrder.Proofs.Selection
import KeyOrder.Proofs.TargetSets
/-!
# Patterns without wildcards

A pattern without stars and question marks whose brace groups, if it has any, leave nothing to
choose stands for itself, character by character, whatever the characters are.  It selects its own
text and, as a line feed at the end of a path is passed over, its text with a line feed after it; it
selects no other path.
-/

namespace KeyOrder.Glob

section Literals

variable {text path : CodeText}

/-- A row of literals takes its own text from the start of a path, and the rest of the pattern takes
what follows it. -/
theorem mem_prod_literal_mul {L : Language CodePoint} :
    path ∈ ((text.map Piece.literal).map Piece.taken).prod * L ↔
      ∃ rest ∈ L, path = text ++ rest := by
  induction text generalizing path with
  | nil =>
      rw [List.map_nil, List.map_nil, List.prod_nil, one_mul]
      exact ⟨fun h => ⟨path, h, rfl⟩, fun ⟨_, hrest, heq⟩ => heq ▸ hrest⟩
  | cons c text ih =>
      rw [List.map_cons, List.map_cons, List.prod_cons, mul_assoc, Piece.taken]
      cases path with
      | nil =>
          refine iff_of_false nil_not_mem_single_mul ?_
          rintro ⟨rest, -, heq⟩
          cases heq
      | cons d path =>
          simp only [cons_mem_single_mul, ih, beq_iff_eq, List.cons_append, List.cons.injEq,
            exists_and_left, and_left_comm]

variable (hstar : .scalar '*' ∉ text) (hmark : .scalar '?' ∉ text)

include hstar hmark

/-- A text without wildcards is read as a row of literals. -/
theorem piecesOf_eq_map_literal : piecesOf text = text.map Piece.literal := by
  induction text with
  | nil => rfl
  | cons c rest ih =>
      obtain ⟨hc, hrest⟩ := not_or.mp (List.mem_cons.not.mp hstar)
      obtain ⟨hc', hrest'⟩ := not_or.mp (List.mem_cons.not.mp hmark)
      rw [piecesOf_literal (Ne.symm hc) (Ne.symm hc'), ih hrest hrest', List.map_cons]

/-- A text without wildcards matches itself, and itself with a line feed after it. -/
theorem matches_ofText_plain : (Pattern.ofText text).matches path = true ↔
    path = text ∨ path = text ++ [.scalar '\n'] := by
  rw [matches_ofText_of_not_mem hstar, piecesOf_eq_map_literal hstar hmark, mem_prod_literal_mul]
  simp only [mem_ending, or_and_right, exists_or, exists_eq_left, List.append_nil]

end Literals

/-- A pattern without wildcards that is its own only alternative selects its own text and its text
with a line feed after it, and no other path; this can be told of every path. -/
theorem selects_plain [Platform] (path : CodeText) {pattern : CodeText}
    (hstar : .scalar '*' ∉ pattern)
    (hmark : .scalar '?' ∉ pattern) (hown : alternatives pattern = .ok [pattern]) :
    selects path pattern = .ok (path == pattern || path == pattern ++ [.scalar '\n']) := by
  have hexpanded := alternatives_eq_ok_iff.mp hown
  refine selects_eq_ok_iff.mpr ⟨?_, ?_⟩
  · rw [isDecided, hexpanded.1, Bool.or_true]
  · rw [matchesPattern, hexpanded.2, List.any_cons, List.any_nil, Bool.or_false, Bool.eq_iff_iff,
      Bool.or_eq_true, Bool.or_eq_true, matches_ofText_plain hstar hmark, beq_iff_eq, beq_iff_eq,
      ← or_assoc, or_self]

/-- A plus sign stands for itself: it does not repeat the character before it. -/
theorem selects_plus :
    selects (codeText "dir/aab.json") (codeText "dir/a+b.json") = .ok false :=
  selects_plain _ (by decide) (by decide) (alternatives_of_not_mem (by decide))

/-- A path that is more than the pattern is selected where the rest is a line feed. -/
theorem selects_line_feed : ¬ ∀ path pattern : CodeText, .scalar '*' ∉ pattern →
    .scalar '?' ∉ pattern → alternatives pattern = .ok [pattern] →
      (selects path pattern = .ok true ↔ path = pattern) := by
  intro h
  have hpattern : .scalar '{' ∉ codeText "package.json" := by decide
  have hown := alternatives_of_not_mem hpattern
  have hselects : selects (codeText "package.json\n") (codeText "package.json") = .ok true := by
    refine selects_eq_ok_iff.mpr ⟨?_, ?_⟩
    · rw [isDecided, isExpandable, choicesIn_of_none (firstChoice?_of_not_mem hpattern)]
      rfl
    · rw [matchesPattern, expandBraces_of_none (firstChoice?_of_not_mem hpattern)]
      decide
  have hsame := (h _ _ (by decide) (by decide) hown).mp hselects
  exact absurd hsame (by decide)

end KeyOrder.Glob
