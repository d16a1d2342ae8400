import KeyOrder.Proofs.BraceChoices
import KeyOrder.Proofs.PieceLanguages
import Mathlib.Data.List.Chain
/-!
# What a path pattern selects

A path pattern is read from left to right as a row of pieces, pairs of stars first.  A path
is selected exactly if it is a text of the product of the languages of these pieces, for one
of the alternatives of the pattern.
-/

namespace KeyOrder.Glob

/-! ## How a pattern is read -/

/-- The text of a piece. -/
def Piece.text : Piece → CodeText
  | anything => codeText "**"
  | withinName => codeText "*"
  | oneInName => codeText "?"
  | literal c => [c]

/-- Pieces that a text is read as from left to right: their texts make it up, stars and question
marks stand for themselves nowhere, and of two stars next to each other none is read alone unless
the other one is part of a pair before it. -/
structure IsReading (text : CodeText) (pieces : List Piece) : Prop where
  text_eq : pieces.flatMap Piece.text = text
  special : ∀ c, .literal c ∈ pieces → c ≠ .scalar '*' ∧ c ≠ .scalar '?'
  greedy : pieces.IsChain fun piece next =>
    piece = .withinName → next ≠ .withinName ∧ next ≠ .anything

/-- What follows the first piece is read alike. -/
theorem IsReading.tail {text : CodeText} {piece : Piece} {pieces : List Piece}
    (h : IsReading text (piece :: pieces)) :
    ∃ rest, text = piece.text ++ rest ∧ IsReading rest pieces :=
  ⟨pieces.flatMap Piece.text, by rw [← h.text_eq, List.flatMap_cons], rfl,
    fun c hc => h.special c (List.mem_cons_of_mem piece hc), h.greedy.of_cons⟩

/-- A star without another one after it is read alone. -/
theorem piecesOf_star {rest : CodeText} (h : ∀ tail, rest ≠ .scalar '*' :: tail) :
    piecesOf (.scalar '*' :: rest) = .withinName :: piecesOf rest := by
  rw [piecesOf]
  exact h

/-- A character that is no star and no question mark stands for itself. -/
theorem piecesOf_literal {c : CodePoint} (hstar : c ≠ .scalar '*') (hmark : c ≠ .scalar '?')
    (rest : CodeText) : piecesOf (c :: rest) = .literal c :: piecesOf rest := by
  rw [piecesOf]
  · exact fun _ hc _ => hstar hc
  · exact hstar
  · exact hmark

/-- Texts are read apart if the second one does not start with a star. -/
theorem piecesOf_append (before : CodeText) {rest : CodeText}
    (h : ∀ tail, rest ≠ .scalar '*' :: tail) :
    piecesOf (before ++ rest) = piecesOf before ++ piecesOf rest := by
  fun_induction piecesOf before with
  | case1 before ih => exact congrArg (Piece.anything :: ·) ih
  | case2 before hbefore ih =>
      refine (piecesOf_star fun tail htail => ?_).trans (congrArg (Piece.withinName :: ·) ih)
      cases before with
      | nil => exact h tail htail
      | cons c before => exact hbefore before (by rw [(List.cons.inj htail).1])
  | case3 before ih => exact congrArg (Piece.oneInName :: ·) ih
  | case4 c before _ hstar hmark ih =>
      exact (piecesOf_literal (fun h => hstar h) (fun h => hmark h) _).trans
        (congrArg (Piece.literal c :: ·) ih)
  | case5 => rfl

/-- After a star that is read alone there is no other one. -/
theorem IsReading.ne_star {text : CodeText} {pieces : List Piece}
    (h : IsReading text (.withinName :: pieces)) (tail : CodeText) :
    text ≠ .scalar '*' :: .scalar '*' :: tail := by
  rintro rfl
  have htext := h.text_eq
  cases pieces with
  | nil => simp [Piece.text, CodeText.ofText] at htext
  | cons next pieces =>
      have hnext := (List.isChain_cons_cons.mp h.greedy).1 rfl
      cases next with
      | anything => exact hnext.2 rfl
      | withinName => exact hnext.1 rfl
      | oneInName => simp [Piece.text, CodeText.ofText] at htext
      | literal c =>
          have hc := (h.special c (by simp)).1
          simp [Piece.text, CodeText.ofText] at htext
          exact hc htext.1

/-- A text is read in one way. -/
theorem IsReading.eq_piecesOf {text : CodeText} {pieces : List Piece} (h : IsReading text pieces) :
    pieces = piecesOf text := by
  induction pieces generalizing text with
  | nil =>
      rw [← h.text_eq]
      rfl
  | cons piece pieces ih =>
      obtain ⟨rest, rfl, hrest⟩ := h.tail
      cases piece with
      | anything => exact congrArg (Piece.anything :: ·) (ih hrest)
      | withinName =>
          -- A star in front of another one would have been read together with it.
          refine (congrArg (Piece.withinName :: ·) (ih hrest)).trans (piecesOf_star ?_).symm
          rintro tail rfl
          exact h.ne_star tail rfl
      | oneInName => exact congrArg (Piece.oneInName :: ·) (ih hrest)
      | literal c =>
          obtain ⟨hstar, hmark⟩ := h.special c List.mem_cons_self
          exact (congrArg (Piece.literal c :: ·) (ih hrest)).trans
            (piecesOf_literal hstar hmark rest).symm

/-- A piece is read in front of a text: it is no literal that is special, and no star that is read
alone before another one. -/
theorem IsReading.cons {text : CodeText} (piece : Piece) {pieces : List Piece}
    (h : IsReading text pieces)
    (hliteral : ∀ c, piece = .literal c → c ≠ .scalar '*' ∧ c ≠ .scalar '?')
    (hstar : piece = .withinName → ∀ tail, text ≠ .scalar '*' :: tail) :
    IsReading (piece.text ++ text) (piece :: pieces) where
  text_eq := by rw [List.flatMap_cons, h.text_eq]
  special c hc := by
    rcases List.mem_cons.mp hc with heq | hc
    · exact hliteral c heq.symm
    · exact h.special c hc
  greedy := by
    refine List.isChain_cons.mpr ⟨fun next hnext hpiece => ?_, h.greedy⟩
    obtain ⟨later, rfl⟩ := List.head?_eq_some_iff.mp hnext
    have htext := h.text_eq.symm
    rw [List.flatMap_cons] at htext
    constructor
    · rintro rfl
      exact hstar hpiece _ htext
    · rintro rfl
      exact hstar hpiece _ htext

/-- A text is read as its pieces. -/
theorem isReading_piecesOf (text : CodeText) : IsReading text (piecesOf text) := by
  fun_induction piecesOf text with
  | case1 rest ih => exact ih.cons .anything (fun c hc => by cases hc) fun hc => by cases hc
  | case2 rest hrest ih => exact ih.cons .withinName (fun c hc => by cases hc) fun _ => hrest
  | case3 rest ih => exact ih.cons .oneInName (fun c hc => by cases hc) fun hc => by cases hc
  | case4 c rest _ hstar hmark ih =>
      refine ih.cons (.literal c) (fun d hd => ?_) fun hc => by cases hc
      rw [← Piece.literal.inj hd]
      exact ⟨hstar, hmark⟩
  | case5 => exact ⟨rfl, fun c hc => (List.not_mem_nil hc).elim, List.isChain_nil⟩

/-- A text is read in exactly one way, as its pieces. -/
theorem isReading_iff {text : CodeText} {pieces : List Piece} :
    IsReading text pieces ↔ pieces = piecesOf text := by
  constructor
  · exact IsReading.eq_piecesOf
  · rintro rfl
    exact isReading_piecesOf text

/-- A pattern that a text is read as: two stars and a slash at the very start are read apart. -/
def Pattern.IsReading (text : CodeText) (pattern : Pattern) : Prop :=
  if pattern.anyDirectory then
    ∃ rest, text = codeText "**/" ++ rest ∧ Glob.IsReading rest pattern.pieces
  else ¬ codeText "**/" <+: text ∧ Glob.IsReading text pattern.pieces

/-- A text without two stars and a slash at its start is read as its pieces. -/
theorem Pattern.ofText_of_not_isPrefix {text : CodeText} (h : ¬ codeText "**/" <+: text) :
    Pattern.ofText text = { anyDirectory := false, pieces := piecesOf text } := by
  unfold Pattern.ofText
  split
  · next rest => exact absurd ⟨rest, rfl⟩ h
  · rfl

/-- A text without stars matches what its pieces take. -/
theorem matches_ofText_of_not_mem {text path : CodeText} (hstar : .scalar '*' ∉ text) :
    (Pattern.ofText text).matches path = true ↔
      path ∈ ((piecesOf text).map Piece.taken).prod * ending := by
  have hstart : ¬ codeText "**/" <+: text := fun hstart =>
    hstar (hstart.subset List.mem_cons_self)
  rw [Pattern.matches_iff, Pattern.taken, Pattern.ofText_of_not_isPrefix hstart,
    if_neg Bool.false_ne_true, one_mul]

/-- A text is read as exactly one pattern. -/
theorem Pattern.isReading_iff {text : CodeText} {pattern : Pattern} :
    pattern.IsReading text ↔ pattern = Pattern.ofText text := by
  obtain ⟨anyDirectory, pieces⟩ := pattern
  unfold Pattern.IsReading
  by_cases hstart : codeText "**/" <+: text
  · obtain ⟨rest, rfl⟩ := hstart
    have hread : Pattern.ofText (codeText "**/" ++ rest)
        = { anyDirectory := true, pieces := piecesOf rest } := rfl
    rw [hread, Pattern.mk.injEq]
    cases anyDirectory with
    | true =>
        rw [if_pos rfl, and_iff_right rfl, ← Glob.isReading_iff]
        constructor
        · rintro ⟨rest', hrest, h⟩
          rwa [List.append_cancel_left hrest]
        · exact fun h => ⟨rest, rfl, h⟩
    | false =>
        rw [if_neg Bool.false_ne_true]
        exact iff_of_false (fun h => h.1 ⟨rest, rfl⟩) fun h => Bool.false_ne_true h.1
  · rw [ofText_of_not_isPrefix hstart, Pattern.mk.injEq]
    cases anyDirectory with
    | true =>
        rw [if_pos rfl]
        refine iff_of_false ?_ fun h => Bool.false_ne_true h.1.symm
        rintro ⟨rest, rfl, -⟩
        exact hstart ⟨rest, rfl⟩
    | false =>
        rw [if_neg Bool.false_ne_true, and_iff_right hstart, and_iff_right rfl, Glob.isReading_iff]

/-! ## Selection -/

/-- A text of a pattern stands for a path. -/
def StandsFor (text path : CodeText) : Prop :=
  ∃ pattern : Pattern, pattern.IsReading text ∧ path ∈ pattern.language

/-- Without line feeds a text of a pattern is matched by what it stands for. -/
theorem matches_ofText_iff (text : CodeText) {path : CodeText} (hpath : .scalar '\n' ∉ path) :
    (Pattern.ofText text).matches path = true ↔ StandsFor text path := by
  rw [Pattern.matches_iff_mem_language _ hpath]
  constructor
  · exact fun h => ⟨Pattern.ofText text, Pattern.isReading_iff.mpr rfl, h⟩
  · rintro ⟨pattern, hread, h⟩
    rwa [← Pattern.isReading_iff.mp hread]

/-- Without line feeds in it a path is selected exactly if it equals the pattern, or if one of the
texts that the brace groups of the pattern stand for stands for it.  It cannot be told exactly if
the path does not equal the pattern and the groups cannot be expanded. -/
theorem selects_eq_ok_true_iff [Platform] (path pattern : CodeText) (hpath : .scalar '\n' ∉ path) :
    (selects path pattern = .ok true ↔
      path = pattern ∨ ∃ texts, alternatives pattern = .ok texts ∧ ∃ text ∈ texts,
        StandsFor text path) ∧
      ∀ fault, selects path pattern = .error fault ↔
        path ≠ pattern ∧ alternatives pattern = .error fault := by
  have hmatches : matchesPattern path pattern = true ↔
      path = pattern ∨ ∃ text ∈ expandBraces pattern, StandsFor text path := by
    rw [matchesPattern, Bool.or_eq_true, beq_iff_eq, List.any_eq_true]
    exact or_congr_right (exists_congr fun text => and_congr_right fun _ =>
      matches_ofText_iff text hpath)
  unfold selects isDecided
  rw [alternatives_eq]
  -- A path that equals the pattern is selected before the groups are looked at.
  by_cases hsame : path = pattern
  · subst hsame
    simp [matchesPattern]
  · rw [or_iff_right hsame] at hmatches ⊢
    cases hexpandable : isExpandable pattern with
    | true => simp [hmatches]
    | false => simp [hsame]

/-- A path under a directory is selected by the first alternative of a group. -/
theorem selects_eq_ok_true_iff_group :
    selects (codeText "src/a.json") (codeText "\x7b**/?,lib/*\x7d.json") = .ok true := by
  have hchoice : firstChoice? (codeText "\x7b**/?,lib/*\x7d.json")
      = some ⟨[], codeText "**/?,lib/*", codeText ".json"⟩ :=
    firstChoice?_of_closeGroup? (by rfl) (by decide)
  have hone : expandBraces (codeText "**/?.json") = [codeText "**/?.json"] :=
    expandBraces_of_none (by simp [firstChoice?, CodeText.ofText])
  have htexts : codeText "**/?.json" ∈ expandBraces (codeText "\x7b**/?,lib/*\x7d.json") := by
    rw [expandBraces_of_some hchoice, List.mem_eraseDups]
    refine List.mem_flatMap.mpr ⟨codeText "**/?", by decide, ?_⟩
    show _ ∈ expandBraces (codeText "**/?.json")
    rw [hone]
    exact List.mem_singleton_self _
  have halternatives := (alternatives_eq (codeText "\x7b**/?,lib/*\x7d.json")).trans
    (if_pos (by decide +kernel))
  have hpath : .scalar '\n' ∉ codeText "src/a.json" := by decide
  have hstands : StandsFor (codeText "**/?.json") (codeText "src/a.json") :=
    (matches_ofText_iff _ hpath).mp (by decide)
  exact (selects_eq_ok_true_iff (codeText "src/a.json") _ hpath).1.mpr
    (Or.inr ⟨_, halternatives, _, htexts, hstands⟩)

end KeyOrder.Glob
