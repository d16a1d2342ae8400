import KeyOrder.Glob.Specificity
import KeyOrder.Proofs.Matching
import Mathlib
/-!
# Scores of the patterns that select a path

The score of a pattern is the sum of what its pieces add.  A pattern with stars that selects
a path cannot score more than the path has room for, so a path that is a pattern itself is
above it.  A pattern without stars scores as a path does, by its slashes and its length, so
it is above the path itself if it is longer, and as specific if it is as long.
-/

namespace KeyOrder.Glob

/-! ## Scores piece by piece -/

/-- What a piece adds to the score of a pattern. -/
def Piece.weight : Piece → Int
  | anything => -3
  | withinName => 2
  | oneInName => 1
  | literal c => if c = .scalar '/' then 11 else 1

/-- A star without another one after it is in no pair. -/
theorem countDoubleStars_star {rest : CodeText} (h : ∀ tail, rest ≠ .scalar '*' :: tail) :
    countDoubleStars (.scalar '*' :: rest) = countDoubleStars rest := by
  rw [countDoubleStars]
  exact fun tail _ htail => h tail htail

/-- A character that is no star is in no pair. -/
theorem countDoubleStars_cons {c : CodePoint} (h : c ≠ .scalar '*') (rest : CodeText) :
    countDoubleStars (c :: rest) = countDoubleStars rest := by
  rw [countDoubleStars]
  exact fun _ hc _ => h hc

/-- A pattern scores what its pieces add, and much more without stars. -/
theorem specificity_eq (text : CodeText) : specificity text =
    (if .scalar '*' ∈ text then 0 else 1000) + ((piecesOf text).map Piece.weight).sum := by
  have hsum : ((piecesOf text).map Piece.weight).sum = 10 * (text.count (.scalar '/') : Int)
      - 5 * countDoubleStars text
      + (text.count (.scalar '*') - 2 * countDoubleStars text) + text.length := by
    fun_induction piecesOf text with
    | case1 rest ih =>
        rw [countDoubleStars]
        simp [Piece.weight, ih]
        omega
    | case2 rest hrest ih =>
        rw [countDoubleStars_star hrest]
        simp [Piece.weight, ih]
        omega
    | case3 rest ih =>
        rw [countDoubleStars_cons (by decide)]
        simp [Piece.weight, ih]
        omega
    | case4 c rest _ hstar hmark ih =>
        rw [countDoubleStars_cons hstar]
        by_cases hslash : c = .scalar '/'
        · subst hslash
          simp [Piece.weight, ih]
          omega
        · rw [List.count_cons_of_ne hslash, List.count_cons_of_ne fun h => hstar h]
          simp [Piece.weight, ih, hslash]
          omega
    | case5 => rfl
  rw [hsum, specificity]
  by_cases hstar : .scalar '*' ∈ text
  · simp [hstar]
  · simp [hstar]
    omega

/-- A text without stars is in no pair with what follows it, and adds its slashes and its length. -/
theorem sum_weight_append {text : CodeText} (hstar : .scalar '*' ∉ text) (rest : CodeText) :
    ((piecesOf (text ++ rest)).map Piece.weight).sum
      = 10 * (text.count (.scalar '/') : Int) + text.length
        + ((piecesOf rest).map Piece.weight).sum := by
  induction text with
  | nil => simp
  | cons c text ih =>
      obtain ⟨hc, hstar⟩ := not_or.mp (List.mem_cons.not.mp hstar)
      have ih := ih hstar
      by_cases hmark : c = .scalar '?'
      · rw [hmark, List.cons_append, piecesOf, List.map_cons, List.sum_cons, ih, Piece.weight,
          List.length_cons, List.count_cons_of_ne (by decide)]
        omega
      · rw [List.cons_append, piecesOf_literal (Ne.symm hc) hmark, List.map_cons, List.sum_cons, ih,
          Piece.weight, List.length_cons, List.count_cons]
        by_cases hslash : c = .scalar '/'
        · simp [hslash]
          omega
        · simp [hslash]
          omega

/-- No piece adds more than a slash does. -/
theorem sum_weight_le_length (text : CodeText) :
    ((piecesOf text).map Piece.weight).sum ≤ 11 * text.length := by
  fun_induction piecesOf text with
  | case1 rest ih =>
      simp [Piece.weight]
      omega
  | case2 rest _ ih =>
      simp [Piece.weight]
      omega
  | case3 rest ih =>
      simp [Piece.weight]
      omega
  | case4 c rest _ _ _ ih =>
      have hweight : (Piece.literal c).weight ≤ 11 := by
        rw [Piece.weight]
        split <;> omega
      simp
      omega
  | case5 => simp

/-! ## Patterns with stars -/

/-- What a path has room for: each of its characters can be taken by itself, with a star in
front. -/
def room (path : CodeText) : Int :=
  10 * path.count (.scalar '/') + 3 * path.length

/-- The parts of a path have its room together. -/
theorem room_append (s t : CodeText) : room (s ++ t) = room s + room t := by
  simp [room]
  omega

/-- There is no negative room. -/
theorem room_nonneg (path : CodeText) : 0 ≤ room path := by
  rw [room]
  omega

/-- The room of one character is enough for it and for a star. -/
theorem weight_add_two_le_room {piece : Piece} {part : CodeText} (hpart : part ∈ piece.taken)
    (hany : piece ≠ .anything) (hwithin : piece ≠ .withinName) :
    piece.weight + 2 ≤ room part := by
  cases piece with
  | anything => exact absurd rfl hany
  | withinName => exact absurd rfl hwithin
  | oneInName =>
      obtain ⟨c, -, rfl⟩ := hpart
      simp [Piece.weight, room]
  | literal c =>
      obtain ⟨d, hd, rfl⟩ := hpart
      obtain rfl := beq_iff_eq.mp hd
      by_cases hslash : d = .scalar '/' <;> simp [Piece.weight, room, hslash]

/-- Pieces that take a path add no more than it has room for, and a star in front of them all.
No star stands right before another one, so each of them has a character of its own. -/
theorem sum_weight_le_room {pieces : List Piece} {path : CodeText}
    (hgreedy : pieces.IsChain fun piece next =>
      piece = .withinName → next ≠ .withinName ∧ next ≠ .anything)
    (hpath : path ∈ (pieces.map Piece.taken).prod * ending) :
    (pieces.map Piece.weight).sum
      ≤ room path + if pieces.head? = some .withinName then 2 else 0 := by
  induction pieces generalizing path with
  | nil =>
      have := room_nonneg path
      simpa using this
  | cons piece pieces ih =>
      rw [List.map_cons, List.prod_cons, mul_assoc, Language.mem_mul] at hpath
      obtain ⟨part, hpart, rest, hrest, rfl⟩ := hpath
      have hrest := ih hgreedy.of_cons hrest
      have hpartRoom := room_nonneg part
      rw [List.map_cons, List.sum_cons, room_append, List.head?_cons]
      by_cases hwithin : piece = .withinName
      · have hnext : pieces.head? ≠ some .withinName := fun h =>
          ((List.isChain_cons.mp hgreedy).1 _ h hwithin).1 rfl
        rw [if_neg hnext] at hrest
        rw [if_pos (congrArg some hwithin), hwithin, Piece.weight]
        omega
      · have hstar : (if pieces.head? = some .withinName then (2 : Int) else 0) ≤ 2 := by
          split <;> omega
        rw [if_neg (mt Option.some.inj hwithin)]
        by_cases hany : piece = .anything
        · rw [hany, Piece.weight]
          omega
        · have := weight_add_two_le_room hpart hany hwithin
          omega

/-- A pattern with a star scores no more than a path has room for that it selects, and a little for
a start in any directory. -/
theorem specificity_le_room {text path : CodeText} (hstar : .scalar '*' ∈ text)
    (h : (Pattern.ofText text).matches path = true) : specificity text ≤ room path + 10 := by
  rw [Pattern.matches_iff, Pattern.taken] at h
  rw [specificity_eq, if_pos hstar]
  by_cases hstart : codeText "**/" <+: text
  · obtain ⟨rest, rfl⟩ := hstart
    rw [Language.mem_mul] at h
    obtain ⟨front, -, tail, htail, rfl⟩ := h
    have hrest := sum_weight_le_room (isReading_piecesOf rest).greedy htail
    have hfront := room_nonneg front
    have hsum : ((piecesOf (codeText "**/" ++ rest)).map Piece.weight).sum
        = -3 + (11 + ((piecesOf rest).map Piece.weight).sum) := rfl
    rw [hsum, room_append]
    split at hrest <;> omega
  · rw [Pattern.ofText_of_not_isPrefix hstart, if_neg Bool.false_ne_true, one_mul] at h
    have hall := sum_weight_le_room (isReading_piecesOf text).greedy h
    split at hall <;> omega

/-! ## Patterns without stars -/

/-- A text without stars has no pairs of them. -/
theorem countDoubleStars_of_not_mem {text : CodeText} (h : .scalar '*' ∉ text) :
    countDoubleStars text = 0 := by
  induction text with
  | nil => rfl
  | cons c rest ih =>
      obtain ⟨hc, hrest⟩ := not_or.mp (List.mem_cons.not.mp h)
      rw [countDoubleStars_cons (Ne.symm hc), ih hrest]

/-- A text without stars scores by its slashes and its length. -/
theorem specificity_of_not_mem {text : CodeText} (h : .scalar '*' ∉ text) :
    specificity text = 1000 + 10 * text.count (.scalar '/') + text.length := by
  have hcount := List.count_eq_zero_of_not_mem h
  rw [specificity, countDoubleStars_of_not_mem h, hcount]
  simp [h]

/-- Pieces without stars take a path character by character, slashes by slashes; only a line feed
at the end of the path is passed over. -/
theorem count_slash_of_mem_prod {text path : CodeText} (hstar : .scalar '*' ∉ text)
    (h : path ∈ ((piecesOf text).map Piece.taken).prod * ending) :
    path.count (.scalar '/') = text.count (.scalar '/') ∧ path.length ≤ text.length + 1 := by
  induction text generalizing path with
  | nil =>
      rw [piecesOf, List.map_nil, List.prod_nil, one_mul] at h
      rcases mem_ending.mp h with rfl | rfl
      · exact ⟨rfl, by decide⟩
      · exact ⟨by decide, by decide⟩
  | cons c rest ih =>
      obtain ⟨hc, hrest⟩ := not_or.mp (List.mem_cons.not.mp hstar)
      by_cases hmark : c = .scalar '?'
      · rw [hmark, piecesOf, List.map_cons, List.prod_cons, mul_assoc, Language.mem_mul] at h
        obtain ⟨_, ⟨d, hd, rfl⟩, tail, htail, rfl⟩ := h
        obtain ⟨hcount, hlength⟩ := ih hrest htail
        have hslash : d ≠ .scalar '/' := bne_iff_ne.mp hd
        rw [hmark, List.singleton_append, List.count_cons_of_ne hslash,
          List.count_cons_of_ne (by decide)]
        exact ⟨hcount, Nat.succ_le_succ hlength⟩
      · rw [piecesOf_literal (Ne.symm hc) hmark, List.map_cons, List.prod_cons, mul_assoc,
          Language.mem_mul] at h
        obtain ⟨_, ⟨d, hd, rfl⟩, tail, htail, rfl⟩ := h
        obtain ⟨hcount, hlength⟩ := ih hrest htail
        obtain rfl := beq_iff_eq.mp hd
        rw [List.singleton_append, List.count_cons, List.count_cons, hcount]
        exact ⟨rfl, Nat.succ_le_succ hlength⟩

/-- A pattern without stars takes paths with as many slashes, and with no more characters but for a
line feed at the end. -/
theorem count_slash_of_matches {text path : CodeText} (hstar : .scalar '*' ∉ text)
    (h : (Pattern.ofText text).matches path = true) :
    path.count (.scalar '/') = text.count (.scalar '/') ∧ path.length ≤ text.length + 1 := by
  exact count_slash_of_mem_prod hstar ((matches_ofText_of_not_mem hstar).mp h)

/-! ## Patterns with groups -/

/-- A first text with a character more keeps the character and the order of the others. -/
theorem sublist_of_mem_consFirst {c : CodePoint} {texts : List CodeText} {body : CodeText}
    (htexts : ∀ t ∈ texts, t.Sublist body) {option : CodeText} (h : option ∈ consFirst c texts) :
    option.Sublist (c :: body) := by
  cases texts with
  | nil =>
      obtain rfl := List.mem_singleton.mp h
      exact (List.nil_sublist body).cons_cons c
  | cons text rest =>
      rcases List.mem_cons.mp h with rfl | h
      · exact (htexts text List.mem_cons_self).cons_cons c
      · exact (htexts option (List.mem_cons_of_mem text h)).cons c

/-- An alternative is a part of the body that it comes from. -/
theorem sublist_of_mem_splitOptions {depth : Nat} {body : CodeText} :
    ∀ option ∈ splitOptions depth body, option.Sublist body := by
  fun_induction splitOptions depth body with
  | case1 =>
      intro option h
      obtain rfl := List.mem_singleton.mp h
      exact List.Sublist.refl _
  | case2 depth rest ih => exact fun option h => sublist_of_mem_consFirst ih h
  | case3 rest ih =>
      intro option h
      rcases List.mem_cons.mp h with rfl | h
      · exact List.nil_sublist _
      · exact (ih option h).cons _
  | case4 depth rest ih => exact fun option h => sublist_of_mem_consFirst ih h
  | case5 depth c rest _ _ _ ih => exact fun option h => sublist_of_mem_consFirst ih h

/-- A pattern stands for itself, or for texts that are made by leaving out some of it, two braces
at least. -/
theorem sublist_of_mem_expandBraces {pattern text : CodeText} (h : text ∈ expandBraces pattern) :
    text = pattern ∨ text.Sublist pattern ∧ text.length + 2 ≤ pattern.length := by
  induction hlength : pattern.length using Nat.strong_induction_on generalizing pattern with
  | h bound ih =>
      cases hchoice : firstChoice? pattern with
      | none =>
          rw [expandBraces_of_none hchoice] at h
          exact Or.inl (List.mem_singleton.mp h)
      | some choice =>
          rw [expandBraces_of_some hchoice, List.mem_eraseDups] at h
          obtain ⟨option, hoption, h⟩ := List.mem_flatMap.mp h
          have hsub : (choice.with option).Sublist pattern := by
            rw [firstChoice_eq hchoice, Choice.with, List.append_assoc]
            exact (((sublist_of_mem_splitOptions option hoption).append
              (List.sublist_cons_self _ _)).cons _).append_left _
          have hshort : (choice.with option).length + 2 ≤ pattern.length := by
            have hbody := length_of_mem_splitOptions option hoption
            rw [firstChoice_eq hchoice, Choice.with]
            simp only [List.length_append, List.length_cons]
            omega
          subst hlength
          rcases ih _ (by omega) h rfl with rfl | ⟨hsub', hshort'⟩
          · exact Or.inr ⟨hsub, hshort⟩
          · exact Or.inr ⟨hsub'.trans hsub, by omega⟩

/-! ## Scores beside that of a path -/

section Path

variable {path pattern : CodeText} (hpath : .scalar '*' ∉ path)

include hpath

/-- A pattern with a star scores less than a path that it selects, if it is short, or if it has no
choice and the path is not long. -/
theorem specificity_lt_of_mem (hstar : .scalar '*' ∈ pattern)
    (hsize : pattern.length ≤ 90 ∨ firstChoice? pattern = none ∧ path.length ≤ 494)
    (h : matchesPattern path pattern = true) : specificity pattern < specificity path := by
  rw [specificity_of_not_mem hpath]
  rcases hsize with hshort | ⟨hchoice, hlength⟩
  · have hpieces := sum_weight_le_length pattern
    rw [specificity_eq, if_pos hstar]
    omega
  · have hne : path ≠ pattern := by
      rintro rfl
      exact hpath hstar
    rw [matchesPattern, expandBraces_of_none hchoice, List.any_cons, List.any_nil, Bool.or_false,
      Bool.or_eq_true, beq_iff_eq, or_iff_right hne] at h
    have hroom := specificity_le_room hstar h
    rw [room] at hroom
    omega

/-- A pattern without stars that selects a path scores as its length compares. -/
theorem specificity_compare (hstar : .scalar '*' ∉ pattern)
    (h : matchesPattern path pattern = true) :
    (specificity pattern < specificity path ↔ pattern.length < path.length) ∧
      (specificity pattern ≤ specificity path ↔ pattern.length ≤ path.length) := by
  rw [specificity_of_not_mem hpath, specificity_of_not_mem hstar]
  rw [matchesPattern, Bool.or_eq_true, beq_iff_eq, List.any_eq_true] at h
  rcases h with rfl | ⟨text, htext, h⟩
  · omega
  · rcases sublist_of_mem_expandBraces htext with rfl | ⟨hsub, hshort⟩
    · obtain ⟨hcount, -⟩ := count_slash_of_matches hstar h
      omega
    · -- Such a pattern is longer than the path and has no fewer slashes.
      obtain ⟨hcount, hlength⟩ := count_slash_of_matches (fun hmem => hstar (hsub.subset hmem)) h
      have hslashes := hsub.count_le (.scalar '/')
      omega

/-- A pattern that selects a path scores no more than it if it has a star, and as its length
compares if it has none. -/
theorem specificity_of_selecting (hsize : .scalar '*' ∈ pattern →
      pattern.length ≤ 90 ∨ firstChoice? pattern = none ∧ path.length ≤ 494) :
    ((matchesPattern path pattern = true → specificity pattern < specificity path) ↔
        (.scalar '*' ∉ pattern → matchesPattern path pattern = true →
          pattern.length < path.length)) ∧
      ((matchesPattern path pattern = true → specificity pattern ≤ specificity path) ↔
        (.scalar '*' ∉ pattern → matchesPattern path pattern = true →
          pattern.length ≤ path.length)) := by
  by_cases hstar : .scalar '*' ∈ pattern
  · have hlt := specificity_lt_of_mem hpath hstar (hsize hstar)
    exact ⟨iff_of_true hlt (absurd hstar), iff_of_true (fun h => (hlt h).le) (absurd hstar)⟩
  · have hcompare := specificity_compare hpath hstar
    rw [forall_prop_of_true hstar, forall_prop_of_true hstar]
    exact ⟨forall_congr' fun h => (hcompare h).1, forall_congr' fun h => (hcompare h).2⟩

end Path

end KeyOrder.Glob
