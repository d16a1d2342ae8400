import KeyOrder.Proofs.Selection
/-!
# Patterns with a text in place of a star

A star on its own may be replaced by a text that it stands for.  The score then grows by the
length of the text less two, which is what the star counts, and by much more if it was the only
star.  So the narrower pattern is above the broader one except beside other stars, where a text
of two characters is as specific as the star and a single character is less specific than it.
-/

namespace KeyOrder

namespace Glob

/-- A pattern cut at a star that is in no pair, and a text without special characters that may
stand in its place. -/
structure Refinement where
  before : CodeText
  literal : CodeText
  after : CodeText
  isToken : piecesOf (before ++ .scalar '*' :: after)
    = piecesOf before ++ .withinName :: piecesOf after
  ne_nil : literal ≠ []
  isPlain : ∀ c ∈ literal, c ∉ codeText "*?/\x7b\x7d[]"

namespace Refinement

/-- The pattern with the star. -/
def broad (r : Refinement) : CodeText :=
  r.before ++ .scalar '*' :: r.after

/-- The pattern with the text. -/
def narrow (r : Refinement) : CodeText :=
  r.before ++ r.literal ++ r.after

end Refinement

/-! ## Scores -/

namespace Refinement

variable (r : Refinement)

/-- There is no star in the text. -/
theorem star_not_mem_literal : .scalar '*' ∉ r.literal :=
  fun h => r.isPlain _ h (by decide)

/-- There is no slash in the text. -/
theorem slash_not_mem_literal : .scalar '/' ∉ r.literal :=
  fun h => r.isPlain _ h (by decide)

/-- The text does not start like the star that it takes the place of. -/
theorem literal_append_ne (tail : CodeText) : r.literal ++ r.after ≠ .scalar '*' :: tail := by
  obtain ⟨c, literal, hcons⟩ := List.exists_cons_of_ne_nil r.ne_nil
  intro h
  rw [hcons, List.cons_append] at h
  exact r.star_not_mem_literal (hcons ▸ (List.cons.inj h).1 ▸ List.mem_cons_self)

/-- The two patterns are not the same. -/
theorem narrow_ne_broad : r.narrow ≠ r.broad := by
  rw [narrow, broad, List.append_assoc]
  exact fun h => r.literal_append_ne r.after (List.append_cancel_left h)

/-- The text takes the place of a star that counts two. -/
theorem sum_weight_narrow : ((piecesOf r.narrow).map Piece.weight).sum
    = ((piecesOf r.broad).map Piece.weight).sum + r.literal.length - 2 := by
  rw [broad, r.isToken, narrow, List.append_assoc, piecesOf_append r.before r.literal_append_ne,
    List.map_append, List.map_append, List.sum_append, List.sum_append,
    sum_weight_append r.star_not_mem_literal, List.count_eq_zero_of_not_mem r.slash_not_mem_literal,
    List.map_cons, List.sum_cons, Piece.weight]
  omega

/-- The score grows by the length of the text less two, and much more if no star is left. -/
theorem specificity_narrow : specificity r.narrow = specificity r.broad + r.literal.length - 2
    + if .scalar '*' ∈ r.narrow then 0 else 1000 := by
  have hbroad : .scalar '*' ∈ r.broad := by simp [broad]
  rw [specificity_eq, specificity_eq, r.sum_weight_narrow, if_pos hbroad]
  omega

/-- The narrower pattern scores more exactly if the text has three characters or no star is left. -/
theorem specificity_lt_iff : specificity r.broad < specificity r.narrow ↔
    2 < r.literal.length ∨ .scalar '*' ∉ r.narrow := by
  rw [r.specificity_narrow]
  split
  · next hstar =>
    rw [or_iff_left (not_not.mpr hstar)]
    omega
  · next hstar =>
    refine iff_of_true ?_ (Or.inr hstar)
    omega

end Refinement

end Glob

/-! ## The pattern that decides -/

variable {config : Config} {path : CodeText} {settings : Settings}

/-- The pattern of the entry that decides scores no less than the others that select the path. -/
theorem Decides.specificity_le [Platform] {files : List (CodeText × Rule)}
    {entry other : CodeText × Rule} (h : Decides path files entry) (hother : other ∈ files)
    (hselects : Glob.selects path other.1 = .ok true) :
    Glob.specificity other.1 ≤ Glob.specificity entry.1 := by
  obtain ⟨-, before, after, rfl, hbefore, hafter⟩ := h
  rcases List.mem_append.mp hother with hother | hother
  · exact (hbefore other hother hselects).le
  · rcases List.mem_cons.mp hother with rfl | hother
    · exact le_rfl
    · exact hafter other hother hselects

/-- A pattern does not decide if one that selects the path scores more, or scores as much and is
declared first. -/
theorem Config.matchedPattern_ne [Platform] {front back : List (CodeText × Rule)}
    {first : CodeText × Rule} {pattern : CodeText} (hfiles : config.files = front ++ first :: back)
    (hselects : Glob.selects path first.1 = .ok true)
    (hresolve : config.resolve path = .ok settings)
    (h : Glob.specificity pattern < Glob.specificity first.1 ∨
      Glob.specificity pattern = Glob.specificity first.1 ∧ first.1 ≠ pattern ∧
        ∀ entry ∈ front, entry.1 ≠ pattern) :
    settings.matchedPattern ≠ some pattern := by
  rintro hmatched
  obtain ⟨-, ⟨rfl, -⟩ | ⟨entry, hdecides, rfl⟩⟩ := Config.resolve_eq_ok_iff_decides.mp hresolve
  · cases hmatched
  · obtain rfl : entry.1 = pattern := Option.some.inj hmatched
    have hmem : first ∈ config.files := by simp [hfiles]
    rcases h with hlt | ⟨hsame, hne, hfront⟩
    · exact (hdecides.specificity_le hmem hselects).not_gt hlt
    · -- The entry that decides stands behind the first one, which does not score less.
      obtain ⟨-, before, after, hsplit, hbefore, -⟩ := hdecides
      rw [hfiles] at hsplit
      rcases List.append_eq_append_iff.mp hsplit with
        ⟨middle, rfl, hmiddle⟩ | ⟨middle, rfl, hmiddle⟩
      · cases middle with
        | nil => exact hne (congrArg Prod.fst (List.cons.inj hmiddle).1)
        | cons head middle =>
            obtain rfl : first = head := (List.cons.inj hmiddle).1
            exact (hbefore first (by simp) hselects).ne' hsame
      · cases middle with
        | nil => exact hne (congrArg Prod.fst (List.cons.inj hmiddle).1.symm)
        | cons head middle =>
            obtain rfl : entry = head := (List.cons.inj hmiddle).1
            exact hfront entry (by simp) rfl

/-- A pattern with a text in place of a star scores by the length of the text less two more than
the pattern with the star, and by much more if that was the only star.  So it scores more exactly if
the text has three characters or no star is left, and then the pattern with the star does not
decide for a path that the other one selects; with two characters it does not if it is declared
after it. -/
theorem resolve_narrow [Platform] (r : Glob.Refinement) :
    (Glob.specificity r.narrow = Glob.specificity r.broad + r.literal.length - 2
      + if .scalar '*' ∈ r.narrow then 0 else 1000) ∧
    (Glob.specificity r.broad < Glob.specificity r.narrow ↔
      2 < r.literal.length ∨ .scalar '*' ∉ r.narrow) ∧
    ∀ (config : Config) (path : CodeText) (settings : Settings)
      (front back : List (CodeText × Rule)) (rule : Rule),
      config.files = front ++ (r.narrow, rule) :: back →
      Glob.selects path r.narrow = .ok true → config.resolve path = .ok settings →
      (2 < r.literal.length ∨ .scalar '*' ∉ r.narrow ∨
        r.literal.length = 2 ∧ ∀ entry ∈ front, entry.1 ≠ r.broad) →
      settings.matchedPattern ≠ some r.broad := by
  refine ⟨r.specificity_narrow, r.specificity_lt_iff, ?_⟩
  intro config path settings front back rule hfiles hselects hresolve hlength
  refine Config.matchedPattern_ne hfiles hselects hresolve ?_
  rw [← or_assoc] at hlength
  rcases hlength with hmore | ⟨htwo, hfront⟩
  · exact Or.inl (r.specificity_lt_iff.mpr hmore)
  · by_cases hstar : .scalar '*' ∈ r.narrow
    · refine Or.inr ⟨?_, r.narrow_ne_broad, hfront⟩
      have hscore := r.specificity_narrow
      rw [if_pos hstar, htwo] at hscore
      show Glob.specificity r.broad = Glob.specificity r.narrow
      omega
    · exact Or.inl (r.specificity_lt_iff.mpr (Or.inr hstar))

/-- Files in any directory, and in the one of a name. -/
def inDirectory (name : CodeText) (hname : name ≠ [])
    (hplain : ∀ c ∈ name, c ∉ codeText "*?/\x7b\x7d[]") : Glob.Refinement :=
  { before := [], literal := name, after := codeText "/*.json",
    isToken := by decide, ne_nil := hname, isPlain := hplain }

/-- A rule for the files in the directory of a name, and one for those in any directory. -/
def directoryConfig (name : CodeText) : Config :=
  { Config.default with
    files := [(name ++ codeText "/*.json", Rule.from 0), (codeText "*/*.json", Rule.from 5)] }

/-- The rule for any directory does not decide in one with a name of four characters. -/
theorem resolve_narrow_data :
    ∃ settings,
      (directoryConfig (codeText "data")).resolve (codeText "data/a.json") = .ok settings ∧
        settings.matchedPattern ≠ some (codeText "*/*.json") := by
  have hresolve : (directoryConfig (codeText "data")).resolve (codeText "data/a.json")
      = .ok ((directoryConfig (codeText "data")).settingsOf
        (codeText "data/*.json", Rule.from 0)) := by
    decide +kernel
  exact ⟨_, hresolve, (resolve_narrow (inDirectory (codeText "data") (by decide) (by decide))).2.2
    _ (codeText "data/a.json") _ [] [(codeText "*/*.json", Rule.from 5)] (Rule.from 0) rfl
    (by decide +kernel) hresolve (Or.inl (by decide))⟩

/-- The rule for any directory decides in one with a name of one character, although the rule for
that one selects the path as well and is declared before it. -/
theorem resolve_narrow_letter :
    ∃ r : Glob.Refinement, r.narrow = codeText "d/*.json" ∧ r.broad = codeText "*/*.json" ∧
      Glob.specificity r.narrow < Glob.specificity r.broad ∧
      Glob.selects (codeText "d/a.json") r.narrow = .ok true ∧
      (directoryConfig (codeText "d")).resolve (codeText "d/a.json")
        = .ok ((directoryConfig (codeText "d")).settingsOf (r.broad, Rule.from 5)) :=
  ⟨inDirectory (codeText "d") (by decide) (by decide), by decide, by decide, by decide,
    by decide +kernel, by decide +kernel⟩

end KeyOrder
