import KeyOrder.Proofs.BraceChoices
import KeyOrder.Proofs.ExactPaths
/-!
# The settings of paths

The settings of a path are those of the entry that decides for it, or those for what no
pattern selects.  Before that it must be told of every pattern whether it selects the path.
So entries that do not select the path, entries that lose and the order of entries with
different scores do not change what is found.
-/

namespace KeyOrder

variable {path : CodeText} {files : List (CodeText × Rule)} {entry : CodeText × Rule}

/-! ## Settings -/

/-- It is told of a pattern whether it selects a path if that can be told. -/
theorem Glob.selects_eq_ok_iff [Platform] {path pattern : CodeText} {answer : Bool} :
    selects path pattern = .ok answer ↔
      isDecided path pattern = true ∧ matchesPattern path pattern = answer := by
  unfold selects
  cases isDecided path pattern <;> simp

/-- The settings for what no pattern selects. -/
def Config.unmatched (config : Config) : Settings :=
  { sortFrom := config.sortFrom, ignored := false, sortOrder := none, matchedPattern := none }

/-- An entry decides for a path if its pattern selects the path, those before it that do score less
and those after it that do score no more. -/
def Decides [Platform] (path : CodeText) (files : List (CodeText × Rule))
    (entry : CodeText × Rule) : Prop :=
  Glob.selects path entry.1 = .ok true ∧ ∃ before after, files = before ++ entry :: after ∧
    (∀ other ∈ before, Glob.selects path other.1 = .ok true →
      Glob.specificity other.1 < Glob.specificity entry.1) ∧
    ∀ other ∈ after, Glob.selects path other.1 = .ok true →
      Glob.specificity other.1 ≤ Glob.specificity entry.1

/-- Where it can be told of every pattern whether it selects the path, the entry that is found is
the one that decides. -/
theorem ruleFor?_eq_some_iff_decides [Platform]
    (hdecided : ∀ entry ∈ files, Glob.isDecided path entry.1 = true) :
    ruleFor? path files = some entry ↔ Decides path files entry := by
  have hselects : ∀ other ∈ files, (Glob.selects path other.1 = .ok true ↔
      Glob.matchesPattern path other.1 = true) := fun other hother => by
    rw [Glob.selects_eq_ok_iff, and_iff_right (hdecided other hother)]
  rw [ruleFor?_eq_some_iff, List.find?_eq_some_iff_append, Decides]
  constructor
  · rintro ⟨⟨hentry, before, after, rfl, hbefore⟩, hle⟩
    refine ⟨(hselects entry (by simp)).mpr (Bool.and_eq_true_iff.mp hentry).1,
      before, after, rfl, fun other hother hselected => ?_, fun other hother hselected => ?_⟩
    · have hmem : other ∈ before ++ entry :: after := List.mem_append_left _ hother
      have hmatches := (hselects other hmem).mp hselected
      refine lt_of_le_of_ne (hle other hmem hmatches) ?_
      simpa [selectsWith, hmatches] using hbefore other hother
    · have hmem : other ∈ before ++ entry :: after :=
        List.mem_append_right _ (List.mem_cons_of_mem _ hother)
      exact hle other hmem ((hselects other hmem).mp hselected)
  · rintro ⟨hentry, before, after, rfl, hbefore, hafter⟩
    have hmatches := (hselects entry (by simp)).mp hentry
    have hlt : ∀ other ∈ before, Glob.matchesPattern path other.1 = true →
        Glob.specificity other.1 < Glob.specificity entry.1 := fun other hother h =>
      hbefore other hother ((hselects other (List.mem_append_left _ hother)).mpr h)
    refine ⟨⟨by simp [selectsWith, hmatches], before, after, rfl, fun other hother => ?_⟩,
      fun other hother h => ?_⟩
    · by_cases h : Glob.matchesPattern path other.1 = true
      · simp [selectsWith, (hlt other hother h).ne]
      · simp [selectsWith, h]
    · rcases List.mem_append.mp hother with hbefore | hafterward
      · exact (hlt other hbefore h).le
      · rcases List.mem_cons.mp hafterward with rfl | hafterward
        · exact le_rfl
        · exact hafter other hafterward ((hselects other hother).mpr h)

/-- The settings of a path are those of the entry that decides. -/
theorem Config.settingsFor_eq (config : Config) (path : CodeText) :
    config.settingsFor path
      = ((ruleFor? path config.files).map config.settingsOf).getD config.unmatched := by
  unfold settingsFor
  cases ruleFor? path config.files <;> rfl

/-- The settings of a path are found where it can be told of every pattern whether it selects the
path: they are those for what no pattern selects if none does, and else those of the entry that
decides. -/
theorem Config.resolve_eq_ok_iff_decides [Platform] {config : Config} {path : CodeText}
    {settings : Settings} : config.resolve path = .ok settings ↔
      (∀ entry ∈ config.files, ∃ answer, Glob.selects path entry.1 = .ok answer) ∧
        ((settings = config.unmatched ∧
            ∀ entry ∈ config.files, Glob.selects path entry.1 = .ok false) ∨
          ∃ entry, Decides path config.files entry ∧ settings = config.settingsOf entry) := by
  have hselects : (∀ entry ∈ config.files, ∃ answer, Glob.selects path entry.1 = .ok answer) ↔
      ∀ entry ∈ config.files, Glob.isDecided path entry.1 = true := by
    simp only [Glob.selects_eq_ok_iff, exists_and_left, exists_eq', and_true]
  rw [Config.resolve_eq_ok_iff, hselects]
  refine and_congr_right fun hdecided => ?_
  rw [Config.settingsFor_eq]
  simp only [← ruleFor?_eq_some_iff_decides hdecided]
  have hnone : (∀ entry ∈ config.files, Glob.selects path entry.1 = .ok false) ↔
      ruleFor? path config.files = none := by
    rw [ruleFor?_eq_none_iff]
    exact forall₂_congr fun entry hentry => by
      rw [Glob.selects_eq_ok_iff, and_iff_right (hdecided entry hentry)]
  rw [hnone]
  cases ruleFor? path config.files with
  | none => simp [eq_comm]
  | some entry => simp [eq_comm]

end KeyOrder
