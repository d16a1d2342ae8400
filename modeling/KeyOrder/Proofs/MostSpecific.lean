import KeyOrder.Config.Settings
import Mathlib
/-!
# The most specific entry

The entry that decides for a path is the first one of the most specific ones that select it:
those that do are sorted by falling score, and the sorting is stable.  So an entry that does
not select the path, one that loses, and the order of entries with different scores do not
matter.
-/

namespace KeyOrder

/-! ## The first of the greatest scores -/

/-- An item has the greatest score first exactly if those before it score less and those after it
score no more, if it does not stand before them again. -/
theorem argmax_append_cons_iff {α : Type} [DecidableEq α] {score : α → ℤ} {before after : List α}
    {item : α} (hitem : item ∉ before) : (before ++ item :: after).argmax score = some item ↔
      (∀ other ∈ before, score other < score item) ∧ ∀ other ∈ after, score other ≤ score item := by
  have hindex : (before ++ item :: after).idxOf item = before.length := by
    rw [List.idxOf_append_of_notMem hitem, List.idxOf_cons_self, Nat.add_zero]
  rw [List.argmax_eq_some_iff, hindex]
  constructor
  · rintro ⟨-, hle, hfirst⟩
    refine ⟨fun other hother => lt_of_not_ge fun hge => ?_, fun other hother =>
      hle other (List.mem_append_right _ (List.mem_cons_of_mem _ hother))⟩
    have hless : (before ++ item :: after).idxOf other < before.length := by
      rw [List.idxOf_append_of_mem hother]
      exact List.idxOf_lt_length_of_mem hother
    exact (hfirst other (List.mem_append_left _ hother) hge).not_gt hless
  · rintro ⟨hbefore, hafter⟩
    refine ⟨by simp, fun other hother => ?_, fun other _ hge => ?_⟩
    · rcases List.mem_append.mp hother with hother | hother
      · exact (hbefore other hother).le
      · rcases List.mem_cons.mp hother with rfl | hother
        · exact le_rfl
        · exact hafter other hother
    · have hnot : other ∉ before := fun h => (hbefore other h).not_ge hge
      rw [List.idxOf_append_of_notMem hnot]
      exact Nat.le_add_right _ _

/-- The most specific entry is the first one of those whose pattern has the greatest score. -/
theorem mostSpecific?_eq_argmax (entries : List (CodeText × Rule)) :
    mostSpecific? entries = entries.argmax fun entry => Glob.specificity entry.1 := by
  induction entries with
  | nil => rfl
  | cons first entries ih =>
      rw [mostSpecific?, ih, List.argmax_cons]
      cases entries.argmax fun entry => Glob.specificity entry.1 with
      | none => rfl
      | some best =>
          by_cases h : Glob.specificity best.1 ≤ Glob.specificity first.1
          · exact (if_pos h).trans (if_neg h.not_gt).symm
          · exact (if_neg h).trans (if_pos (not_le.mp h)).symm

/-- The most specific entry is one of the entries, and none is more specific. -/
theorem mostSpecific?_spec {entries : List (CodeText × Rule)} {best : CodeText × Rule}
    (h : mostSpecific? entries = some best) :
    best ∈ entries ∧ ∀ entry ∈ entries, Glob.specificity entry.1 ≤ Glob.specificity best.1 := by
  rw [mostSpecific?_eq_argmax] at h
  exact ⟨List.argmax_mem h, fun entry hentry =>
    List.le_of_mem_argmax (f := fun entry : CodeText × Rule => Glob.specificity entry.1) hentry h⟩

/-- An entry is the most specific one exactly if those before it score less and those after it
score no more, if it does not stand before them again. -/
theorem mostSpecific?_append_cons_iff {before after : List (CodeText × Rule)}
    {entry : CodeText × Rule} (hentry : entry ∉ before) :
    mostSpecific? (before ++ entry :: after) = some entry ↔
      (∀ other ∈ before, Glob.specificity other.1 < Glob.specificity entry.1) ∧
        ∀ other ∈ after, Glob.specificity other.1 ≤ Glob.specificity entry.1 := by
  rw [mostSpecific?_eq_argmax, argmax_append_cons_iff hentry]

/-! ## Entries by falling score -/

section Entries

variable {path : CodeText} {files : List (CodeText × Rule)} {entry : CodeText × Rule}

/-- The most specific entry is the first one with its score, and no score is higher. -/
theorem mostSpecific?_eq_some_iff : mostSpecific? files = some entry ↔
    files.find? (fun other => Glob.specificity other.1 == Glob.specificity entry.1) = some entry ∧
      ∀ other ∈ files, Glob.specificity other.1 ≤ Glob.specificity entry.1 := by
  rw [List.find?_eq_some_iff_append]
  constructor
  · intro h
    obtain ⟨hmem, hle⟩ := mostSpecific?_spec h
    obtain ⟨before, after, rfl, hfirst⟩ := List.eq_append_cons_of_mem hmem
    have hbefore := ((mostSpecific?_append_cons_iff hfirst).mp h).1
    exact ⟨⟨beq_self_eq_true _, before, after, rfl,
      fun other hother => by simpa using (hbefore other hother).ne⟩, hle⟩
  · rintro ⟨⟨-, before, after, rfl, hne⟩, hle⟩
    have hbefore : ∀ other ∈ before, Glob.specificity other.1 < Glob.specificity entry.1 :=
      fun other hother => lt_of_le_of_ne (hle other (List.mem_append_left _ hother))
        (by simpa using hne other hother)
    refine (mostSpecific?_append_cons_iff fun h => lt_irrefl _ (hbefore _ h)).mpr ⟨hbefore, ?_⟩
    exact fun other hother =>
      hle other (List.mem_append_right _ (List.mem_cons_of_mem _ hother))

/-- Whether an entry selects a path and has a score. -/
def selectsWith (path : CodeText) (score : Int) (entry : CodeText × Rule) : Bool :=
  Glob.matchesPattern path entry.1 && Glob.specificity entry.1 == score

/-- Only where no pattern selects the path no entry decides. -/
theorem ruleFor?_eq_none_iff : ruleFor? path files = none ↔
    ∀ entry ∈ files, Glob.matchesPattern path entry.1 = false := by
  rw [ruleFor?, mostSpecific?_eq_argmax, List.argmax_eq_none, List.filter_eq_nil_iff]
  simp only [Bool.not_eq_true]

/-- The entry that decides is the first one with its score that selects the path, and none that
does scores more. -/
theorem ruleFor?_eq_some_iff : ruleFor? path files = some entry ↔
    files.find? (selectsWith path (Glob.specificity entry.1)) = some entry ∧
      ∀ other ∈ files, Glob.matchesPattern path other.1 = true →
        Glob.specificity other.1 ≤ Glob.specificity entry.1 := by
  rw [ruleFor?, mostSpecific?_eq_some_iff, List.find?_filter]
  refine and_congr (Eq.congr_left ?_) ?_
  · congr 1
    funext other
    rw [selectsWith, Bool.decide_and, Bool.decide_eq_true, Bool.decide_eq_true]
  · simp only [List.mem_filter, and_imp]

end Entries

end KeyOrder
