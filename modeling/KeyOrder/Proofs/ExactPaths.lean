import KeyOrder.Proofs.MostSpecific
import KeyOrder.Proofs.Scores
/-!
# Patterns beside the path itself

A path without stars that is a pattern itself decides for itself unless a pattern without
stars that selects it is longer, or as long and declared before it.  Patterns with stars
do not matter as long as their scores stay below that of the path.
-/

namespace KeyOrder

/-! ## The entry of the path itself -/

/-- What the rule of a pattern sets, and the configuration for the rest. -/
def Config.settingsOf (config : Config) (entry : CodeText × Rule) : Settings :=
  { sortFrom := entry.2.sortFrom.getD config.sortFrom
    ignored := entry.2.ignored
    sortOrder := entry.2.sortOrder
    matchedPattern := some entry.1 }

/-- The settings are those of an entry exactly if it decides, where no pattern has two entries. -/
theorem Config.settingsFor_eq_settingsOf_iff {config : Config} {path : CodeText}
    {entry : CodeText × Rule} (hentry : entry ∈ config.files)
    (hkeys : (config.files.map Prod.fst).Nodup) :
    config.settingsFor path = config.settingsOf entry ↔
      ruleFor? path config.files = some entry := by
  unfold settingsFor
  constructor
  · intro h
    split at h
    · exact absurd (congrArg Settings.matchedPattern h) (Option.some_ne_none _).symm
    · next pattern rule hrule =>
      have hpattern : pattern = entry.1 :=
        Option.some.inj (congrArg Settings.matchedPattern h)
      have hmem := (List.mem_filter.mp (mostSpecific?_spec hrule).1).1
      rw [hrule, List.inj_on_of_nodup_map hkeys hmem hentry hpattern]
  · intro h
    rw [h]
    rfl

/-- The settings of a path are found if it can be told of every pattern whether it selects it. -/
theorem Config.resolve_eq_ok_iff [Platform] {config : Config} {path : CodeText}
    {settings : Settings} : config.resolve path = .ok settings ↔
      (∀ entry ∈ config.files, Glob.isDecided path entry.1 = true) ∧
        config.settingsFor path = settings := by
  rw [← List.all_eq_true, Config.resolve]
  split
  · next hall => rw [Except.ok.injEq, and_iff_right hall]
  · next hall => exact iff_of_false nofun fun h => hall h.1

/-- A path without stars that is a pattern itself has its own settings exactly if it can be told of
every pattern whether it selects the path, and the patterns without stars that do are shorter than
the path, or as long if they are declared after it.  Patterns with stars do not matter if they are
short, or if they have no choice and the path is not long. -/
theorem Config.resolve_eq_settingsOf_iff [Platform] {config : Config} {path : CodeText}
    {rule : Rule} {before after : List (CodeText × Rule)}
    (hfiles : config.files = before ++ (path, rule) :: after)
    (hkeys : (config.files.map Prod.fst).Nodup) (hpath : .scalar '*' ∉ path)
    (hstars : ∀ entry ∈ config.files, .scalar '*' ∈ entry.1 →
      entry.1.length ≤ 90 ∨ Glob.firstChoice? entry.1 = none ∧ path.length ≤ 494) :
    config.resolve path = .ok (config.settingsOf (path, rule)) ↔
      (∀ entry ∈ config.files, Glob.isDecided path entry.1 = true) ∧
        (∀ entry ∈ before, .scalar '*' ∉ entry.1 → Glob.matchesPattern path entry.1 = true →
          entry.1.length < path.length) ∧
        ∀ entry ∈ after, .scalar '*' ∉ entry.1 → Glob.matchesPattern path entry.1 = true →
          entry.1.length ≤ path.length := by
  have hmem : (path, rule) ∈ config.files := by
    rw [hfiles]
    exact List.mem_append_right _ List.mem_cons_self
  have hself : Glob.matchesPattern path path = true := by
    rw [Glob.matchesPattern, beq_self_eq_true, Bool.true_or]
  have honce : (path, rule) ∉ before.filter fun entry => Glob.matchesPattern path entry.1 := by
    rw [hfiles, List.map_append, List.map_cons, List.nodup_append] at hkeys
    intro h
    exact hkeys.2.2 path (List.mem_map_of_mem (List.mem_filter.mp h).1) path List.mem_cons_self rfl
  have hselecting : config.files.filter (fun entry => Glob.matchesPattern path entry.1)
      = before.filter (fun entry => Glob.matchesPattern path entry.1) ++ (path, rule) ::
        after.filter fun entry => Glob.matchesPattern path entry.1 := by
    rw [hfiles, List.filter_append, List.filter_cons, if_pos hself]
  rw [Config.resolve_eq_ok_iff, Config.settingsFor_eq_settingsOf_iff hmem hkeys, ruleFor?,
    hselecting, mostSpecific?_append_cons_iff honce]
  simp only [List.mem_filter, and_imp]
  refine and_congr_right fun _ => and_congr ?_ ?_
  · exact forall₂_congr fun entry hentry => (Glob.specificity_of_selecting hpath
      (hstars entry (hfiles ▸ List.mem_append_left _ hentry))).1
  · exact forall₂_congr fun entry hentry => (Glob.specificity_of_selecting hpath
      (hstars entry (hfiles ▸ List.mem_append_right _ (List.mem_cons_of_mem _ hentry)))).2

/-- A rule that sets a depth. -/
def Rule.from (depth : Nat) : Rule :=
  { Rule.empty with sortFrom := some depth }

/-- A path after a pattern with stars and before a pattern that is as long. -/
def pathFirstConfig : Config :=
  { Config.default with
    files := [(codeText "**/*.json", Rule.from 2), (codeText "a.json", Rule.from 0),
      (codeText "?.json", Rule.from 5)] }

/-- The path has its own settings. -/
theorem resolve_pathFirstConfig :
    pathFirstConfig.resolve (codeText "a.json")
      = .ok (pathFirstConfig.settingsOf (codeText "a.json", Rule.from 0)) := by
  have hfiles : pathFirstConfig.files = [(codeText "**/*.json", Rule.from 2)] ++
      (codeText "a.json", Rule.from 0) :: [(codeText "?.json", Rule.from 5)] := rfl
  refine (Config.resolve_eq_settingsOf_iff hfiles (by decide) (by decide) ?_).mpr ⟨?_, ?_, ?_⟩
  · exact fun entry hentry _ => Or.inl (by revert entry; decide)
  · decide +kernel
  · exact fun entry hentry hstar => absurd (by revert entry; decide) hstar
  · intro entry hentry _ _
    obtain rfl := List.mem_singleton.mp hentry
    decide

/-- A path after a pattern that is as long. -/
def pathLastConfig : Config :=
  { Config.default with
    files := [(codeText "?.json", Rule.from 5), (codeText "a.json", Rule.from 0)] }

/-- The path has the settings of the pattern before it, although it is a pattern itself and has no
character that is special in patterns. -/
theorem resolve_pathLastConfig :
    (codeText "a.json", Rule.from 0) ∈ pathLastConfig.files ∧
      (∀ c ∈ codeText "a.json", c ∉ codeText "*?[]\x7b\x7d") ∧
      pathLastConfig.resolve (codeText "a.json")
        = .ok (pathLastConfig.settingsOf (codeText "?.json", Rule.from 5)) := by
  refine ⟨by decide, by decide, ?_⟩
  have hother : Glob.matchesPattern (codeText "a.json") (codeText "?.json") = true := by
    rw [Glob.matchesPattern,
      Glob.expandBraces_of_none (by simp [Glob.firstChoice?, CodeText.ofText])]
    decide
  have hself : Glob.matchesPattern (codeText "a.json") (codeText "a.json") = true := by
    rw [Glob.matchesPattern, beq_self_eq_true, Bool.true_or]
  have hdecided : ∀ entry ∈ pathLastConfig.files,
      Glob.isDecided (codeText "a.json") entry.1 = true := by
    decide +kernel
  refine Config.resolve_eq_ok_iff.mpr ⟨hdecided, ?_⟩
  rw [Config.settingsFor, ruleFor?, pathLastConfig]
  simp only [List.filter_cons, hother, hself, if_true, List.filter_nil]
  rfl

end KeyOrder
