import KeyOrder.Proofs.IgnoredNames
/-!
# Targets of several patterns

A path is a target if one of the patterns supplies it: an alternative of the pattern is the
path itself, or it finds the path and nothing ignores it.  What one alternative turns down
another one may still supply.  So the targets of several patterns are the union of the
targets of each, in the order by code; neither the order of the patterns nor a copy of one
of them changes anything, and more ignored patterns only take targets away.
-/

namespace KeyOrder

/-! ## Steps along a list -/

section Steps

variable {ε α β : Type} {f : α → Except ε (List β)}

/-- Steps along a list have results if each of them has one. -/
theorem exists_mapM_iff {xs : List α} :
    (∃ ys, xs.mapM f = .ok ys) ↔ ∀ x ∈ xs, ∃ y, f x = .ok y := by
  induction xs with
  | nil => exact iff_of_true ⟨[], rfl⟩ (List.forall_mem_nil _)
  | cons x xs ih =>
      rw [List.forall_mem_cons, ← ih]
      constructor
      · rintro ⟨ys, h⟩
        rw [List.mapM_cons] at h
        obtain ⟨y, hy, h⟩ := bind_eq_ok_iff.mp h
        obtain ⟨rest, hrest, -⟩ := bind_eq_ok_iff.mp h
        exact ⟨⟨y, hy⟩, rest, hrest⟩
      · rintro ⟨⟨y, hy⟩, rest, hrest⟩
        refine ⟨y :: rest, ?_⟩
        rw [List.mapM_cons, hy, hrest]
        rfl

/-- What steps along a list find is what one of them finds. -/
theorem mem_flatten_mapM_iff {xs : List α} {ys : List (List β)} (h : xs.mapM f = .ok ys) {y : β} :
    y ∈ ys.flatten ↔ ∃ x ∈ xs, ∃ found, f x = .ok found ∧ y ∈ found := by
  refine ⟨fun hy => exists_of_mem_mapM h hy, ?_⟩
  rintro ⟨x, hx, found, hfound, hy⟩
  induction xs generalizing ys with
  | nil => exact absurd hx List.not_mem_nil
  | cons first xs ih =>
      rw [List.mapM_cons] at h
      obtain ⟨part, hpart, h⟩ := bind_eq_ok_iff.mp h
      obtain ⟨parts, hparts, h⟩ := bind_eq_ok_iff.mp h
      obtain rfl := Except.ok.inj h
      rw [List.flatten_cons, List.mem_append]
      rcases List.mem_cons.mp hx with rfl | hx
      · obtain rfl := Except.ok.inj (hpart.symm.trans hfound)
        exact Or.inl hy
      · exact Or.inr (ih hparts hx)

end Steps

/-! ## Ignored paths -/

/-- A path is not ignored if none of the patterns alone ignores it. -/
theorem isIgnored_eq_false_iff [Platform] {path : CodeText} {patterns : List CodeText} :
    isIgnored path patterns = .ok false ↔
      ∀ pattern ∈ patterns, isIgnored path [pattern] = .ok false := by
  induction patterns with
  | nil => exact iff_of_true rfl (List.forall_mem_nil _)
  | cons pattern patterns ih =>
      rw [List.forall_mem_cons, ← ih, isIgnored, isIgnored]
      cases Glob.selects path pattern with
      | error fault => simp
      | ok selected =>
          dsimp only
          split
          · simp
          · simp [isIgnored]

/-! ## What a pattern supplies -/

section Store

variable {σ : Type} [FileStore σ] {store : σ} {ignored : List CodeText}
  {pattern alternative path : CodeText}

/-- The patterns that leave files out: those that are given, and those of the ignore file where it
counts. -/
def leavingOut (store : σ) (ignored : List CodeText) (useIgnoreFile : Bool) : List CodeText :=
  ignored ++ if useIgnoreFile then storeIgnoreGlobs store else []

/-- An alternative supplies a path that it is, if there are no others or there is something under
the path; and one that it finds and that none of the patterns ignores. -/
inductive Supplies [Platform] (store : σ) (ignored : List CodeText) (several : Prop) :
    CodeText → CodeText → Prop
  | plain {path : CodeText} (hplain : Glob.isGlob path = false)
      (hthere : several → FileStore.isThere store path = .ok true) :
      Supplies store ignored several path path
  | found {alternative path : CodeText} {found : List CodeText}
      (hglob : Glob.isGlob alternative = true)
      (hfound : FileStore.glob store alternative = .ok found) (hpath : path ∈ found)
      (hkept : ∀ pattern ∈ ignored, isIgnored path [pattern] = .ok false) :
      Supplies store ignored several alternative path

/-- A pattern supplies what one of its alternatives supplies. -/
def SuppliedBy [Platform] (store : σ) (ignored : List CodeText) (pattern path : CodeText) : Prop :=
  ∃ alternative ∈ Glob.expandBraces pattern,
    Supplies store ignored (1 < (Glob.expandBraces pattern).length) alternative path

/-- Fewer ignored patterns leave out less. -/
theorem Supplies.anti [Platform] {fewer : List CodeText} {several : Prop}
    (h : Supplies store ignored several alternative path) (hfewer : fewer ⊆ ignored) :
    Supplies store fewer several alternative path := by
  cases h with
  | plain hplain hthere => exact .plain hplain hthere
  | found hglob hfound hpath hkept =>
      exact .found hglob hfound hpath fun pattern hpattern => hkept pattern (hfewer hpattern)

/-- A plain path without braces supplies itself, whether there is something under it or not. -/
theorem suppliedBy_self [Platform] (hplain : Glob.isGlob path = false)
    (hbrace : .scalar '{' ∉ path) : SuppliedBy store ignored path path := by
  have hself := Glob.expandBraces_of_none (firstChoice?_of_not_mem hbrace)
  refine ⟨path, ?_, .plain hplain fun hseveral => ?_⟩
  · rw [hself]
    exact List.mem_singleton_self path
  · rw [hself] at hseveral
    exact absurd hseveral (Nat.lt_irrefl 1)

/-- The store and the ignored patterns answer what has to be known about an alternative: which files
it finds and which of them are ignored, or, if there are others, whether there is something under
it. -/
def IsAnswered [Platform] (store : σ) (ignored : List CodeText) (several : Prop)
    (alternative : CodeText) : Prop :=
  if Glob.isGlob alternative then
    ∃ found, FileStore.glob store alternative = .ok found ∧
      ∀ path ∈ found, ∃ leftOut, isIgnored path ignored = .ok leftOut
  else several → ∃ there, FileStore.isThere store alternative = .ok there

/-- An alternative has targets if what has to be known about it is answered. -/
theorem exists_alternativeTargets_iff [Platform] {several : Bool} :
    (∃ files, alternativeTargets store ignored several alternative = .ok files) ↔
      IsAnswered store ignored (several = true) alternative := by
  unfold alternativeTargets IsAnswered
  split
  · constructor
    · rintro ⟨files, h⟩
      obtain ⟨found, hfound, h⟩ := bind_eq_ok_iff.mp h
      obtain ⟨htold, -⟩ := mem_of_unignored (mapError_eq_ok_iff.mp h)
      exact ⟨found, mapError_eq_ok_iff.mp hfound, htold⟩
    · rintro ⟨found, hfound, htold⟩
      obtain ⟨files, hfiles⟩ := exists_unignored htold
      exact ⟨files, bind_eq_ok_iff.mpr
        ⟨found, mapError_eq_ok_iff.mpr hfound, mapError_eq_ok_iff.mpr hfiles⟩⟩
  · cases several with
    | false =>
        rw [if_neg Bool.false_ne_true]
        exact iff_of_true ⟨_, rfl⟩ fun h => absurd h Bool.false_ne_true
    | true =>
        rw [if_pos rfl]
        constructor
        · rintro ⟨files, h⟩ -
          obtain ⟨there, hthere, -⟩ := bind_eq_ok_iff.mp h
          exact ⟨there, mapError_eq_ok_iff.mp hthere⟩
        · intro h
          obtain ⟨there, hthere⟩ := h rfl
          exact ⟨_, bind_eq_ok_iff.mpr ⟨there, mapError_eq_ok_iff.mpr hthere, rfl⟩⟩

/-- An alternative with a star supplies what it finds and no pattern ignores. -/
theorem supplies_iff_of_isGlob [Platform] {several : Prop} (hglob : Glob.isGlob alternative = true)
    {found : List CodeText} (hfound : FileStore.glob store alternative = .ok found) :
    Supplies store ignored several alternative path ↔
      path ∈ found ∧ ∀ pattern ∈ ignored, isIgnored path [pattern] = .ok false := by
  constructor
  · intro hsupplies
    cases hsupplies with
    | plain hplain _ =>
        rw [hplain] at hglob
        cases hglob
    | found _ hfound' hpath hkept =>
        obtain rfl := Except.ok.inj (hfound.symm.trans hfound')
        exact ⟨hpath, hkept⟩
  · rintro ⟨hpath, hkept⟩
    exact .found hglob hfound hpath hkept

/-- A plain alternative supplies itself, if there are no others or there is something under it. -/
theorem supplies_iff_of_plain [Platform] {several : Prop}
    (hplain : Glob.isGlob alternative = false) : Supplies store ignored several alternative path ↔
      path = alternative ∧ (several → FileStore.isThere store path = .ok true) := by
  constructor
  · intro hsupplies
    cases hsupplies with
    | plain _ hthere => exact ⟨rfl, hthere⟩
    | found hglob _ _ _ =>
        rw [hplain] at hglob
        cases hglob
  · rintro ⟨rfl, hthere⟩
    exact .plain hplain hthere

/-- The targets of an alternative are the paths that it supplies. -/
theorem mem_alternativeTargets_iff [Platform] {several : Bool} {files : List CodeText}
    (h : alternativeTargets store ignored several alternative = .ok files) :
    path ∈ files ↔ Supplies store ignored (several = true) alternative path := by
  unfold alternativeTargets at h
  split at h
  · next hglob =>
    obtain ⟨found, hfound, h⟩ := bind_eq_ok_iff.mp h
    obtain ⟨-, hkept⟩ := mem_of_unignored (mapError_eq_ok_iff.mp h)
    rw [hkept, isIgnored_eq_false_iff,
      supplies_iff_of_isGlob hglob (mapError_eq_ok_iff.mp hfound)]
  · next hplain =>
    rw [supplies_iff_of_plain (Bool.eq_false_of_not_eq_true hplain)]
    cases several with
    | false =>
        rw [if_neg Bool.false_ne_true] at h
        obtain rfl := Except.ok.inj h
        rw [List.mem_singleton, and_iff_left fun h => absurd h Bool.false_ne_true]
    | true =>
        rw [if_pos rfl] at h
        obtain ⟨there, hthere, h⟩ := bind_eq_ok_iff.mp h
        have hthere := mapError_eq_ok_iff.mp hthere
        obtain rfl := Except.ok.inj h
        cases there with
        | false =>
            rw [if_neg Bool.false_ne_true]
            refine iff_of_false List.not_mem_nil ?_
            rintro ⟨rfl, hyes⟩
            rw [hyes rfl] at hthere
            cases hthere
        | true =>
            rw [if_pos rfl, List.mem_singleton]
            refine ⟨?_, fun h => h.1⟩
            rintro rfl
            exact ⟨rfl, fun _ => hthere⟩

/-- A pattern can be expanded, and what has to be known about its alternatives is answered. -/
structure HasTargets [Platform] (store : σ) (ignored : List CodeText) (pattern : CodeText) :
    Prop where
  expandable : Glob.isExpandable pattern = true
  answered : ∀ alternative ∈ Glob.expandBraces pattern,
    IsAnswered store ignored (1 < (Glob.expandBraces pattern).length) alternative

/-- The targets of a pattern come from its alternatives, if it can be expanded. -/
theorem patternTargets_eq_ok_iff [Platform] {files : List CodeText} :
    patternTargets store ignored pattern = .ok files ↔
      Glob.isExpandable pattern = true ∧ ∃ parts,
        (Glob.expandBraces pattern).mapM (alternativeTargets store ignored
          (1 < (Glob.expandBraces pattern).length)) = .ok parts ∧ parts.flatten = files := by
  constructor
  · intro h
    obtain ⟨texts, htexts, h⟩ := bind_eq_ok_iff.mp h
    obtain ⟨hexpandable, rfl⟩ := alternatives_eq_ok_iff.mp (mapError_eq_ok_iff.mp htexts)
    obtain ⟨parts, hparts, h⟩ := bind_eq_ok_iff.mp h
    exact ⟨hexpandable, parts, hparts, Except.ok.inj h⟩
  · rintro ⟨hexpandable, parts, hparts, rfl⟩
    have htexts := alternatives_eq_ok_iff.mpr ⟨hexpandable, rfl⟩
    exact bind_eq_ok_iff.mpr ⟨_, mapError_eq_ok_iff.mpr htexts,
      bind_eq_ok_iff.mpr ⟨parts, hparts, rfl⟩⟩

/-- A pattern has targets if it can be expanded and what has to be known is answered. -/
theorem exists_patternTargets_iff [Platform] :
    (∃ files, patternTargets store ignored pattern = .ok files) ↔
      HasTargets store ignored pattern := by
  have hanswered : (∃ parts, (Glob.expandBraces pattern).mapM (alternativeTargets store ignored
        (1 < (Glob.expandBraces pattern).length)) = .ok parts) ↔
      ∀ alternative ∈ Glob.expandBraces pattern,
        IsAnswered store ignored (1 < (Glob.expandBraces pattern).length) alternative := by
    rw [exists_mapM_iff]
    simp only [exists_alternativeTargets_iff, decide_eq_true_eq]
  constructor
  · rintro ⟨files, h⟩
    obtain ⟨hexpandable, parts, hparts, -⟩ := patternTargets_eq_ok_iff.mp h
    exact ⟨hexpandable, hanswered.mp ⟨parts, hparts⟩⟩
  · intro h
    obtain ⟨parts, hparts⟩ := hanswered.mpr h.answered
    exact ⟨_, patternTargets_eq_ok_iff.mpr ⟨h.expandable, parts, hparts, rfl⟩⟩

/-- The targets of a pattern are the paths that it supplies. -/
theorem mem_patternTargets_iff [Platform] {files : List CodeText}
    (h : patternTargets store ignored pattern = .ok files) :
    path ∈ files ↔ SuppliedBy store ignored pattern path := by
  obtain ⟨-, parts, hparts, rfl⟩ := patternTargets_eq_ok_iff.mp h
  rw [mem_flatten_mapM_iff hparts]
  have hall := exists_mapM_iff.mp ⟨parts, hparts⟩
  constructor
  · rintro ⟨alternative, hmem, found, hfound, hpath⟩
    have hsupplies := (mem_alternativeTargets_iff hfound).mp hpath
    rw [decide_eq_true_eq] at hsupplies
    exact ⟨alternative, hmem, hsupplies⟩
  · rintro ⟨alternative, hmem, hsupplies⟩
    obtain ⟨found, hfound⟩ := hall alternative hmem
    refine ⟨alternative, hmem, found, hfound, (mem_alternativeTargets_iff hfound).mpr ?_⟩
    rwa [decide_eq_true_eq]

/-! ## Targets of several patterns -/

variable {patterns more : List CodeText} {useIgnoreFile : Bool} {files : List CodeText}

/-- Patterns have targets if each of them has. -/
theorem exists_targets_iff [Platform] :
    (∃ files, targets store patterns ignored useIgnoreFile = .ok files) ↔
      ∀ pattern ∈ patterns, HasTargets store (leavingOut store ignored useIgnoreFile) pattern := by
  have hsteps : (∃ found,
      patterns.mapM (patternTargets store (leavingOut store ignored useIgnoreFile)) = .ok found) ↔
      ∀ pattern ∈ patterns, HasTargets store (leavingOut store ignored useIgnoreFile) pattern := by
    rw [exists_mapM_iff]
    simp only [exists_patternTargets_iff]
  rw [← hsteps]
  constructor
  · rintro ⟨files, h⟩
    obtain ⟨found, hfound, -⟩ := map_eq_ok_iff.mp h
    exact ⟨found, hfound⟩
  · rintro ⟨found, hfound⟩
    exact ⟨_, map_eq_ok_iff.mpr ⟨found, hfound, rfl⟩⟩

/-- Targets are the paths that one of the patterns supplies. -/
theorem mem_targets_iff [Platform] (h : targets store patterns ignored useIgnoreFile = .ok files) :
    path ∈ files ↔ ∃ pattern ∈ patterns,
      SuppliedBy store (leavingOut store ignored useIgnoreFile) pattern path := by
  obtain ⟨found, hfound, rfl⟩ := map_eq_ok_iff.mp h
  change patterns.mapM (patternTargets store (leavingOut store ignored useIgnoreFile)) = .ok found
    at hfound
  rw [mem_sortedSet, mem_flatten_mapM_iff hfound]
  have hall := exists_mapM_iff.mp ⟨found, hfound⟩
  constructor
  · rintro ⟨pattern, hmem, part, hpart, hpath⟩
    exact ⟨pattern, hmem, (mem_patternTargets_iff hpart).mp hpath⟩
  · rintro ⟨pattern, hmem, hsupplied⟩
    obtain ⟨part, hpart⟩ := hall pattern hmem
    exact ⟨pattern, hmem, part, hpart, (mem_patternTargets_iff hpart).mpr hsupplied⟩

/-- Paths in strict order are the targets if they are the paths that the patterns supply. -/
theorem targets_eq_ok_iff [Platform] : targets store patterns ignored useIgnoreFile = .ok files ↔
    (∀ pattern ∈ patterns, HasTargets store (leavingOut store ignored useIgnoreFile) pattern) ∧
      files.Pairwise CodeText.Before ∧
      ∀ path, path ∈ files ↔ ∃ pattern ∈ patterns,
        SuppliedBy store (leavingOut store ignored useIgnoreFile) pattern path := by
  constructor
  · intro h
    exact ⟨exists_targets_iff.mp ⟨files, h⟩, pairwise_targets h, fun path => mem_targets_iff h⟩
  · rintro ⟨hall, horder, hmem⟩
    obtain ⟨files', h⟩ := exists_targets_iff.mpr hall
    rw [h, eq_of_pairwise_before horder (pairwise_targets h) fun path => ?_]
    rw [hmem, mem_targets_iff h]

instance (s t : CodeText) : Decidable (s.Before t) :=
  inferInstanceAs (Decidable (s.codes < t.codes))

/-- Paths in strict order that are found step by step are the targets. -/
theorem targets_of_mapM [Platform] (found : List (List CodeText))
    (h : patterns.mapM (patternTargets store (leavingOut store ignored useIgnoreFile)) = .ok found)
    (horder : files.Pairwise CodeText.Before) (hfound : found.flatten ⊆ files)
    (hfiles : files ⊆ found.flatten) :
    targets store patterns ignored useIgnoreFile = .ok files := by
  refine map_eq_ok_iff.mpr ⟨found, h, ?_⟩
  refine eq_of_pairwise_before (pairwise_sortedSet _) horder fun path => ?_
  rw [mem_sortedSet]
  exact ⟨fun h => hfound h, fun h => hfiles h⟩

end Store

/-- The targets of patterns are the paths in strict order that one of them supplies; there are
targets exactly if each pattern can be expanded and what has to be known is answered.  More patterns
have the targets of the ones and of the others, and neither order nor copies matter.  With more
ignored patterns there are no further targets, and a plain path without braces stays one. -/
theorem targets_union [Platform] {σ : Type} [FileStore σ] (store : σ)
    (patterns ignored : List CodeText) (useIgnoreFile : Bool) :
    (∀ files, targets store patterns ignored useIgnoreFile = .ok files ↔
      (∀ pattern ∈ patterns, HasTargets store (leavingOut store ignored useIgnoreFile) pattern) ∧
        files.Pairwise CodeText.Before ∧
        ∀ path, path ∈ files ↔ ∃ pattern ∈ patterns,
          SuppliedBy store (leavingOut store ignored useIgnoreFile) pattern path) ∧
    (∀ more files, targets store (patterns ++ more) ignored useIgnoreFile = .ok files ↔
      ∃ first second, targets store patterns ignored useIgnoreFile = .ok first ∧
        targets store more ignored useIgnoreFile = .ok second ∧
        files.Pairwise CodeText.Before ∧ ∀ path, path ∈ files ↔ path ∈ first ∨ path ∈ second) ∧
    (∀ patterns', (∀ pattern, pattern ∈ patterns' ↔ pattern ∈ patterns) →
      ∀ files, targets store patterns' ignored useIgnoreFile = .ok files ↔
        targets store patterns ignored useIgnoreFile = .ok files) ∧
    ∀ ignored' files files', ignored ⊆ ignored' →
      targets store patterns ignored useIgnoreFile = .ok files →
      targets store patterns ignored' useIgnoreFile = .ok files' →
      files' ⊆ files ∧
        ∀ path ∈ patterns, Glob.isGlob path = false → .scalar '{' ∉ path → path ∈ files' := by
  refine ⟨fun files => targets_eq_ok_iff, ?_, ?_, ?_⟩
  · intro more files
    rw [targets_eq_ok_iff, List.forall_mem_append]
    simp only [List.mem_append, or_and_right, exists_or]
    constructor
    · rintro ⟨⟨hpatterns, hmore⟩, horder, hmem⟩
      obtain ⟨first, hfirst⟩ := exists_targets_iff.mpr hpatterns
      obtain ⟨second, hsecond⟩ := exists_targets_iff.mpr hmore
      refine ⟨first, second, hfirst, hsecond, horder, fun path => ?_⟩
      rw [hmem, mem_targets_iff hfirst, mem_targets_iff hsecond]
    · rintro ⟨first, second, hfirst, hsecond, horder, hmem⟩
      refine ⟨⟨exists_targets_iff.mp ⟨first, hfirst⟩, exists_targets_iff.mp ⟨second, hsecond⟩⟩,
        horder, fun path => ?_⟩
      rw [hmem, mem_targets_iff hfirst, mem_targets_iff hsecond]
  · intro patterns' hsame files
    rw [targets_eq_ok_iff, targets_eq_ok_iff]
    simp only [hsame]
  · intro ignored' files files' hmore h h'
    constructor
    · intro path hpath
      obtain ⟨pattern, hpattern, alternative, halternative, hsupplies⟩ :=
        (mem_targets_iff h').mp hpath
      refine (mem_targets_iff h).mpr ⟨pattern, hpattern, alternative, halternative, ?_⟩
      refine hsupplies.anti fun other hother => ?_
      rcases List.mem_append.mp hother with hother | hother
      · exact List.mem_append_left _ (hmore hother)
      · exact List.mem_append_right _ hother
    · intro path hpath hplain hbrace
      exact (mem_targets_iff h').mpr ⟨path, hpath, suppliedBy_self hplain hbrace⟩

/-- A store with a file on top and one in a directory. -/
def vendorStore : MemoryStore :=
  .ofFiles [(codeText "vendor/b.json", []), (codeText "a.json", [])]

/-- A path that is not there and what two stars find, in either order; without the directory the
file in it is no target, but the path still is. -/
theorem targets_vendorStore :
    targets vendorStore ([codeText "gone.json"] ++ [codeText "**/*.json"]) [] true
      = .ok [codeText "a.json", codeText "gone.json", codeText "vendor/b.json"] ∧
    targets vendorStore [codeText "**/*.json", codeText "gone.json", codeText "**/*.json"] [] true
      = .ok [codeText "a.json", codeText "gone.json", codeText "vendor/b.json"] ∧
    targets vendorStore [codeText "gone.json", codeText "**/*.json"] [codeText "vendor/**"] true
      = .ok [codeText "a.json", codeText "gone.json"] ∧
    codeText "gone.json" ∈ [codeText "a.json", codeText "gone.json"] := by
  have hpath : targets vendorStore [codeText "gone.json"] [] true = .ok [codeText "gone.json"] :=
    targets_path (by decide) (by decide)
  have hstars : targets vendorStore [codeText "**/*.json"] [] true
      = .ok [codeText "a.json", codeText "vendor/b.json"] :=
    targets_of_mapM [[codeText "vendor/b.json", codeText "a.json"]] (by decide +kernel)
      (by decide) (by decide) (by decide)
  have hkept : targets vendorStore [codeText "gone.json", codeText "**/*.json"]
      [codeText "vendor/**"] true = .ok [codeText "a.json", codeText "gone.json"] :=
    targets_of_mapM [[codeText "gone.json"], [codeText "a.json"]] (by decide +kernel)
      (by decide) (by decide) (by decide)
  obtain ⟨-, hunion, -, -⟩ := targets_union vendorStore [codeText "gone.json"] [] true
  obtain ⟨-, -, hsame, hfewer⟩ :=
    targets_union vendorStore [codeText "gone.json", codeText "**/*.json"] [] true
  have hsplit : [codeText "a.json", codeText "gone.json", codeText "vendor/b.json"]
      ⊆ [codeText "gone.json"] ++ [codeText "a.json", codeText "vendor/b.json"] := by decide
  have hjoin : [codeText "gone.json"] ++ [codeText "a.json", codeText "vendor/b.json"]
      ⊆ [codeText "a.json", codeText "gone.json", codeText "vendor/b.json"] := by decide
  have hboth := (hunion [codeText "**/*.json"]
    [codeText "a.json", codeText "gone.json", codeText "vendor/b.json"]).mpr
      ⟨_, _, hpath, hstars, by decide, fun _ =>
        ⟨fun h => List.mem_append.mp (hsplit h), fun h => hjoin (List.mem_append.mpr h)⟩⟩
  have hfewerCopies : [codeText "**/*.json", codeText "gone.json", codeText "**/*.json"]
      ⊆ [codeText "gone.json", codeText "**/*.json"] := by decide
  have hmoreCopies : [codeText "gone.json", codeText "**/*.json"]
      ⊆ [codeText "**/*.json", codeText "gone.json", codeText "**/*.json"] := by decide
  refine ⟨hboth, ?_, hkept, ?_⟩
  · exact (hsame _ (fun _ => ⟨fun h => hfewerCopies h, fun h => hmoreCopies h⟩) _).mpr hboth
  · exact (hfewer _ _ _ (List.nil_subset _) hboth hkept).2 _ List.mem_cons_self (by decide)
      (by decide)

end KeyOrder
