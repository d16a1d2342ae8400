import KeyOrder.Proofs.BraceChoices
import KeyOrder.Proofs.Precedence
import KeyOrder.Run.Targets
import KeyOrder.Store.Memory
/-!
# Targets as sets of paths

The targets of patterns are a sorted set of paths: they stand in strict order by
code, so they are determined by which paths are among them, however these were
found.  They depend only on which paths a store has, not on what is held there.
-/

namespace KeyOrder

/-! ## Results -/

section Results

variable {ε ε' α β : Type}

/-- A mapped result comes from a result. -/
theorem map_eq_ok_iff {f : α → β} {x : Except ε α} {b : β} :
    x.map f = .ok b ↔ ∃ a, x = .ok a ∧ f a = b := by
  cases x <;> simp [Except.map]

/-- A result in which faults are reworded is the result. -/
theorem mapError_eq_ok_iff {f : ε → ε'} {x : Except ε α} {a : α} :
    x.mapError f = .ok a ↔ x = .ok a := by
  cases x <;> simp [Except.mapError]

/-- The result of two steps comes from a result of the first one. -/
theorem bind_eq_ok_iff {x : Except ε α} {f : α → Except ε β} {b : β} :
    x >>= f = .ok b ↔ ∃ a, x = .ok a ∧ f a = .ok b := by
  cases x <;> simp [bind, Except.bind]

/-- If a step has a like result wherever another one has a result, so it is along a list. -/
theorem exists_mapM_eq_ok {f g : α → Except ε β} {like : β → β → Prop}
    (h : ∀ x y, f x = .ok y → ∃ y', g x = .ok y' ∧ like y y') {xs : List α} {ys : List β}
    (hxs : xs.mapM f = .ok ys) : ∃ ys', xs.mapM g = .ok ys' ∧ List.Forall₂ like ys ys' := by
  induction xs generalizing ys with
  | nil =>
      obtain rfl := Except.ok.inj hxs
      exact ⟨[], rfl, .nil⟩
  | cons x xs ih =>
      rw [List.mapM_cons] at hxs
      obtain ⟨y, hy, hxs⟩ := bind_eq_ok_iff.mp hxs
      obtain ⟨rest, hrest, hys⟩ := bind_eq_ok_iff.mp hxs
      obtain rfl := Except.ok.inj hys
      obtain ⟨y', hy', hlike⟩ := h x y hy
      obtain ⟨rest', hrest', hall⟩ := ih hrest
      refine ⟨y' :: rest', ?_, .cons hlike hall⟩
      rw [List.mapM_cons, hy', hrest']
      rfl

end Results

/-! ## Sorted sets -/

/-- Order of decoded strings by code compares their codes. -/
theorem CodeText.le_iff (s t : CodeText) : CodeText.le s t = true ↔ ¬ t.codes < s.codes :=
  dictionaryLe_iff _ _ _

/-- Distinct texts are those of the list that were not seen before. -/
theorem mem_distinctAfter {seen : Std.HashSet CodeText} {texts : List CodeText} {text : CodeText} :
    text ∈ distinctAfter seen texts ↔ text ∈ texts ∧ seen.contains text = false := by
  rw [distinctAfter_eq, List.mem_eraseDups, List.mem_filter, Bool.not_eq_true']

/-- No text stands twice among distinct texts. -/
theorem nodup_distinctAfter (seen : Std.HashSet CodeText) (texts : List CodeText) :
    (distinctAfter seen texts).Nodup := by
  fun_induction distinctAfter seen texts with
  | case1 => exact List.nodup_nil
  | case2 seen text rest h ih => exact ih
  | case3 seen text rest h ih =>
      refine List.nodup_cons.mpr ⟨fun hmem => ?_, ih⟩
      obtain ⟨-, hseen⟩ := mem_distinctAfter.mp hmem
      simp at hseen

/-- A sorted set has the paths of the list. -/
theorem mem_sortedSet {paths : List CodeText} {path : CodeText} :
    path ∈ sortedSet paths ↔ path ∈ paths := by
  rw [sortedSet, List.mem_mergeSort, distinct, mem_distinctAfter]
  simp

/-- A sorted set is in strict order. -/
theorem pairwise_sortedSet (paths : List CodeText) :
    (sortedSet paths).Pairwise CodeText.Before := by
  have hle : (sortedSet paths).Pairwise fun s t => CodeText.le s t = true := by
    refine List.pairwise_mergeSort (fun s t u hst htu => ?_) (fun s t => ?_) _
    · rw [CodeText.le_iff] at *
      exact List.le_trans hst htu
    · rw [Bool.or_eq_true, CodeText.le_iff, CodeText.le_iff]
      exact List.le_total _ _
  have hdistinct : (sortedSet paths).Pairwise (· ≠ ·) :=
    (List.mergeSort_perm _ _).nodup_iff.mpr (nodup_distinctAfter ∅ paths)
  refine hle.imp₂ (fun s t hst hne => ?_) hdistinct
  rw [CodeText.le_iff] at hst
  exact (List.le_iff_lt_or_eq.mp hst).resolve_right fun heq => hne (CodeText.codes_injective heq)

/-- A list in strict order has no path twice. -/
theorem nodup_of_pairwise_before {paths : List CodeText} (h : paths.Pairwise CodeText.Before) :
    paths.Nodup := by
  refine h.imp ?_
  rintro s t hst rfl
  exact List.lt_irrefl _ hst

/-- Lists in strict order with the same paths are equal. -/
theorem eq_of_pairwise_before {paths paths' : List CodeText} (h : paths.Pairwise CodeText.Before)
    (h' : paths'.Pairwise CodeText.Before) (hmem : ∀ path, path ∈ paths ↔ path ∈ paths') :
    paths = paths' := by
  refine List.Perm.eq_of_pairwise ?_ h h' ?_
  · intro s t _ _ hst hts
    exact absurd hts (List.lt_asymm hst)
  · exact (List.perm_ext_iff_of_nodup (nodup_of_pairwise_before h)
      (nodup_of_pairwise_before h')).mpr hmem

/-- A sorted set depends only on which paths are in the list. -/
theorem sortedSet_congr {paths paths' : List CodeText}
    (hmem : ∀ path, path ∈ paths ↔ path ∈ paths') : sortedSet paths = sortedSet paths' := by
  refine eq_of_pairwise_before (pairwise_sortedSet paths) (pairwise_sortedSet paths') fun path => ?_
  rw [mem_sortedSet, mem_sortedSet, hmem]

/-! ## Targets -/

/-- The targets of patterns are in strict order. -/
theorem pairwise_targets [Platform] {σ : Type} [FileStore σ] {store : σ}
    {patterns ignored : List CodeText} {useIgnoreFile : Bool} {files : List CodeText}
    (h : targets store patterns ignored useIgnoreFile = .ok files) :
    files.Pairwise CodeText.Before := by
  obtain ⟨found, -, rfl⟩ := map_eq_ok_iff.mp h
  exact pairwise_sortedSet _

/-- A pattern without braces asks for no choices. -/
theorem firstChoice?_of_not_mem {pattern : CodeText} (h : .scalar '{' ∉ pattern) :
    Glob.firstChoice? pattern = none := by
  induction pattern with
  | nil => rw [Glob.firstChoice?]
  | cons c rest ih =>
      obtain ⟨hc, hrest⟩ := not_or.mp (List.mem_cons.not.mp h)
      rw [Glob.firstChoice?, if_neg (fun heq => hc heq.symm), ih hrest, Option.map_none]

/-- A pattern without braces stands for itself alone. -/
theorem alternatives_of_not_mem [Platform] {pattern : CodeText} (h : .scalar '{' ∉ pattern) :
    Glob.alternatives pattern = .ok [pattern] := by
  have hchoice := firstChoice?_of_not_mem h
  rw [Glob.alternatives, Glob.expandWithin_eq, Glob.choicesIn_of_none hchoice,
    Glob.expandBraces_of_none hchoice, if_pos (Nat.zero_le _)]

/-- The texts that a pattern stands for are told if it does not ask for too many choices. -/
theorem alternatives_eq_ok_iff [Platform] {pattern : CodeText} {texts : List CodeText} :
    Glob.alternatives pattern = .ok texts ↔
      Glob.isExpandable pattern = true ∧ Glob.expandBraces pattern = texts := by
  rw [Glob.alternatives_eq]
  cases Glob.isExpandable pattern <;> simp

/-- A path is its own only target, whether there is something under it or not. -/
theorem targets_path [Platform] {σ : Type} [FileStore σ] {store : σ} {path : CodeText}
    {ignored : List CodeText} {useIgnoreFile : Bool} (hbrace : .scalar '{' ∉ path)
    (hglob : Glob.isGlob path = false) :
    targets store [path] ignored useIgnoreFile = .ok [path] := by
  have hset : sortedSet [path] = [path] :=
    eq_of_pairwise_before (pairwise_sortedSet _) (List.pairwise_singleton _ _)
      fun _ => mem_sortedSet
  have hpath : ∀ ignored, patternTargets store ignored path = .ok [path] := by
    intro ignored
    unfold patternTargets
    rw [alternatives_of_not_mem hbrace]
    show ([path].mapM (alternativeTargets store ignored false)) >>= _ = _
    have hone : alternativeTargets store ignored false path = .ok [path] := by
      rw [alternativeTargets, hglob]
      rfl
    simp only [List.mapM_cons, hone]
    rfl
  unfold targets
  simp only [List.mapM_cons, List.mapM_nil, hpath]
  show Except.ok (sortedSet ([path] ++ [])) = _
  rw [List.append_nil, hset]

/-! ## Targets and what files hold -/

/-- Lists of paths with the same members. -/
def SamePaths (paths paths' : List CodeText) : Prop :=
  ∀ path, path ∈ paths ↔ path ∈ paths'

/-- Lists whose parts have the same members have the same members. -/
theorem SamePaths.flatten {parts parts' : List (List CodeText)}
    (h : List.Forall₂ SamePaths parts parts') : SamePaths parts.flatten parts'.flatten := by
  induction h with
  | nil => exact fun _ => Iff.rfl
  | cons hpart _ ih =>
      intro path
      rw [List.flatten_cons, List.flatten_cons, List.mem_append, List.mem_append, hpart path,
        ih path]

/-- Where ignored paths are left out every path is told apart, and those that are not ignored are
kept. -/
theorem mem_of_unignored [Platform] {ignored paths found : List CodeText}
    (h : unignored ignored paths = .ok found) :
    (∀ path ∈ paths, ∃ leftOut, isIgnored path ignored = .ok leftOut) ∧
      ∀ path, path ∈ found ↔ path ∈ paths ∧ isIgnored path ignored = .ok false := by
  induction paths generalizing found with
  | nil =>
      obtain rfl := Except.ok.inj h
      exact ⟨List.forall_mem_nil _, fun path => by simp⟩
  | cons first paths ih =>
      rw [unignored] at h
      obtain ⟨leftOut, hfirst, h⟩ := bind_eq_ok_iff.mp h
      obtain ⟨others, hothers, h⟩ := bind_eq_ok_iff.mp h
      obtain rfl := Except.ok.inj h
      obtain ⟨htold, hkept⟩ := ih hothers
      refine ⟨List.forall_mem_cons.mpr ⟨⟨leftOut, hfirst⟩, htold⟩, fun path => ?_⟩
      cases leftOut with
      | true =>
          rw [if_pos rfl, hkept, List.mem_cons]
          refine ⟨fun hpath => ⟨Or.inr hpath.1, hpath.2⟩, ?_⟩
          rintro ⟨rfl | hpath, hnot⟩
          · rw [hfirst] at hnot
            cases hnot
          · exact ⟨hpath, hnot⟩
      | false =>
          rw [if_neg Bool.false_ne_true, List.mem_cons, List.mem_cons, hkept]
          constructor
          · rintro (rfl | hpath)
            · exact ⟨Or.inl rfl, hfirst⟩
            · exact ⟨Or.inr hpath.1, hpath.2⟩
          · rintro ⟨rfl | hpath, hnot⟩
            · exact Or.inl rfl
            · exact Or.inr ⟨hpath, hnot⟩

/-- Ignored paths are left out if every path can be told apart. -/
theorem exists_unignored [Platform] {ignored paths : List CodeText}
    (htold : ∀ path ∈ paths, ∃ leftOut, isIgnored path ignored = .ok leftOut) :
    ∃ found, unignored ignored paths = .ok found := by
  induction paths with
  | nil => exact ⟨[], rfl⟩
  | cons first paths ih =>
      obtain ⟨⟨leftOut, hfirst⟩, hrest⟩ := List.forall_mem_cons.mp htold
      obtain ⟨others, hothers⟩ := ih hrest
      exact ⟨_, by rw [unignored, hfirst, hothers]; rfl⟩

/-- Which paths are left out does not depend on the order in which they are looked at. -/
theorem SamePaths.exists_unignored [Platform] {ignored paths paths' found : List CodeText}
    (hsame : SamePaths paths paths') (h : unignored ignored paths = .ok found) :
    ∃ found', unignored ignored paths' = .ok found' ∧ SamePaths found found' := by
  obtain ⟨htold, hkept⟩ := mem_of_unignored h
  obtain ⟨found', hfound'⟩ :=
    KeyOrder.exists_unignored fun path hpath => htold path ((hsame path).mpr hpath)
  refine ⟨found', hfound', fun path => ?_⟩
  rw [hkept, (mem_of_unignored hfound').2, hsame]

namespace MemoryStore

/-- Stores that have files under the same paths. -/
def SameFiles (store store' : MemoryStore) : Prop :=
  ∀ path, (store.bytes? path).isSome = (store'.bytes? path).isSome

/-- A path is in the table of a store if there is a file under it. -/
theorem mem_map_fst_files_iff {store : MemoryStore} {path : CodeText} :
    path ∈ store.files.map Prod.fst ↔ (store.bytes? path).isSome = true := by
  rw [bytes?, List.lookup_isSome_iff, List.mem_map]
  exact exists_congr fun file => and_congr_right fun _ => ⟨fun h => by simp [h], fun h => by
    simpa using (beq_iff_eq.mp h).symm⟩

/-- What a pattern selects depends on the paths of a store. -/
theorem SameFiles.exists_glob [Platform] {store store' : MemoryStore} (h : store.SameFiles store')
    {pattern : CodeText} {found : List CodeText} (hfound : store.glob pattern = .ok found) :
    ∃ found', store'.glob pattern = .ok found' ∧ SamePaths found found' := by
  have hpaths : SamePaths (store.files.map Prod.fst) (store'.files.map Prod.fst) := by
    intro path
    rw [mem_map_fst_files_iff, mem_map_fst_files_iff, h path]
  unfold glob at hfound ⊢
  dsimp only at hfound ⊢
  split at hfound
  · next hdecided =>
    obtain rfl := Except.ok.inj hfound
    have hdecided' : ((store'.files.map Prod.fst).all fun path => Glob.isDecided path pattern)
        = true := by
      rw [List.all_eq_true] at hdecided ⊢
      exact fun path hpath => hdecided path ((hpaths path).mpr hpath)
    refine ⟨_, if_pos hdecided', fun path => ?_⟩
    rw [List.mem_filter, List.mem_filter, hpaths path]
  · cases hfound

section SameFiles

variable {store store' : MemoryStore} (h : store.SameFiles store') {ignored : List CodeText}

include h

/-- The files of an alternative depend on the paths of a store. -/
theorem SameFiles.exists_alternativeTargets [Platform] {several : Bool} (alternative : CodeText)
    (files : List CodeText)
    (hfiles : alternativeTargets store ignored several alternative = .ok files) :
    ∃ files', alternativeTargets store' ignored several alternative = .ok files' ∧
      SamePaths files files' := by
  unfold alternativeTargets at hfiles ⊢
  split at hfiles
  · next hglob =>
    obtain ⟨selected, hselected, hfiles⟩ := bind_eq_ok_iff.mp hfiles
    obtain ⟨selected', hselected', hsame⟩ := h.exists_glob (mapError_eq_ok_iff.mp hselected)
    obtain ⟨files', hfiles', hsame'⟩ := hsame.exists_unignored (mapError_eq_ok_iff.mp hfiles)
    refine ⟨files', ?_, hsame'⟩
    rw [if_pos hglob]
    exact bind_eq_ok_iff.mpr ⟨selected', mapError_eq_ok_iff.mpr hselected',
      mapError_eq_ok_iff.mpr hfiles'⟩
  · next hglob =>
    rw [if_neg hglob]
    refine ⟨files, ?_, fun _ => Iff.rfl⟩
    have hthere : FileStore.isThere store' alternative = FileStore.isThere store alternative :=
      congrArg Except.ok (h alternative).symm
    rw [← hfiles, hthere]

/-- The files of a pattern depend on the paths of a store. -/
theorem SameFiles.exists_patternTargets [Platform] (pattern : CodeText) (files : List CodeText)
    (hfiles : patternTargets store ignored pattern = .ok files) :
    ∃ files', patternTargets store' ignored pattern = .ok files' ∧ SamePaths files files' := by
  obtain ⟨alternatives, halternatives, hfiles⟩ := bind_eq_ok_iff.mp hfiles
  obtain ⟨parts, hparts, hfiles⟩ := bind_eq_ok_iff.mp hfiles
  obtain rfl := Except.ok.inj hfiles
  obtain ⟨parts', hparts', hall⟩ := exists_mapM_eq_ok h.exists_alternativeTargets hparts
  refine ⟨parts'.flatten, ?_, SamePaths.flatten hall⟩
  exact bind_eq_ok_iff.mpr ⟨alternatives, halternatives,
    bind_eq_ok_iff.mpr ⟨parts', hparts', rfl⟩⟩

/-- The targets of patterns depend on the paths of a store, and on its ignore file if that
counts. -/
theorem SameFiles.targets_eq [Platform] {patterns files : List CodeText} {useIgnoreFile : Bool}
    (hignore : useIgnoreFile = true → storeIgnoreGlobs store' = storeIgnoreGlobs store)
    (htargets : targets store patterns ignored useIgnoreFile = .ok files) :
    targets store' patterns ignored useIgnoreFile = .ok files := by
  have hglobs : (if useIgnoreFile then storeIgnoreGlobs store' else [])
      = if useIgnoreFile then storeIgnoreGlobs store else [] := by
    cases useIgnoreFile with
    | false => rfl
    | true => exact hignore rfl
  unfold targets at htargets ⊢
  dsimp only at htargets ⊢
  rw [hglobs]
  obtain ⟨found, hfound, rfl⟩ := map_eq_ok_iff.mp htargets
  obtain ⟨found', hfound', hall⟩ := exists_mapM_eq_ok h.exists_patternTargets hfound
  exact map_eq_ok_iff.mpr ⟨found', hfound', (sortedSet_congr (SamePaths.flatten hall)).symm⟩

end SameFiles

end MemoryStore

end KeyOrder
