import KeyOrder.Proofs.FixedPoint
import KeyOrder.Proofs.TargetSets
import KeyOrder.Proofs.Writing
import KeyOrder.Run.Session
/-!
# What a session leaves behind

A session with a valid configuration treats every target as if it were the only
one: what is written to a file is what comes of the text that it held at the start,
and a file that cannot be read, decoded or written stays as it is, like all others
that are not among the targets.
-/

namespace KeyOrder

/-! ## Parts of a session -/

section Session

variable {σ : Type} [FileStore σ] {store : σ} {patterns : List CodeText} {options : RunOptions}
  {reporting : Reporting} {loaded : Option LoadedConfig} {files : List CodeText}

/-- The configuration of a session: the one that was found, or the default one. -/
def usedConfig (loaded : Option LoadedConfig) : Config :=
  (loaded.map LoadedConfig.config).getD Config.default

/-- The files that a session is to process. -/
def sessionTargets [Platform] (store : σ) (config : Config) (patterns : List CodeText)
    (options : RunOptions) : Except Fault (List CodeText) :=
  targets store (if patterns.isEmpty then config.included else patterns)
    (options.ignored ++ config.ignored) options.useIgnoreFile

/-- The lines before all results. -/
def openingLines (reporting : Reporting) (loaded : Option LoadedConfig) : List Line :=
  if reporting.verbose then
    loaded.toList.map fun found => .out ("Using config: " ++ found.source.shown)
  else []

/-- The lines after all results. -/
def closingLines (reporting : Reporting) (results : List FileResult) : List Line :=
  if reporting.quiet then [] else [.out "", .out (summary (results.map FileResult.status))]

/-- A session with a valid configuration is one that is run with it, and opened by its line. -/
theorem run_of_findConfig [Platform] (hfound : findConfig store configNames = .ok loaded) :
    run store patterns options reporting
      = { runWith store (usedConfig loaded) patterns options reporting with
          lines := openingLines reporting loaded ++
            (runWith store (usedConfig loaded) patterns options reporting).lines } := by
  unfold run openingLines
  rw [hfound]
  cases loaded with
  | none => cases reporting.verbose <;> rfl
  | some found => cases hverbose : reporting.verbose <;> simp [usedConfig]

/-- A session whose configuration is not valid ends before anything is done. -/
theorem run_of_findConfig_error [Platform] (patterns : List CodeText) (options : RunOptions)
    (reporting : Reporting) {fault : Fault}
    (hfound : findConfig store configNames = .error fault) :
    (run store patterns options reporting).store = store ∧
      ∀ code, (run store patterns options reporting).outcome = .ok code →
        ∃ error, fault = .config error ∧ code = 1 ∧
          (run store patterns options reporting).lines = error.lines := by
  unfold run
  rw [hfound]
  cases fault with
  | config error => exact ⟨rfl, fun code h => ⟨error, rfl, (Except.ok.inj h).symm, rfl⟩⟩
  | _ => exact ⟨rfl, fun code h => by cases h⟩

/-- A session whose targets cannot be told ends before anything is done. -/
theorem runWith_of_targets_error [Platform] {config : Config} {fault : Fault}
    (htargets : sessionTargets store config patterns options = .error fault) :
    runWith store config patterns options reporting
      = { lines := [], store, outcome := .error fault } := by
  unfold sessionTargets at htargets
  simp only [runWith, htargets]

/-- A session processes its targets, if there are any. -/
theorem runWith_of_targets [Platform] {config : Config}
    (htargets : sessionTargets store config patterns options = .ok files) :
    runWith store config patterns options reporting
      = if files = [] then { lines := [noFilesLine patterns], store, outcome := .ok 1 }
        else runFiles store config files options reporting := by
  unfold sessionTargets at htargets
  cases files with
  | nil => simp only [runWith, htargets, if_true]
  | cons path files => simp only [runWith, htargets, reduceCtorEq, if_false]

/-- The store after a session is the one after its targets were processed. -/
theorem store_runWith [Platform] {config : Config}
    (htargets : sessionTargets store config patterns options = .ok files) :
    (runWith store config patterns options reporting).store
      = (processFiles config options reporting.fault? store files).store := by
  rw [runWith_of_targets htargets]
  split
  · next hnone =>
    rw [hnone]
    rfl
  · unfold runFiles
    dsimp only
    split <;> rfl

/-- A session whose targets are all processed reports their results and tells by its exit code how
they fared. -/
theorem run_of_processFiles [Platform] (hfound : findConfig store configNames = .ok loaded)
    (htargets : sessionTargets store (usedConfig loaded) patterns options = .ok files)
    {batch : Batch σ}
    (hbatch : processFiles (usedConfig loaded) options reporting.fault? store files = batch)
    (hdone : batch.fault = none) :
    run store patterns options reporting
      = { lines := openingLines reporting loaded ++
            (if files = [] then [noFilesLine patterns]
              else reporting.lines batch.results ++ closingLines reporting batch.results)
          store := batch.store
          outcome := .ok
            (if files = [] then 1 else exitCode (batch.results.map FileResult.status)) } := by
  rw [run_of_findConfig hfound, runWith_of_targets htargets]
  by_cases hnone : files = []
  · rw [if_pos hnone, if_pos hnone, if_pos hnone]
    rw [hnone] at hbatch
    subst hbatch
    rfl
  · rw [if_neg hnone, if_neg hnone, if_neg hnone, runFiles]
    simp only [hbatch, hdone]
    rfl

/-- A session for a path has that file as its only target. -/
theorem run_path [Platform] {path : CodeText}
    (hbrace : .scalar '{' ∉ path) (hglob : Glob.isGlob path = false)
    (hfound : findConfig store configNames = .ok loaded) {settings : Settings}
    (hsettings : (usedConfig loaded).resolve path = .ok settings)
    (hignored : settings.ignored = false) {result : FileResult} {store' : σ}
    (hfile : processFile store path (options.forFile settings) = .ok (result, store'))
    {report : FileResult}
    (hreport : { result with matchedPattern := settings.matchedPattern } = report)
    (hshown : reporting.fault? report = none) :
    run store [path] options reporting
      = { lines := openingLines reporting loaded ++
            (reporting.lines [report] ++ closingLines reporting [report])
          store := store'
          outcome := .ok (exitCode [report.status]) } := by
  have htargets : sessionTargets store (usedConfig loaded) [path] options = .ok [path] :=
    targets_path hbrace hglob
  have hbatch : processFiles (usedConfig loaded) options reporting.fault? store [path]
      = { results := [report], store := store', fault := none } := by
    rw [processFiles]
    simp only [hsettings, hignored, hfile, hreport, hshown, Bool.false_eq_true, if_false]
    rfl
  rw [run_of_processFiles hfound htargets hbatch rfl]
  simp only [List.cons_ne_nil, if_false, List.map_cons, List.map_nil]

/-- A session that returns found a configuration that is not valid, or its targets are all
processed. -/
theorem exists_targets_of_run [Platform] {code : Nat}
    (hreturns : (run store patterns options reporting).outcome = .ok code) :
    (∃ error, findConfig store configNames = .error (.config error) ∧ code = 1 ∧
      (run store patterns options reporting).store = store ∧
      (run store patterns options reporting).lines = error.lines) ∨
    ∃ loaded files, findConfig store configNames = .ok loaded ∧
      sessionTargets store (usedConfig loaded) patterns options = .ok files ∧
      (processFiles (usedConfig loaded) options reporting.fault? store files).fault = none := by
  cases hfound : findConfig store configNames with
  | error fault =>
      obtain ⟨hstore, hcode⟩ := run_of_findConfig_error patterns options reporting hfound
      obtain ⟨error, rfl, rfl, hlines⟩ := hcode code hreturns
      exact Or.inl ⟨error, rfl, rfl, hstore, hlines⟩
  | ok loaded =>
      rw [run_of_findConfig hfound] at hreturns
      dsimp only at hreturns
      cases htargets : sessionTargets store (usedConfig loaded) patterns options with
      | error fault =>
          rw [runWith_of_targets_error htargets] at hreturns
          cases hreturns
      | ok files =>
          refine Or.inr ⟨loaded, files, rfl, htargets, ?_⟩
          rw [runWith_of_targets htargets] at hreturns
          split at hreturns
          · next hnone =>
            rw [hnone]
            rfl
          · unfold runFiles at hreturns
            dsimp only at hreturns
            split at hreturns
            · cases hreturns
            · next hdone => exact hdone

end Session

/-! ## New texts of sessions -/

/-- A new text comes of a document only if it may be written and the order is not only checked. -/
theorem check_write_of_processText [Platform] {options : ProcessOptions} {content text : Text}
    (h : processText options content = .ok (.updated text)) :
    options.check = false ∧ options.write = true := by
  simp only [processText] at h
  split at h
  · cases h
  split at h
  · cases h
  · next v _ =>
    obtain ⟨sorted, hsorted, hprinted⟩ := exists_sorted_of_processValue h
    rw [processValue_of_printed hsorted hprinted] at h
    split at h
    · obtain ⟨asRead, -, hsame⟩ := map_eq_ok_iff.mp h
      split at hsame <;> cases hsame
    · next hcheck =>
      have houtcome := Except.ok.inj h
      split at houtcome
      · next hwrite => exact ⟨by simpa using hcheck, (Bool.and_eq_true_iff.mp hwrite).1⟩
      · cases houtcome

/-- A file gets a text if it is not locked and the text is a new one for what it holds. -/
theorem newText?_eq_some_iff [Platform] {store : MemoryStore} {path : CodeText}
    {options : ProcessOptions} {text : Text} :
    newText? store path options = some text ↔
      path ∉ store.locked ∧ ∃ content, store.read path = .ok content ∧
        processText options content = .ok (.updated text) := by
  unfold newText?
  constructor
  · intro hnew
    split at hnew
    · cases hnew
    next content hread =>
    split at hnew
    · cases hnew
    next outcome hprocess =>
    split at hnew
    · cases hnew
    next hunlocked =>
    rw [Outcome.eq_updated_of_output hnew] at hprocess
    exact ⟨by simpa using hunlocked, content, hread, hprocess⟩
  · rintro ⟨hunlocked, content, hread, hprocess⟩
    have hwritable : ¬ store.locked.contains path = true := by simpa using hunlocked
    simp only [hread, hprocess, if_neg hwritable, Outcome.output]

/-- A session writes a text to a file. -/
structure Rewrites [Platform] (store : MemoryStore) (config : Config) (options : RunOptions)
    (files : List CodeText) (path : CodeText) (text : Text) : Prop where
  unchecked : options.check = false
  writes : options.write = true
  isTarget : path ∈ files
  unlocked : path ∉ store.locked
  /-- The text comes of what the file held at the start, with the settings for its path. -/
  output : ∃ settings content outcome, config.resolve path = .ok settings ∧
    settings.ignored = false ∧ store.read path = .ok content ∧
    processText (options.forFile settings) content = .ok outcome ∧ outcome.output = some text

/-- The texts that a session writes are those that come of its targets. -/
theorem rewrites_iff [Platform] {store : MemoryStore} {config : Config} {options : RunOptions}
    {files : List CodeText} {path : CodeText} {text : Text} :
    Rewrites store config options files path text ↔
      path ∈ files ∧ change? store config options path = some (path, text) := by
  constructor
  · rintro ⟨-, -, htarget, hunlocked, settings, content, outcome, hsettings, hignored, hread,
      hprocess, houtput⟩
    rw [Outcome.eq_updated_of_output houtput] at hprocess
    refine ⟨htarget, ?_⟩
    simp only [change?, hsettings, hignored, Bool.false_eq_true, if_false,
      newText?_eq_some_iff.mpr ⟨hunlocked, content, hread, hprocess⟩, Option.map_some]
  · rintro ⟨htarget, hchange⟩
    unfold change? at hchange
    split at hchange
    · cases hchange
    next settings hsettings =>
    split at hchange
    · cases hchange
    next hignored =>
    obtain ⟨text', hnew, hpair⟩ := Option.map_eq_some_iff.mp hchange
    obtain ⟨-, rfl⟩ := Prod.mk.inj hpair
    obtain ⟨hunlocked, content, hread, hprocess⟩ := newText?_eq_some_iff.mp hnew
    obtain ⟨hcheck, hwrite⟩ := check_write_of_processText hprocess
    exact ⟨hcheck, (Bool.and_eq_true_iff.mp hwrite).1, htarget, hunlocked, settings, content, _,
      hsettings, by simpa using hignored, hread, hprocess, rfl⟩

/-! ## Whole sessions -/

/-- What a session that returns has done with its targets: each was treated as if it were the only
one. -/
structure Isolated [Platform] (store : MemoryStore) (config : Config) (options : RunOptions)
    (files : List CodeText) (results : List FileResult) (after : MemoryStore) : Prop where
  ascending : files.Pairwise CodeText.Before
  /-- Each target has the result that it has alone. -/
  results_eq : results = files.filterMap (resultAlone? store config options)
  /-- All targets that are not left alone have a result, in order. -/
  paths_eq : results.map FileResult.path
    = files.filter fun path => !(config.settingsFor path).ignored
  rewritten : ∀ path text, Rewrites store config options files path text →
    after.bytes? path = some (Utf8.encode text) ∧ after.read path = .ok text
  kept : ∀ path, (∀ text, ¬ Rewrites store config options files path text) →
    after.bytes? path = store.bytes? path
  /-- Each file is written at most once, in order. -/
  written : ∃ paths, after.written = store.written ++ paths ∧ paths.Pairwise CodeText.Before ∧
    ∀ path, path ∈ paths ↔ ∃ text, Rewrites store config options files path text
  locked_eq : after.locked = store.locked
  untouched : options.check = true ∨ options.write = false → after = store

section Batch

variable {store : MemoryStore} {config : Config} {options : RunOptions} {files : List CodeText}

/-- The paths of new texts are those of files, in their order. -/
theorem map_fst_changes_sublist [Platform] :
    ((files.filterMap (change? store config options)).map Prod.fst).Sublist files := by
  induction files with
  | nil => exact List.Sublist.refl _
  | cons path files ih =>
      cases hchange : change? store config options path with
      | none =>
          rw [List.filterMap_cons_none hchange]
          exact ih.cons path
      | some change =>
          rw [List.filterMap_cons_some hchange, List.map_cons, fst_of_change? _ _ _ hchange]
          exact ih.cons_cons path

/-- The new texts of files are those that a session writes. -/
theorem mem_changes_iff [Platform] {path : CodeText} {text : Text} :
    (path, text) ∈ files.filterMap (change? store config options) ↔
      Rewrites store config options files path text := by
  rw [rewrites_iff, List.mem_filterMap]
  constructor
  · rintro ⟨path', hpath, hchange⟩
    obtain rfl := fst_of_change? _ _ _ hchange
    exact ⟨hpath, hchange⟩
  · rintro ⟨hpath, hchange⟩
    exact ⟨path, hpath, hchange⟩

/-- The results of files that are each reported are about those that are not left alone. -/
theorem map_path_results [Platform]
    (hreported : ∀ path ∈ files, Reported store config options path) :
    (files.filterMap (resultAlone? store config options)).map FileResult.path
      = files.filter fun path => !(config.settingsFor path).ignored := by
  rw [List.map_filterMap, ← List.filterMap_eq_filter]
  refine List.filterMap_congr fun path hpath => ?_
  obtain ⟨settings, hsettings, hpaths⟩ := hreported path hpath
  have hfor : config.settingsFor path = settings := by
    unfold Config.resolve at hsettings
    split at hsettings
    · exact Except.ok.inj hsettings
    · cases hsettings
  subst hfor
  rw [hpaths, Option.guard]
  cases (config.settingsFor path).ignored <;> rfl

/-- A batch that nothing ended early has treated each of its files as if it were the only one. -/
theorem isolated_of_processFiles [Platform] {stop? : FileResult → Option Fault}
    (hfiles : files.Pairwise CodeText.Before)
    (hdone : (processFiles config options stop? store files).fault = none) :
    Isolated store config options files (processFiles config options stop? store files).results
      (processFiles config options stop? store files).store := by
  obtain ⟨reached, -, hstore, hall⟩ := exists_reached_of_processFiles store config options stop?
    (nodup_of_pairwise_before hfiles) (fun _ _ => rfl) rfl
  obtain ⟨rfl, hreported, -, hresults⟩ := hall hdone
  have hordered : ((reached.filterMap (change? store config options)).map Prod.fst).Pairwise
      CodeText.Before := hfiles.sublist map_fst_changes_sublist
  have hdistinct := nodup_of_pairwise_before hordered
  rw [hstore, hresults]
  exact {
    ascending := hfiles
    results_eq := rfl
    paths_eq := map_path_results hreported
    rewritten := by
      intro path text hrewrites
      have hbytes := MemoryStore.bytes?_recordAll_of_mem store hdistinct
        (mem_changes_iff.mpr hrewrites)
      exact ⟨hbytes, MemoryStore.read_of_bytes? hbytes⟩
    kept := by
      intro path hnone
      refine MemoryStore.bytes?_recordAll_of_not_mem store ?_
      rintro ⟨path, text⟩ hmem rfl
      exact hnone text (mem_changes_iff.mp hmem)
    written := by
      refine ⟨_, MemoryStore.written_recordAll _ _, hordered, fun path => ?_⟩
      rw [List.mem_map]
      constructor
      · rintro ⟨⟨path, text⟩, hmem, rfl⟩
        exact ⟨text, mem_changes_iff.mp hmem⟩
      · rintro ⟨text, hrewrites⟩
        exact ⟨(path, text), mem_changes_iff.mpr hrewrites, rfl⟩
    locked_eq := MemoryStore.locked_recordAll _ _
    untouched := by
      intro hidle
      have hnone : reached.filterMap (change? store config options) = [] := by
        refine List.eq_nil_iff_forall_not_mem.mpr ?_
        rintro ⟨path, text⟩ hmem
        have hrewrites := mem_changes_iff.mp hmem
        rcases hidle with hcheck | hwrite
        · rw [hrewrites.unchecked] at hcheck
          cases hcheck
        · rw [hrewrites.writes] at hwrite
          cases hwrite
      rw [hnone]
      rfl }

end Batch

/-- The exit code tells whether some result is an error or finds keys out of order. -/
theorem exitCode_eq_zero_iff (results : List FileResult) :
    exitCode (results.map FileResult.status) = 0 ↔
      ∀ result ∈ results, result.status ≠ .error ∧ result.status ≠ .changed := by
  unfold exitCode runFailed
  split
  · next h =>
    refine iff_of_false (by decide) fun hgood => ?_
    simp only [Bool.or_eq_true, List.contains_iff_mem, List.mem_map] at h
    rcases h with ⟨result, hmem, hstatus⟩ | ⟨result, hmem, hstatus⟩
    · exact (hgood result hmem).1 hstatus
    · exact (hgood result hmem).2 hstatus
  · next h =>
    refine iff_of_true rfl fun result hmem => ⟨fun hstatus => h ?_, fun hstatus => h ?_⟩
    · simp only [Bool.or_eq_true, List.contains_iff_mem, List.mem_map]
      exact Or.inl ⟨result, hmem, hstatus⟩
    · simp only [Bool.or_eq_true, List.contains_iff_mem, List.mem_map]
      exact Or.inr ⟨result, hmem, hstatus⟩

/-- A session that returns either found a configuration that is not valid, and has done nothing; or
it has treated each of its targets as if it were the only one, has reported the results in order,
and tells by its exit code whether there were targets and all went well. -/
theorem run_isolated [Platform] (store : MemoryStore) (patterns : List CodeText)
    (options : RunOptions) (reporting : Reporting) {code : Nat}
    (hreturns : (run store patterns options reporting).outcome = .ok code) :
    (∃ error, findConfig store configNames = .error (.config error) ∧ code = 1 ∧
      (run store patterns options reporting).store = store ∧
      (run store patterns options reporting).lines = error.lines) ∨
    ∃ loaded files results, findConfig store configNames = .ok loaded ∧
      sessionTargets store (usedConfig loaded) patterns options = .ok files ∧
      Isolated store (usedConfig loaded) options files results
        (run store patterns options reporting).store ∧
      (run store patterns options reporting).lines = openingLines reporting loaded ++
        (if files = [] then [noFilesLine patterns]
          else reporting.lines results ++ closingLines reporting results) ∧
      (code = 0 ↔ files ≠ [] ∧
        ∀ result ∈ results, result.status ≠ .error ∧ result.status ≠ .changed) := by
  rcases exists_targets_of_run hreturns with hinvalid | ⟨loaded, files, hfound, htargets, hdone⟩
  · exact Or.inl hinvalid
  · have hrun := run_of_processFiles hfound htargets rfl hdone
    rw [hrun] at hreturns ⊢
    refine Or.inr ⟨loaded, files, _, hfound, htargets,
      isolated_of_processFiles (pairwise_targets htargets) hdone, rfl, ?_⟩
    rw [← Except.ok.inj hreturns, ← exitCode_eq_zero_iff]
    by_cases hnone : files = []
    · rw [if_pos hnone]
      exact iff_of_false (by decide) fun h => h.1 hnone
    · rw [if_neg hnone, and_iff_right hnone]

/-- A document whose keys are swapped gets them in order. -/
theorem processText_swapped :
    processText ⟨false, true, false, false, 2, 0, []⟩
        "\x7b\n\t\"b\": 0,\n\t\"a\": null\n\x7d\n".toList
      = .ok (.updated "\x7b\n  \"a\": null,\n  \"b\": 0\n\x7d\n".toList) := by
  have hdocument : (Value.map (stringMembers
      [(codeText "b", .int 0), (codeText "a", .null)])).IsDocument := by
    refine .map (by decide) (by decide) ?_
    simp only [List.forall_mem_cons]
    exact ⟨.scalar trivial (Nat.pow_pos (by decide)), .scalar trivial trivial,
      List.forall_mem_nil _⟩
  refine (processText_printDocument .tabs hdocument (by decide)).trans ?_
  rw [processValue_of_printed (by cbv) (by rfl)]
  rfl

/-- A session for a file whose keys are swapped writes them in order. -/
theorem run_swapped :
    run (MemoryStore.ofFiles [(codeText "a.json",
        Utf8.encode "\x7b\n\t\"b\": 0,\n\t\"a\": null\n\x7d\n".toList)])
      [codeText "a.json"] ⟨false, true, false, false, 2, some 0, [], false⟩ ⟨true, false, .kept⟩
      = { lines := []
          store := (MemoryStore.ofFiles [(codeText "a.json",
            Utf8.encode "\x7b\n\t\"b\": 0,\n\t\"a\": null\n\x7d\n".toList)]).record
              (codeText "a.json", "\x7b\n  \"a\": null,\n  \"b\": 0\n\x7d\n".toList)
          outcome := .ok 0 } := by
  have hprocess := processText_swapped
  generalize "\x7b\n\t\"b\": 0,\n\t\"a\": null\n\x7d\n".toList = content at hprocess ⊢
  generalize "\x7b\n  \"a\": null,\n  \"b\": 0\n\x7d\n".toList = text at hprocess ⊢
  have hread : (MemoryStore.ofFiles [(codeText "a.json", Utf8.encode content)]).read
      (codeText "a.json") = .ok content := MemoryStore.read_of_bytes? rfl
  have hfound : findConfig (MemoryStore.ofFiles [(codeText "a.json", Utf8.encode content)])
      configNames = .ok none := by
    rfl
  have hsettings : Config.default.resolve (codeText "a.json") = .ok ⟨1, false, none, none⟩ := rfl
  have hfile : processFile (MemoryStore.ofFiles [(codeText "a.json", Utf8.encode content)])
      (codeText "a.json") (RunOptions.forFile ⟨false, true, false, false, 2, some 0, [], false⟩
        ⟨1, false, none, none⟩) = _ := processFile_updated List.not_mem_nil hread hprocess
  exact Eq.trans (run_path (by decide) rfl hfound hsettings rfl hfile rfl rfl) rfl

/-- A file whose keys are swapped gets its keys in order. -/
theorem run_isolated_swapped :
    (run (MemoryStore.ofFiles [(codeText "a.json",
        Utf8.encode "\x7b\n\t\"b\": 0,\n\t\"a\": null\n\x7d\n".toList)])
      [codeText "a.json"] ⟨false, true, false, false, 2, some 0, [], false⟩
      ⟨true, false, .kept⟩).outcome = .ok 0 ∧
    (run (MemoryStore.ofFiles [(codeText "a.json",
        Utf8.encode "\x7b\n\t\"b\": 0,\n\t\"a\": null\n\x7d\n".toList)])
      [codeText "a.json"] ⟨false, true, false, false, 2, some 0, [], false⟩
      ⟨true, false, .kept⟩).store.read (codeText "a.json")
        = .ok "\x7b\n  \"a\": null,\n  \"b\": 0\n\x7d\n".toList := by
  have hprocess := processText_swapped
  have hreturns := congrArg Session.outcome run_swapped
  refine ⟨hreturns, ?_⟩
  generalize "\x7b\n\t\"b\": 0,\n\t\"a\": null\n\x7d\n".toList = content at *
  generalize "\x7b\n  \"a\": null,\n  \"b\": 0\n\x7d\n".toList = text at *
  have hfound : findConfig (MemoryStore.ofFiles [(codeText "a.json", Utf8.encode content)])
      configNames = .ok none := by
    rfl
  rcases run_isolated _ _ _ _ hreturns with ⟨error, herror, -⟩ |
    ⟨loaded, files, results, hloaded, hfiles, hisolated, -⟩
  · rw [hfound] at herror
    cases herror
  · rw [hfound] at hloaded
    obtain rfl := Except.ok.inj hloaded
    have htargets : sessionTargets (MemoryStore.ofFiles [(codeText "a.json", Utf8.encode content)])
        Config.default [codeText "a.json"] ⟨false, true, false, false, 2, some 0, [], false⟩
        = .ok [codeText "a.json"] := targets_path (by decide) rfl
    obtain rfl := Except.ok.inj (htargets.symm.trans hfiles)
    refine (hisolated.rewritten _ text ⟨rfl, rfl, List.mem_singleton_self _, List.not_mem_nil,
      ⟨_, content, _, rfl, rfl, MemoryStore.read_of_bytes? rfl, hprocess, rfl⟩⟩).2

end KeyOrder
