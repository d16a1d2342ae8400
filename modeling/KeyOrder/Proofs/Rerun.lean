import KeyOrder.Proofs.Isolation
/-!
# Running a session again

After a session that returned, each of its targets is settled: processed again with
the same options it is not written.  So a second session writes only what the first
one did not process alike, and if it finds the same configuration and the same
ignored files it is the first session once more, without any write.  A session may
change its own configuration, though.
-/

namespace KeyOrder

/-! ## Settled files -/

section Settled

variable {store after : MemoryStore} {config : Config} {options : RunOptions}
  {files : List CodeText} {results : List FileResult}

/-- A target that gets a new text gets it written. -/
theorem Isolated.rewrites [Platform] (h : Isolated store config options files results after)
    {path : CodeText} (hpath : path ∈ files) {settings : Settings}
    (hsettings : config.resolve path = .ok settings) (hignored : settings.ignored = false)
    {text : Text} (hnew : newText? store path (options.forFile settings) = some text) :
    after.read path = .ok text ∧ processText (options.forFile settings) text = .ok .settled := by
  have hchange : change? store config options path = some (path, text) := by
    simp only [change?, hsettings, hignored, hnew, Bool.false_eq_true, if_false, Option.map_some]
  obtain ⟨-, content, -, hprocess⟩ := newText?_eq_some_iff.mp hnew
  exact ⟨(h.rewritten path text (rewrites_iff.mpr ⟨hpath, hchange⟩)).2,
    processText_updated hprocess _ _ _⟩

/-- A target that gets no new text holds what it held. -/
theorem Isolated.bytes?_eq [Platform] (h : Isolated store config options files results after)
    {path : CodeText} {settings : Settings} (hsettings : config.resolve path = .ok settings)
    (hnew : newText? store path (options.forFile settings) = none) :
    after.bytes? path = store.bytes? path := by
  refine h.kept path fun text hrewrites => ?_
  obtain ⟨-, hchange⟩ := rewrites_iff.mp hrewrites
  simp [change?, hsettings, hnew] at hchange

/-- A target gets no new text if it is processed again. -/
theorem Isolated.newText?_again [Platform] (h : Isolated store config options files results after)
    {path : CodeText} (hpath : path ∈ files) {settings : Settings}
    (hsettings : config.resolve path = .ok settings) (hignored : settings.ignored = false) :
    newText? after path (options.forFile settings) = none := by
  cases hnew : newText? store path (options.forFile settings) with
  | none => rw [newText?_congr _ (h.bytes?_eq hsettings hnew) h.locked_eq, hnew]
  | some text =>
      obtain ⟨hread, hsettled⟩ := h.rewrites hpath hsettings hignored hnew
      simp only [newText?, hread, hsettled, Outcome.output, ite_self]

/-- A target that is processed again stays as it is and has the same result. -/
theorem Isolated.processFile_again [Platform]
    (h : Isolated store config options files results after)
    {path : CodeText} (hpath : path ∈ files) {settings : Settings}
    (hsettings : config.resolve path = .ok settings) (hignored : settings.ignored = false)
    {result : FileResult} {store' : MemoryStore}
    (hfirst : processFile store path (options.forFile settings) = .ok (result, store')) :
    processFile after path (options.forFile settings) = .ok (result, after) := by
  cases hnew : newText? store path (options.forFile settings) with
  | none =>
      have hbytes := h.bytes?_eq hsettings hnew
      obtain ⟨⟨after', hagain⟩, -⟩ := processFile_eq_ok hbytes.symm h.locked_eq.symm hfirst
      obtain ⟨-, rfl⟩ := processFile_eq_ok rfl rfl hagain
      rw [hagain, h.newText?_again hpath hsettings hignored]
      rfl
  | some text =>
      obtain ⟨hunlocked, content, hread, hprocess⟩ := newText?_eq_some_iff.mp hnew
      obtain ⟨hreadAgain, hsettled⟩ := h.rewrites hpath hsettings hignored hnew
      rw [processFile_updated hunlocked hread hprocess] at hfirst
      obtain ⟨rfl, -⟩ := Prod.mk.inj (Except.ok.inj hfirst)
      -- The result does not tell whether a text was written.
      exact processFile_settled hreadAgain hsettled

end Settled

/-! ## Sessions after sessions -/

/-- A batch of settled files writes nothing and has the same results. -/
theorem processFiles_of_settled [Platform] {store : MemoryStore} {config : Config}
    {options : RunOptions} {stop? : FileResult → Option Fault} {paths : List CodeText}
    (hpaths : ∀ path ∈ paths, ∃ settings, config.resolve path = .ok settings ∧
      (settings.ignored = false → ∃ result,
        processFile store path (options.forFile settings) = .ok (result, store)))
    (hgo : ∀ result ∈ paths.filterMap (resultAlone? store config options), stop? result = none) :
    processFiles config options stop? store paths
      = { results := paths.filterMap (resultAlone? store config options)
          store
          fault := none } := by
  induction paths with
  | nil => rfl
  | cons path paths ih =>
      obtain ⟨⟨settings, hsettings, hfile⟩, hrest⟩ := List.forall_mem_cons.mp hpaths
      rw [processFiles]
      simp only [hsettings]
      cases hignored : settings.ignored with
      | true =>
          have hresult : resultAlone? store config options path = none := by
            simp only [resultAlone?, hsettings, hignored, if_true]
          rw [List.filterMap_cons_none hresult] at hgo ⊢
          rw [if_pos rfl, ih hrest hgo]
      | false =>
          obtain ⟨result, hprocess⟩ := hfile hignored
          have hresult : resultAlone? store config options path
              = some { result with matchedPattern := settings.matchedPattern } := by
            simp only [resultAlone?, hsettings, hignored, hprocess, Bool.false_eq_true, if_false]
          rw [List.filterMap_cons_some hresult] at hgo ⊢
          obtain ⟨hfirst, hgo⟩ := List.forall_mem_cons.mp hgo
          simp only [hprocess, Bool.false_eq_true, if_false, hfirst, ih hrest hgo]
          rfl

/-- A batch that nothing ended early is the same batch once more if it is run again. -/
theorem processFiles_again [Platform] {store : MemoryStore} {config : Config} {options : RunOptions}
    {stop? : FileResult → Option Fault} {files : List CodeText}
    (hfiles : files.Pairwise CodeText.Before) {batch : Batch MemoryStore}
    (hbatch : processFiles config options stop? store files = batch) (hdone : batch.fault = none) :
    processFiles config options stop? batch.store files = batch := by
  subst hbatch
  have hisolated := isolated_of_processFiles hfiles hdone
  obtain ⟨reached, -, -, hall⟩ := exists_reached_of_processFiles store config options stop?
    (nodup_of_pairwise_before hfiles) (fun _ _ => rfl) rfl
  obtain ⟨rfl, hreported, hgo, hresults⟩ := hall hdone
  generalize hbatch : processFiles config options stop? store reached = batch at *
  have hagain : ∀ path ∈ reached, ∃ settings, config.resolve path = .ok settings ∧
      (settings.ignored = false → ∃ result,
        processFile batch.store path (options.forFile settings) = .ok (result, batch.store) ∧
        resultAlone? store config options path
          = some { result with matchedPattern := settings.matchedPattern }) := by
    intro path hpath
    obtain ⟨settings, hsettings, halone⟩ := hreported path hpath
    refine ⟨settings, hsettings, fun hignored => ?_⟩
    rw [hignored, if_neg Bool.false_ne_true] at halone
    simp only [resultAlone?, hsettings, hignored, Bool.false_eq_true, if_false] at halone ⊢
    cases hprocess : processFile store path (options.forFile settings) with
    | error fault => rw [hprocess] at halone; cases halone
    | ok processed =>
        obtain ⟨result, store'⟩ := processed
        exact ⟨result, hisolated.processFile_again hpath hsettings hignored hprocess, rfl⟩
  have hsame : reached.filterMap (resultAlone? batch.store config options) = batch.results := by
    rw [hresults]
    refine List.filterMap_congr fun path hpath => ?_
    obtain ⟨settings, hsettings, hfile⟩ := hagain path hpath
    cases hignored : settings.ignored with
    | true => simp only [resultAlone?, hsettings, hignored, if_true]
    | false =>
        obtain ⟨result, hprocess, halone⟩ := hfile hignored
        rw [halone]
        simp only [resultAlone?, hsettings, hignored, hprocess, Bool.false_eq_true, if_false]
  rw [processFiles_of_settled, hsame, ← hdone]
  · intro path hpath
    obtain ⟨settings, hsettings, hfile⟩ := hagain path hpath
    refine ⟨settings, hsettings, fun hignored => ?_⟩
    obtain ⟨result, hprocess, -⟩ := hfile hignored
    exact ⟨result, hprocess⟩
  · rw [hsame]
    exact hgo

section Again

variable {store after : MemoryStore} {config : Config} {patterns : List CodeText}
  {options : RunOptions} {reporting : Reporting} {files : List CodeText}
  {results : List FileResult}

/-- A session writes only files that are there. -/
theorem Isolated.sameFiles [Platform] (h : Isolated store config options files results after) :
    store.SameFiles after := by
  intro path
  by_cases hwritten : ∃ text, Rewrites store config options files path text
  · obtain ⟨text, hrewrites⟩ := hwritten
    obtain ⟨settings, content, outcome, -, -, hread, -⟩ := hrewrites.output
    rw [(h.rewritten path text hrewrites).1]
    cases hbytes : store.bytes? path with
    | none => rw [MemoryStore.read, hbytes] at hread; cases hread
    | some bytes => rfl
  · rw [h.kept path (not_exists.mp hwritten)]

/-- The configuration that is found depends on what the candidates hold. -/
theorem findConfig_congr [Platform] {names : List CodeText}
    (h : ∀ name ∈ names, after.bytes? name = store.bytes? name) :
    findConfig after names = findConfig store names := by
  induction names with
  | nil => rfl
  | cons name names ih =>
      obtain ⟨hname, hrest⟩ := List.forall_mem_cons.mp h
      have hread : FileStore.read after name = FileStore.read store name :=
        MemoryStore.read_eq_of_bytes? hname
      rw [findConfig, findConfig, readCandidate, readCandidate, hread, ih hrest]

/-- The ignored files depend on what the ignore file holds. -/
theorem storeIgnoreGlobs_congr [Platform]
    (h : after.bytes? ignoreFileName = store.bytes? ignoreFileName) :
    storeIgnoreGlobs after = storeIgnoreGlobs store := by
  have hread : FileStore.read after ignoreFileName = FileStore.read store ignoreFileName :=
    MemoryStore.read_eq_of_bytes? h
  rw [storeIgnoreGlobs, storeIgnoreGlobs, hread]

/-- A session processes a file with options, as its targets and its configuration say. -/
def Treats [Platform] (store : MemoryStore) (patterns : List CodeText) (options : RunOptions)
    (path : CodeText) (fileOptions : ProcessOptions) : Prop :=
  ∃ loaded files settings, findConfig store configNames = .ok loaded ∧
    sessionTargets store (usedConfig loaded) patterns options = .ok files ∧ path ∈ files ∧
    (usedConfig loaded).resolve path = .ok settings ∧ settings.ignored = false ∧
    options.forFile settings = fileOptions

/-- What any session writes, whether it returns or not, are new texts of files that it processes. -/
theorem exists_written_of_run [Platform] (store : MemoryStore) (patterns : List CodeText)
    (options : RunOptions) (reporting : Reporting) :
    ∃ paths, (run store patterns options reporting).store.written = store.written ++ paths ∧
      ∀ path ∈ paths, ∃ fileOptions text, Treats store patterns options path fileOptions ∧
        newText? store path fileOptions = some text := by
  have hidle : (run store patterns options reporting).store = store →
      ∃ paths, (run store patterns options reporting).store.written = store.written ++ paths ∧
        ∀ path ∈ paths, ∃ fileOptions text, Treats store patterns options path fileOptions ∧
          newText? store path fileOptions = some text := by
    intro hstore
    exact ⟨[], by rw [hstore, List.append_nil], List.forall_mem_nil _⟩
  cases hfound : findConfig store configNames with
  | error fault => exact hidle (run_of_findConfig_error patterns options reporting hfound).1
  | ok loaded =>
      cases htargets : sessionTargets store (usedConfig loaded) patterns options with
      | error fault =>
          refine hidle ?_
          rw [run_of_findConfig hfound, runWith_of_targets_error htargets]
      | ok files =>
          obtain ⟨reached, ⟨rest, rfl⟩, hstore, -⟩ := exists_reached_of_processFiles store
            (usedConfig loaded) options reporting.fault?
            (nodup_of_pairwise_before (pairwise_targets htargets)) (fun _ _ => rfl) rfl
          refine ⟨(reached.filterMap (change? store (usedConfig loaded) options)).map Prod.fst,
            ?_, ?_⟩
          · rw [run_of_findConfig hfound]
            dsimp only
            rw [store_runWith htargets, hstore, MemoryStore.written_recordAll]
          · intro path hpath
            obtain ⟨⟨path, text⟩, hmem, rfl⟩ := List.mem_map.mp hpath
            have hrewrites := mem_changes_iff.mp hmem
            obtain ⟨settings, content, outcome, hsettings, hignored, hread, hprocess, houtput⟩ :=
              hrewrites.output
            rw [Outcome.eq_updated_of_output houtput] at hprocess
            refine ⟨options.forFile settings, text, ⟨loaded, _, settings, hfound, htargets,
              List.mem_append_left rest hrewrites.isTarget, hsettings, hignored, rfl⟩, ?_⟩
            exact newText?_eq_some_iff.mpr ⟨hrewrites.unlocked, content, hread, hprocess⟩

/-- A session that finds the same configuration and the same ignored files as the session before it,
which returned, is that session once more. -/
theorem run_again_of_same [Platform] {code : Nat}
    (hreturns : (run store patterns options reporting).outcome = .ok code)
    (hafter : (run store patterns options reporting).store = after)
    (hconfig : findConfig after configNames = findConfig store configNames)
    (hignore : options.useIgnoreFile = true → storeIgnoreGlobs after = storeIgnoreGlobs store) :
    run after patterns options reporting = run store patterns options reporting := by
  rcases exists_targets_of_run hreturns with
    ⟨error, -, -, hstore, -⟩ | ⟨loaded, files, hfound, htargets, hdone⟩
  · rw [← hafter, hstore]
  · have hrun := run_of_processFiles hfound htargets rfl hdone
    have hfiles : files.Pairwise CodeText.Before := pairwise_targets htargets
    obtain rfl : (processFiles (usedConfig loaded) options reporting.fault? store files).store
        = after := by rw [← hafter, hrun]
    have htargets' : sessionTargets (processFiles (usedConfig loaded) options reporting.fault?
        store files).store (usedConfig loaded) patterns options = .ok files :=
      (isolated_of_processFiles hfiles hdone).sameFiles.targets_eq hignore htargets
    rw [hrun, run_of_processFiles (hconfig.trans hfound) htargets'
      (processFiles_again hfiles rfl hdone) hdone]

/-- A second session writes only files that the first one, which returned, did not process with the
same options; and if it finds the same configuration and the same ignored files, as it does if the
first one left those files as they were, it is the first one once more and writes nothing. -/
theorem run_again [Platform] {code : Nat}
    (hreturns : (run store patterns options reporting).outcome = .ok code)
    (hafter : (run store patterns options reporting).store = after) :
    (∃ paths, (run after patterns options reporting).store.written = after.written ++ paths ∧
      ∀ path ∈ paths, ∃ fileOptions, Treats after patterns options path fileOptions ∧
        ¬ Treats store patterns options path fileOptions) ∧
    (findConfig after configNames = findConfig store configNames →
      (options.useIgnoreFile = true → storeIgnoreGlobs after = storeIgnoreGlobs store) →
      run after patterns options reporting = run store patterns options reporting) ∧
    ((∀ name ∈ configNames, after.bytes? name = store.bytes? name) →
      (options.useIgnoreFile = true → after.bytes? ignoreFileName = store.bytes? ignoreFileName) →
      run after patterns options reporting = run store patterns options reporting) := by
  refine ⟨?_, run_again_of_same hreturns hafter, fun hnames hignore => ?_⟩
  · obtain ⟨paths, hwritten, hpaths⟩ := exists_written_of_run after patterns options reporting
    refine ⟨paths, hwritten, fun path hpath => ?_⟩
    obtain ⟨fileOptions, text, htreats, hnew⟩ := hpaths path hpath
    refine ⟨fileOptions, htreats, ?_⟩
    rintro ⟨loaded, files, settings, hfound, htargets, htarget, hsettings, hignored, rfl⟩
    rcases exists_targets_of_run hreturns with
      ⟨error, herror, -⟩ | ⟨loaded', files', hfound', htargets', hdone⟩
    · rw [hfound] at herror
      cases herror
    · obtain rfl := Except.ok.inj (hfound.symm.trans hfound')
      obtain rfl := Except.ok.inj (htargets.symm.trans htargets')
      have hisolated := isolated_of_processFiles (pairwise_targets htargets) hdone
      rw [run_of_processFiles hfound htargets rfl hdone] at hafter
      dsimp only at hafter
      rw [hafter] at hisolated
      -- The first session has settled the file.
      rw [hisolated.newText?_again htarget hsettings hignored] at hnew
      cases hnew
  · exact run_again_of_same hreturns hafter (findConfig_congr hnames)
      fun huse => storeIgnoreGlobs_congr (hignore huse)

end Again

/-- After its keys are in order, a file is processed again and not written. -/
theorem run_again_swapped :
    (run (MemoryStore.ofFiles [(codeText "a.json",
        Utf8.encode "\x7b\n\t\"b\": 0,\n\t\"a\": null\n\x7d\n".toList)])
      [codeText "a.json"] ⟨false, true, false, false, 2, some 0, [], false⟩
      ⟨true, false, .kept⟩).outcome = .ok 0 ∧
    (run (MemoryStore.ofFiles [(codeText "a.json",
        Utf8.encode "\x7b\n\t\"b\": 0,\n\t\"a\": null\n\x7d\n".toList)])
      [codeText "a.json"] ⟨false, true, false, false, 2, some 0, [], false⟩
      ⟨true, false, .kept⟩).store.written = [codeText "a.json"] ∧
    run (run (MemoryStore.ofFiles [(codeText "a.json",
          Utf8.encode "\x7b\n\t\"b\": 0,\n\t\"a\": null\n\x7d\n".toList)])
        [codeText "a.json"] ⟨false, true, false, false, 2, some 0, [], false⟩
        ⟨true, false, .kept⟩).store
      [codeText "a.json"] ⟨false, true, false, false, 2, some 0, [], false⟩ ⟨true, false, .kept⟩
      = run (MemoryStore.ofFiles [(codeText "a.json",
          Utf8.encode "\x7b\n\t\"b\": 0,\n\t\"a\": null\n\x7d\n".toList)])
        [codeText "a.json"] ⟨false, true, false, false, 2, some 0, [], false⟩
        ⟨true, false, .kept⟩ := by
  have hreturns := congrArg Session.outcome run_swapped
  have hafter := congrArg Session.store run_swapped
  refine ⟨hreturns, by rw [hafter]; rfl, ?_⟩
  refine (run_again hreturns rfl).2.2 (fun name hname => ?_) fun h => absurd h Bool.false_ne_true
  rw [hafter, MemoryStore.bytes?_record, if_neg]
  rintro rfl
  exact absurd hname (by decide)

/-! ## Configurations that sessions rewrite -/

section Candidates

variable {store : MemoryStore} {name : CodeText} {text : Text}

/-- A candidate that holds a document is a configuration to be checked. -/
theorem readCandidate_of_parseDocument [Platform] (hread : store.read name = .ok text) {v : Value}
    (hv : Json.parseDocument text = .ok v) : readCandidate store name = .ok (some v) := by
  have hread' : FileStore.read store name = .ok text := hread
  simp only [readCandidate, hread', decodeConfig, Json.decode_extended hv]

/-- A candidate that starts with no token is passed over. -/
theorem readCandidate_of_scanToken_error [Platform] (hread : store.read name = .ok text)
    (hmark : '\uFEFF' ∉ text.head?) {reason : Json.Stop}
    (hscan : Json.scanToken (Json.skipBlanks text) = .error reason) :
    readCandidate store name = .ok none := by
  have hread' : FileStore.read store name = .ok text := hread
  obtain ⟨complaint, position, hdecode⟩ :=
    (Json.decode_of_scanToken_error hmark hscan :
      ∃ complaint position, Json.decode .extended text = .error (.malformed complaint position))
  simp only [readCandidate, hread', decodeConfig, hdecode]

end Candidates

/-- A configuration by which all keys are to be in order, as its own are not. -/
def swappedConfig : Value :=
  .map (stringMembers [(codeText "sortFrom", .int 0), (codeText "include", .list [])])

/-- The configuration is a document value. -/
theorem isDocument_swappedConfig : swappedConfig.IsDocument := by
  refine .map (by decide) (by decide) ?_
  simp only [List.forall_mem_cons]
  exact ⟨.scalar trivial (Nat.pow_pos (by decide)), .list (List.forall_mem_nil _),
    List.forall_mem_nil _⟩

/-- With a comment in front, the configuration loses the comment where comments may be lost. -/
theorem processText_commented_swappedConfig :
    processText ⟨false, true, true, false, 2, 1, []⟩
        "/**/\x7b\n\t\"sortFrom\": 0,\n\t\"include\": []\n\x7d\n".toList
      = .ok (.updated (Json.printDocument (.spaces 1) swappedConfig)) := by
  have hdetect : Comment.detect
      "/**/\x7b\n\t\"sortFrom\": 0,\n\t\"include\": []\n\x7d\n".toList = true := by
    simp [Comment.detect, Comment.emptyLiterals, Comment.hasMarker]
  have hstrip : Comment.strip
      "/**/\x7b\n\t\"sortFrom\": 0,\n\t\"include\": []\n\x7d\n".toList
      = Json.printDocument .tabs swappedConfig := by
    rfl
  simp only [processText, hdetect, hstrip, Bool.not_true, Bool.and_false, Bool.false_eq_true,
    if_false, if_true,
    Json.parseDocument_printDocument .tabs isDocument_swappedConfig (by decide)]
  rw [processValue_of_printed (by cbv) (by rfl)]
  rfl

/-- Without the comment, the configuration gets its keys in order. -/
theorem exists_processText_swappedConfig :
    ∃ text, processText ⟨false, true, true, false, 2, 0, []⟩
      (Json.printDocument (.spaces 1) swappedConfig) = .ok (.updated text) := by
  refine ⟨Json.printDocument (.spaces 1) (.map (stringMembers
    [(codeText "include", .list []), (codeText "sortFrom", .int 0)])), ?_⟩
  rw [processText_printDocument (.spaces 1) isDocument_swappedConfig (by decide),
    processValue_of_printed (by cbv) (by rfl)]
  rfl

/-- A session may change its own configuration: the first one takes a comment out of the file, so
that the second one reads the file, finds it to ask for order, and writes it again. -/
theorem run_again_uncommented :
    ∃ after again,
      run (MemoryStore.ofFiles [(codeText ".sortjsonrc.json",
          Utf8.encode "/**/\x7b\n\t\"sortFrom\": 0,\n\t\"include\": []\n\x7d\n".toList)])
        [codeText ".sortjsonrc.json"] ⟨false, true, true, false, 2, none, [], true⟩
        ⟨true, false, .kept⟩ = { lines := [], store := after, outcome := .ok 0 } ∧
      run after [codeText ".sortjsonrc.json"] ⟨false, true, true, false, 2, none, [], true⟩
        ⟨true, false, .kept⟩ = { lines := [], store := again, outcome := .ok 0 } ∧
      after.written = [codeText ".sortjsonrc.json"] ∧
      again.written = [codeText ".sortjsonrc.json", codeText ".sortjsonrc.json"] := by
  have hfirst := processText_commented_swappedConfig
  obtain ⟨text', hsecond⟩ := exists_processText_swappedConfig
  have hread := Json.parseDocument_printDocument (.spaces 1) isDocument_swappedConfig (by decide)
  have hmark : '\uFEFF' ∉
      "/**/\x7b\n\t\"sortFrom\": 0,\n\t\"include\": []\n\x7d\n".toList.head? := by
    decide
  have hscan : Json.scanToken (Json.skipBlanks
      "/**/\x7b\n\t\"sortFrom\": 0,\n\t\"include\": []\n\x7d\n".toList) = .error .unknown := by
    rfl
  generalize "/**/\x7b\n\t\"sortFrom\": 0,\n\t\"include\": []\n\x7d\n".toList = content at *
  generalize Json.printDocument (.spaces 1) swappedConfig = text at *
  generalize hstore : MemoryStore.ofFiles [(codeText ".sortjsonrc.json", Utf8.encode content)]
    = store
  generalize hafter : store.record (codeText ".sortjsonrc.json", text) = after
  have hunlocked : codeText ".sortjsonrc.json" ∉ store.locked := by
    rw [← hstore]
    exact List.not_mem_nil
  have hcontent : store.read (codeText ".sortjsonrc.json") = .ok content :=
    MemoryStore.read_of_bytes? (by rw [← hstore]; rfl)
  have htext : after.read (codeText ".sortjsonrc.json") = .ok text :=
    MemoryStore.read_of_bytes? (by rw [← hafter]; rfl)
  have hfound : findConfig store configNames = .ok none := by
    rw [configNames, findConfig, readCandidate_of_scanToken_error hcontent hmark hscan, ← hstore]
    rfl
  have hfound' : findConfig after configNames = .ok (some ⟨codeText ".sortjsonrc.json",
      { schemaUrl := none, included := [], ignored := [], sortFrom := 0, files := [] }⟩) := by
    rw [configNames, findConfig, readCandidate_of_parseDocument htext hread]
    rfl
  have hfile : processFile store (codeText ".sortjsonrc.json")
      (RunOptions.forFile ⟨false, true, true, false, 2, none, [], true⟩ ⟨1, false, none, none⟩)
      = _ := processFile_updated hunlocked hcontent hfirst
  have hfile' : processFile after (codeText ".sortjsonrc.json")
      (RunOptions.forFile ⟨false, true, true, false, 2, none, [], true⟩ ⟨0, false, none, none⟩)
      = _ := processFile_updated (by rw [← hafter]; exact hunlocked) htext hsecond
  rw [hafter] at hfile
  refine ⟨after, after.record (codeText ".sortjsonrc.json", text'),
    Eq.trans (run_path (by decide) rfl hfound rfl rfl hfile rfl rfl) rfl,
    Eq.trans (run_path (by decide) rfl hfound' rfl rfl hfile' rfl rfl) rfl, ?_, ?_⟩
  · rw [← hafter, ← hstore]
    rfl
  · rw [← hafter, ← hstore]
    rfl

end KeyOrder
