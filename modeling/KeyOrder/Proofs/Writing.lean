import KeyOrder.Proofs.Octets
import KeyOrder.Run.Batch
import KeyOrder.Store.Memory
/-!
# What a batch writes

A batch goes through its files and writes the new texts of some of them.  Each file
is read before any text is written to it, so what comes of it is what would come
of it if it were the only file; and the store afterwards is the store before with
the new texts written, one after the other.
-/

namespace KeyOrder

/-! ## Writing texts -/

namespace MemoryStore

/-- The store after a text was written to a file. -/
def record (store : MemoryStore) (change : CodeText × Text) : MemoryStore :=
  { store.put change.1 (Utf8.encode change.2) with written := store.written ++ [change.1] }

/-- The store after texts were written, one after the other. -/
def recordAll (store : MemoryStore) (changes : List (CodeText × Text)) : MemoryStore :=
  changes.foldl record store

/-- Leaving out a key leaves the values of the others. -/
theorem lookup_filter_ne {path q : CodeText} (h : q ≠ path)
    (files : List (CodeText × List UInt8)) :
    (files.filter (·.1 != path)).lookup q = files.lookup q := by
  induction files with
  | nil => rfl
  | cons file files ih =>
      by_cases hfile : file.1 = path
      · rw [List.filter_cons_of_neg (by simp [hfile]), ih, List.lookup_cons,
          beq_eq_false_iff_ne.mpr (hfile ▸ h)]
      · rw [List.filter_cons_of_pos (by simp [hfile]), List.lookup_cons, List.lookup_cons, ih]

/-- A written file holds the bytes of its text, and all others hold what they held. -/
theorem bytes?_record (store : MemoryStore) (change : CodeText × Text) (q : CodeText) :
    (store.record change).bytes? q
      = if q = change.1 then some (Utf8.encode change.2) else store.bytes? q := by
  show ((change.1, Utf8.encode change.2) :: store.files.filter (·.1 != change.1)).lookup q = _
  rw [List.lookup_cons]
  split
  · next h => rw [if_pos (beq_iff_eq.mp h)]
  · next h =>
    have hne := beq_eq_false_iff_ne.mp h
    rw [if_neg hne, lookup_filter_ne hne]
    rfl

/-- Writing locks no file and unlocks none. -/
@[simp] theorem locked_recordAll (store : MemoryStore) (changes : List (CodeText × Text)) :
    (store.recordAll changes).locked = store.locked := by
  induction changes generalizing store with
  | nil => rfl
  | cons change changes ih => exact ih (store.record change)

/-- All writes are recorded in order. -/
@[simp] theorem written_recordAll (store : MemoryStore) (changes : List (CodeText × Text)) :
    (store.recordAll changes).written = store.written ++ changes.map Prod.fst := by
  induction changes generalizing store with
  | nil => exact (List.append_nil _).symm
  | cons change changes ih =>
      refine (ih (store.record change)).trans ?_
      rw [List.map_cons, ← List.singleton_append, ← List.append_assoc]
      rfl

/-- Texts may be written in two portions. -/
theorem recordAll_append (store : MemoryStore) (changes more : List (CodeText × Text)) :
    store.recordAll (changes ++ more) = (store.recordAll changes).recordAll more :=
  List.foldl_append

/-- A file that is not written holds what it held. -/
theorem bytes?_recordAll_of_not_mem (store : MemoryStore) {changes : List (CodeText × Text)}
    {q : CodeText} (h : ∀ change ∈ changes, change.1 ≠ q) :
    (store.recordAll changes).bytes? q = store.bytes? q := by
  induction changes generalizing store with
  | nil => rfl
  | cons change changes ih =>
      obtain ⟨hne, hrest⟩ := List.forall_mem_cons.mp h
      refine (ih (store.record change) hrest).trans ?_
      rw [bytes?_record, if_neg hne.symm]

/-- A file that is written once holds the bytes of its text. -/
theorem bytes?_recordAll_of_mem (store : MemoryStore) {changes : List (CodeText × Text)}
    (hdistinct : (changes.map Prod.fst).Nodup) {change : CodeText × Text} (h : change ∈ changes) :
    (store.recordAll changes).bytes? change.1 = some (Utf8.encode change.2) := by
  induction changes generalizing store with
  | nil => cases h
  | cons first changes ih =>
      obtain ⟨hfirst, hdistinct⟩ := List.nodup_cons.mp hdistinct
      rcases List.mem_cons.mp h with rfl | h
      · have hlater : ∀ later ∈ changes, later.1 ≠ change.1 :=
          fun later hlater heq => hfirst (heq ▸ List.mem_map_of_mem hlater)
        refine (bytes?_recordAll_of_not_mem (store.record change) hlater).trans ?_
        rw [bytes?_record, if_pos rfl]
      · exact ih (store.record first) hdistinct h

/-- What is read depends on the bytes of the file alone. -/
theorem read_eq_of_bytes? {store store' : MemoryStore} {path : CodeText}
    (h : store.bytes? path = store'.bytes? path) : store.read path = store'.read path := by
  unfold read
  rw [h]

/-- A file that holds the bytes of a text is read as the text. -/
theorem read_of_bytes? {store : MemoryStore} {path : CodeText} {text : Text}
    (h : store.bytes? path = some (Utf8.encode text)) : store.read path = .ok text := by
  simp only [read, h, Utf8.decode_encode]
  rfl

end MemoryStore

/-! ## One file alone -/

/-- The text that a file gets when it is processed with options; a locked file gets none. -/
def newText? [Platform] (store : MemoryStore) (path : CodeText) (options : ProcessOptions) :
    Option Text :=
  match store.read path with
  | .error _ => none
  | .ok content =>
    match processText options content with
    | .error _ => none
    | .ok outcome => if store.locked.contains path then none else outcome.output

/-- The text that a file gets depends on what it holds and whether it is locked. -/
theorem newText?_congr [Platform] {store store' : MemoryStore} {path : CodeText}
    (options : ProcessOptions)
    (hbytes : store.bytes? path = store'.bytes? path) (hlocked : store.locked = store'.locked) :
    newText? store path options = newText? store' path options := by
  unfold newText?
  rw [MemoryStore.read_eq_of_bytes? hbytes, hlocked]

section Processed

variable {store : MemoryStore} {path : CodeText} {options : ProcessOptions} {content text : Text}

/-- A file that is not locked is given its new text. -/
theorem processFile_updated [Platform] (hunlocked : path ∉ store.locked)
    (hread : store.read path = .ok content)
    (hprocess : processText options content = .ok (.updated text)) :
    processFile store path options
      = .ok (.ofOutcome path options (.updated text), store.record (path, text)) := by
  have hread' : FileStore.read store path = .ok content := hread
  have hwrite : FileStore.write store path text = .ok (store.record (path, text)) := by
    show store.write path text = _
    rw [MemoryStore.write, if_neg (by simpa using hunlocked)]
    rfl
  simp only [processFile, hread', hprocess, Outcome.output, hwrite]

/-- A file that is settled is not written. -/
theorem processFile_settled [Platform] (hread : store.read path = .ok content)
    (hprocess : processText options content = .ok .settled) :
    processFile store path options = .ok (.ofOutcome path options .settled, store) := by
  have hread' : FileStore.read store path = .ok content := hread
  simp only [processFile, hread', hprocess, Outcome.output]

end Processed

/-- What can come of a file: its store failed and stays as it is, or the file was read and
processed, and its new text was written, if it has one. -/
theorem processFile_cases [Platform] {σ : Type} [FileStore σ] {store after : σ} {path : CodeText}
    {options : ProcessOptions} {result : FileResult}
    (h : processFile store path options = .ok (result, after)) :
    (∃ fault, result = .failed path options fault ∧ after = store) ∨
      ∃ content outcome, FileStore.read store path = .ok content ∧
        processText options content = .ok outcome ∧ result = .ofOutcome path options outcome ∧
        (outcome.output = none ∧ after = store ∨
          ∃ text, outcome.output = some text ∧ FileStore.write store path text = .ok after) := by
  have hfailed : ∀ fault, reportFailure store path options fault = .ok (result, after) →
      result = .failed path options fault ∧ after = store := by
    intro fault hreport
    unfold reportFailure at hreport
    split at hreport
    · obtain ⟨rfl, rfl⟩ := Prod.mk.inj (Except.ok.inj hreport)
      exact ⟨rfl, rfl⟩
    · cases hreport
  unfold processFile at h
  split at h
  · exact Or.inl ⟨_, hfailed _ h⟩
  next content hread =>
  split at h
  · cases h
  next outcome hprocess =>
  split at h
  · next hnone =>
    obtain ⟨rfl, rfl⟩ := Prod.mk.inj (Except.ok.inj h)
    exact Or.inr ⟨content, outcome, hread, hprocess, rfl, Or.inl ⟨hnone, rfl⟩⟩
  next text hsome =>
  split at h
  · exact Or.inl ⟨_, hfailed _ h⟩
  · next hwrite =>
    obtain ⟨rfl, rfl⟩ := Prod.mk.inj (Except.ok.inj h)
    exact Or.inr ⟨content, outcome, hread, hprocess, rfl, Or.inr ⟨text, hsome, hwrite⟩⟩

/-- The result of a file is about that file. -/
theorem path_of_processFile [Platform] {store store' : MemoryStore} {path : CodeText}
    {options : ProcessOptions} {result : FileResult}
    (h : processFile store path options = .ok (result, store')) : result.path = path := by
  rcases processFile_cases h with ⟨fault, rfl, -⟩ | ⟨content, outcome, -, -, rfl, -⟩
  · rfl
  · rfl

/-- What comes of a file does not depend on other files, and the store afterwards differs by the new
text of the file. -/
theorem processFile_eq_ok [Platform] {store base store' : MemoryStore} {path : CodeText}
    {options : ProcessOptions} {result : FileResult}
    (hbytes : store.bytes? path = base.bytes? path) (hlocked : store.locked = base.locked)
    (h : processFile store path options = .ok (result, store')) :
    (∃ base', processFile base path options = .ok (result, base')) ∧
      store' = store.recordAll
        ((newText? base path options).toList.map fun text => (path, text)) := by
  have hread : FileStore.read store path = base.read path :=
    MemoryStore.read_eq_of_bytes? hbytes
  have hreadBase : FileStore.read base path = base.read path := rfl
  unfold processFile at h ⊢
  unfold newText?
  rw [hread] at h
  rw [hreadBase]
  cases hcontent : base.read path with
  | error fault =>
      simp only [hcontent, reportFailure] at h ⊢
      split at h
      · next hfile =>
        obtain ⟨rfl, rfl⟩ := Prod.mk.inj (Except.ok.inj h)
        exact ⟨⟨base, by rw [if_pos hfile]⟩, rfl⟩
      · cases h
  | ok content =>
      simp only [hcontent] at h ⊢
      cases houtcome : processText options content with
      | error fault => simp only [houtcome] at h; cases h
      | ok outcome =>
          simp only [houtcome] at h ⊢
          cases houtput : outcome.output with
          | none =>
              simp only [houtput, ite_self] at h ⊢
              obtain ⟨rfl, rfl⟩ := Prod.mk.inj (Except.ok.inj h)
              exact ⟨⟨base, rfl⟩, rfl⟩
          | some text =>
              simp only [houtput, FileStore.write, MemoryStore.write, List.contains_eq_mem,
                decide_eq_true_eq, hlocked] at h ⊢
              by_cases hdenied : path ∈ base.locked
              · simp only [if_pos hdenied] at h ⊢
                obtain ⟨rfl, rfl⟩ := Prod.mk.inj (Except.ok.inj h)
                exact ⟨⟨base, rfl⟩, rfl⟩
              · simp only [if_neg hdenied] at h ⊢
                obtain ⟨rfl, rfl⟩ := Prod.mk.inj (Except.ok.inj h)
                exact ⟨⟨_, rfl⟩, rfl⟩

/-! ## Files one after the other -/

section Batch

variable (base : MemoryStore) (config : Config) (options : RunOptions)

/-- The new text of a file with the settings for its path. -/
def change? [Platform] (path : CodeText) : Option (CodeText × Text) :=
  match config.resolve path with
  | .error _ => none
  | .ok settings =>
    if settings.ignored then none
    else (newText? base path (options.forFile settings)).map fun text => (path, text)

/-- The result of a file as the only one; files that are left alone have none. -/
def resultAlone? [Platform] (path : CodeText) : Option FileResult :=
  match config.resolve path with
  | .error _ => none
  | .ok settings =>
    if settings.ignored then none
    else
      match processFile base path (options.forFile settings) with
      | .error _ => none
      | .ok (result, _) => some { result with matchedPattern := settings.matchedPattern }

/-- A file gets its new text under its own path. -/
theorem fst_of_change? [Platform] {path : CodeText} {change : CodeText × Text}
    (h : change? base config options path = some change) : change.1 = path := by
  unfold change? at h
  split at h
  · cases h
  split at h
  · cases h
  · obtain ⟨text, -, rfl⟩ := Option.map_eq_some_iff.mp h
    rfl

/-- A file has a result as the only one, unless it is left alone. -/
def Reported [Platform] (path : CodeText) : Prop :=
  ∃ settings, config.resolve path = .ok settings ∧
    (resultAlone? base config options path).map FileResult.path
      = if settings.ignored then none else some path

/-- What a batch does with its first file: it ends there, or it writes the new text of the file and
goes on with the others. -/
theorem processFiles_cons [Platform] (stop? : FileResult → Option Fault) {path : CodeText}
    (paths : List CodeText) {store : MemoryStore} (hbytes : store.bytes? path = base.bytes? path)
    (hlocked : store.locked = base.locked) :
    (∃ reached, reached <+: [path] ∧
      (processFiles config options stop? store (path :: paths)).store
        = store.recordAll (reached.filterMap (change? base config options)) ∧
      (processFiles config options stop? store (path :: paths)).fault ≠ none) ∨
    Reported base config options path ∧
      (∀ result ∈ [path].filterMap (resultAlone? base config options), stop? result = none) ∧
      ∃ batch, batch = processFiles config options stop?
          (store.recordAll ([path].filterMap (change? base config options))) paths ∧
        processFiles config options stop? store (path :: paths)
          = { batch with
              results :=
                [path].filterMap (resultAlone? base config options) ++ batch.results } := by
  rw [processFiles]
  cases hsettings : config.resolve path with
  | error fault => exact Or.inl ⟨[], List.nil_prefix, rfl, Option.some_ne_none _⟩
  | ok settings =>
      dsimp only
      cases hignored : settings.ignored with
      | true =>
          have hchange : change? base config options path = none := by
            simp only [change?, hsettings, hignored, if_true]
          have hresult : resultAlone? base config options path = none := by
            simp only [resultAlone?, hsettings, hignored, if_true]
          rw [if_pos rfl, List.filterMap_cons_none hchange, List.filterMap_cons_none hresult]
          refine Or.inr ⟨⟨settings, hsettings, ?_⟩, List.forall_mem_nil _, _, rfl, rfl⟩
          rw [hresult, hignored]
          rfl
      | false =>
          rw [if_neg Bool.false_ne_true]
          cases hprocess : processFile store path (options.forFile settings) with
          | error fault => exact Or.inl ⟨[], List.nil_prefix, rfl, Option.some_ne_none _⟩
          | ok processed =>
              obtain ⟨result, store'⟩ := processed
              obtain ⟨⟨base', hbase⟩, rfl⟩ := processFile_eq_ok hbytes hlocked hprocess
              have hresult : resultAlone? base config options path
                  = some { result with matchedPattern := settings.matchedPattern } := by
                simp only [resultAlone?, hsettings, hignored, hbase, Bool.false_eq_true, if_false]
              have hchange : [path].filterMap (change? base config options)
                  = (newText? base path (options.forFile settings)).toList.map
                      fun text => (path, text) := by
                simp only [List.filterMap_cons, List.filterMap_nil, change?, hsettings, hignored,
                  Bool.false_eq_true, if_false]
                cases newText? base path (options.forFile settings) <;> rfl
              dsimp only
              rw [← hchange]
              split
              · exact Or.inl ⟨[path], List.prefix_refl _, rfl, Option.some_ne_none _⟩
              · next hgo =>
                rw [List.filterMap_cons_some hresult, List.filterMap_nil]
                refine Or.inr ⟨⟨settings, hsettings, ?_⟩, List.forall_mem_singleton.mpr hgo, _, rfl,
                  rfl⟩
                rw [hresult, hignored, Option.map_some, path_of_processFile hbase]
                rfl

/-- What a batch has done when it ends: new texts are written to the files that it has come to, and
if nothing ended it early these are all files and each has the result that it has alone. -/
theorem exists_reached_of_processFiles [Platform] (stop? : FileResult → Option Fault)
    {paths : List CodeText} (hpaths : paths.Nodup) {store : MemoryStore}
    (hbytes : ∀ path ∈ paths, store.bytes? path = base.bytes? path)
    (hlocked : store.locked = base.locked) :
    ∃ reached, reached <+: paths ∧
      (processFiles config options stop? store paths).store
        = store.recordAll (reached.filterMap (change? base config options)) ∧
      ((processFiles config options stop? store paths).fault = none →
        reached = paths ∧
        (∀ path ∈ paths, Reported base config options path) ∧
        (∀ result ∈ (processFiles config options stop? store paths).results,
          stop? result = none) ∧
        (processFiles config options stop? store paths).results
          = paths.filterMap (resultAlone? base config options)) := by
  induction paths generalizing store with
  | nil =>
      exact ⟨[], List.prefix_refl _, rfl, fun _ =>
        ⟨rfl, List.forall_mem_nil _, List.forall_mem_nil _, rfl⟩⟩
  | cons path paths ih =>
      obtain ⟨hpath, hrest⟩ := List.forall_mem_cons.mp hbytes
      obtain ⟨hfresh, hpaths⟩ := List.nodup_cons.mp hpaths
      rcases processFiles_cons base config options stop? paths hpath hlocked with
        ⟨reached, hreached, hstore, hfault⟩ | ⟨hreported, hgo, batch, rfl, hbatch⟩
      · exact ⟨reached, hreached.trans ⟨paths, rfl⟩, hstore, fun hnone => absurd hnone hfault⟩
      · -- Only the first file was written, so the others hold what they held at the start.
        have hlater : ∀ q ∈ paths, (store.recordAll
            ([path].filterMap (change? base config options))).bytes? q = base.bytes? q := by
          intro q hq
          rw [MemoryStore.bytes?_recordAll_of_not_mem, hrest q hq]
          rintro change hmem rfl
          obtain ⟨path', hpath', hchange⟩ := List.mem_filterMap.mp hmem
          rw [fst_of_change? base config options hchange, List.mem_singleton.mp hpath'] at hq
          exact hfresh hq
        obtain ⟨reached, hreached, hstore, hdone⟩ :=
          ih hpaths hlater ((MemoryStore.locked_recordAll _ _).trans hlocked)
        refine ⟨[path] ++ reached, (List.prefix_cons_inj path).mpr hreached, ?_, ?_⟩
        · rw [hbatch, List.filterMap_append, MemoryStore.recordAll_append]
          exact hstore
        · rw [hbatch]
          intro hnone
          obtain ⟨rfl, hothers, hgoOn, hresults⟩ := hdone hnone
          refine ⟨rfl, List.forall_mem_cons.mpr ⟨hreported, hothers⟩,
            List.forall_mem_append.mpr ⟨hgo, hgoOn⟩, ?_⟩
          exact (congrArg (List.filterMap _ [path] ++ ·) hresults).trans
            List.filterMap_append.symm

end Batch

end KeyOrder
