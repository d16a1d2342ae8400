import KeyOrder.Config.Settings
import KeyOrder.Run.Process
/-!
# Processing files

Files are processed one after the other, each with the settings for its path.  A
file that cannot be read or written is reported, and the others are processed all
the same; files that the settings leave alone are passed over.
-/

namespace KeyOrder

/-- What came of a file. -/
structure FileResult where
  path : CodeText
  status : Status
  message : Option String
  /-- The depth that was used. -/
  sortFrom : Option Int
  /-- The pattern whose rule decided. -/
  matchedPattern : Option CodeText
  deriving DecidableEq

/-- The result of a file whose store failed. -/
def FileResult.failed (path : CodeText) (options : ProcessOptions) (fault : FileFault) :
    FileResult :=
  { path, status := .error, message := some fault.message, sortFrom := some options.sortFrom
    matchedPattern := none }

/-- The result of an outcome. -/
def FileResult.ofOutcome (path : CodeText) (options : ProcessOptions) (outcome : Outcome) :
    FileResult :=
  { path, status := outcome.status, message := outcome.message, sortFrom := some options.sortFrom
    matchedPattern := none }

/-- A file whose store failed is reported, and the store stays as it is; a path that was never one
is no file to report. -/
def reportFailure {σ : Type} (store : σ) (path : CodeText) (options : ProcessOptions)
    (fault : FileFault) : Except Fault (FileResult × σ) :=
  if fault.concernsFile then .ok (.failed path options fault, store) else .error (.file fault)

/-- Processes a file: its result and the store afterwards. -/
def processFile [Platform] {σ : Type} [FileStore σ] (store : σ) (path : CodeText)
    (options : ProcessOptions) : Except Fault (FileResult × σ) :=
  match FileStore.read store path with
  | .error fault => reportFailure store path options fault
  | .ok content =>
    match processText options content with
    | .error fault => .error fault
    | .ok outcome =>
      match outcome.output with
      | none => .ok (.ofOutcome path options outcome, store)
      | some text =>
        match FileStore.write store path text with
        | .error fault => reportFailure store path options fault
        | .ok store => .ok (.ofOutcome path options outcome, store)

/-! ## Runs over files -/

/-- How a run treats its files. -/
structure RunOptions where
  check : Bool
  write : Bool
  force : Bool
  tabs : Bool
  indent : Int
  /-- The depth that overrules all settings. -/
  sortFrom : Option Int
  /-- Patterns of files that are left out. -/
  ignored : List CodeText
  /-- Whether the ignore file counts. -/
  useIgnoreFile : Bool

/-- How a file with the given settings is processed. -/
def RunOptions.forFile (options : RunOptions) (settings : Settings) : ProcessOptions :=
  { check := options.check
    write := options.write && !options.check
    force := options.force
    tabs := options.tabs
    indent := options.indent
    sortFrom := settings.depth options.sortFrom
    sortOrder := settings.sortOrder.getD [] }

/-- What came of files: the results in order up to the one that ended the run, the store
afterwards, and the fault that ended the run early. -/
structure Batch (σ : Type) where
  results : List FileResult
  store : σ
  fault : Option Fault

/-- A batch with a result before its others. -/
def Batch.after {σ : Type} (result : FileResult) (batch : Batch σ) : Batch σ :=
  { batch with results := result :: batch.results }

/-- Processes files in order; `stop?` says which results end the run, and why. -/
def processFiles [Platform] {σ : Type} [FileStore σ] (config : Config) (options : RunOptions)
    (stop? : FileResult → Option Fault) : σ → List CodeText → Batch σ
  | store, [] => { results := [], store, fault := none }
  | store, path :: paths =>
    match config.resolve path with
    | .error fault => { results := [], store, fault := some (.pattern fault) }
    | .ok settings =>
      if settings.ignored then processFiles config options stop? store paths
      else
        match processFile store path (options.forFile settings) with
        | .error fault => { results := [], store, fault := some fault }
        | .ok (processed, store) =>
          let result := { processed with matchedPattern := settings.matchedPattern }
          match stop? result with
          | some fault => { results := [], store, fault := some fault }
          | none => .after result (processFiles config options stop? store paths)

end KeyOrder
