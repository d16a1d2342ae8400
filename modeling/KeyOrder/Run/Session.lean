import KeyOrder.Config.Load
import KeyOrder.Run.Report
import KeyOrder.Run.Targets
/-!
# Sessions

A session finds the configuration of a store, the files to process, processes
them and reports.
-/

namespace KeyOrder

/-- Where a line is printed. -/
inductive Channel where
  | output
  | error
  deriving DecidableEq, Repr

/-- A printed line. -/
structure Line where
  channel : Channel
  text : CodeText
  deriving DecidableEq

/-- What came of a session: the lines in order, the store afterwards, and the exit code or the
fault that ended it. -/
structure Session (σ : Type) where
  lines : List Line
  store : σ
  outcome : Except Fault Nat

/-- A line for the user. -/
def Line.out (text : String) : Line :=
  { channel := .output, text := codeText text }

/-- A line about an error. -/
def Line.err (text : String) : Line :=
  { channel := .error, text := codeText text }

/-- The lines about a configuration that is not valid. -/
def ConfigError.lines (error : ConfigError) : List Line :=
  .err ("Error: " ++ error.message) ::
    error.issues.tail.map fun issue => .err ("  " ++ issue.message)

/-- The line about a session without files. -/
def noFilesLine (patterns : List CodeText) : Line :=
  if patterns.isEmpty then
    .err "Error: No files found. Create .sortjsonrc.json or specify files."
  else .err "Error: No files found matching the patterns"

/-- The lines about results. -/
def Reporting.lines (reporting : Reporting) (results : List FileResult) : List Line :=
  (results.filterMap reporting.line?).map fun line => { channel := .output, text := line }

/-- Processes the files of a session with its configuration. -/
def runFiles [Platform] {σ : Type} [FileStore σ] (store : σ) (config : Config)
    (files : List CodeText) (options : RunOptions) (reporting : Reporting) : Session σ :=
  let batch := processFiles config options reporting.fault? store files
  let lines := reporting.lines batch.results
  let statuses := batch.results.map FileResult.status
  match batch.fault with
  | some fault => { lines, store := batch.store, outcome := .error fault }
  | none =>
    { lines := lines ++ (if reporting.quiet then [] else [.out "", .out (summary statuses)])
      store := batch.store
      outcome := .ok (exitCode statuses) }

/-- Runs a session with its configuration. -/
def runWith [Platform] {σ : Type} [FileStore σ] (store : σ) (config : Config)
    (patterns : List CodeText) (options : RunOptions) (reporting : Reporting) : Session σ :=
  let wanted := if patterns.isEmpty then config.included else patterns
  match targets store wanted (options.ignored ++ config.ignored) options.useIgnoreFile with
  | .error fault => { lines := [], store, outcome := .error fault }
  | .ok [] => { lines := [noFilesLine patterns], store, outcome := .ok 1 }
  | .ok files => runFiles store config files options reporting

/-- Runs a session: patterns stand for the files to process, and without them the configuration
says which. -/
def run [Platform] {σ : Type} [FileStore σ] (store : σ) (patterns : List CodeText)
    (options : RunOptions) (reporting : Reporting) : Session σ :=
  match findConfig store configNames with
  | .error (.config error) => { lines := error.lines, store, outcome := .ok 1 }
  | .error fault => { lines := [], store, outcome := .error fault }
  | .ok none => runWith store Config.default patterns options reporting
  | .ok (some loaded) =>
    let session := runWith store loaded.config patterns options reporting
    if reporting.verbose then
      { session with
        lines := .out ("Using config: " ++ loaded.source.shown) :: session.lines }
    else session

end KeyOrder
