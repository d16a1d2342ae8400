import KeyOrder.Run.Session
import KeyOrder.Run.TypedInteger
/-!
# The command line

Options and files may be mixed, and two dashes end the options.  Long options are
spelled in full; short flags may stand together, and one that takes a value takes
the rest of its group or the next argument.  The version and the help are shown
before any value is looked at, whichever of them comes first.  A fault that ends
a session early is kept beside its exit code.
-/

namespace KeyOrder.CommandLine

/-! ## Options -/

/-- The options without a value. -/
inductive Flag where
  | check
  | write (on : Bool)
  | force
  | tabs
  | ignoreFile (on : Bool)
  | quiet
  | verbose
  | version
  | help
  deriving DecidableEq

/-- The options with a value. -/
inductive Setting where
  | indent
  | sortFrom
  | ignored
  deriving DecidableEq

/-- What an option means: a flag, or a setting that takes a value. -/
abbrev Meaning := Flag ⊕ Setting

/-- The long options. -/
def longOptions : List (Text × Meaning) :=
  [("--check".toList, .inl .check), ("--write".toList, .inl (.write true)),
   ("--no-write".toList, .inl (.write false)), ("--force".toList, .inl .force),
   ("--indent".toList, .inr .indent), ("--tabs".toList, .inl .tabs),
   ("--sort-from".toList, .inr .sortFrom), ("--ignore".toList, .inr .ignored),
   ("--gitignore".toList, .inl (.ignoreFile true)),
   ("--no-gitignore".toList, .inl (.ignoreFile false)), ("--quiet".toList, .inl .quiet),
   ("--verbose".toList, .inl .verbose), ("--version".toList, .inl .version),
   ("--help".toList, .inl .help)]

/-- The short options. -/
def shortOptions : List (Char × Meaning) :=
  [('c', .inl .check), ('w', .inl (.write true)), ('f', .inl .force), ('i', .inr .indent),
   ('q', .inl .quiet), ('v', .inl .version), ('h', .inl .help)]

/-- What an argument says. -/
inductive Word where
  | flag (flag : Flag)
  | setting (setting : Setting) (value : Text)
  | file (path : Text)
  deriving DecidableEq

/-! ## Cutting arguments -/

/-- What a group of short options says, and the arguments that are left; none if an option is
unknown or its value is missing. -/
def shortWords? : Text → List Text → Option (List Word × List Text)
  | [], args => some ([], args)
  | c :: group, args =>
    match shortOptions.lookup c with
    | none => none
    | some (.inl flag) => (shortWords? group args).map fun found => (.flag flag :: found.1, found.2)
    | some (.inr setting) =>
      if group.isEmpty then
        match args with
        | [] => none
        | value :: args => some ([.setting setting value], args)
      else some ([.setting setting group], args)

/-- A text cut at its first equals sign. -/
def splitEquals (text : Text) : Text × Option Text :=
  match text.dropWhile (· != '=') with
  | [] => (text, none)
  | _ :: value => (text.takeWhile (· != '='), some value)

/-- What a long option says, and the arguments that are left. -/
def longWords? (arg : Text) (args : List Text) : Option (List Word × List Text) :=
  let (name, value) := splitEquals arg
  match longOptions.lookup name, value with
  | none, _ => none
  | some (.inl flag), none => some ([.flag flag], args)
  | some (.inl _), some _ => none
  | some (.inr setting), some value => some ([.setting setting value], args)
  | some (.inr setting), none =>
    match args with
    | [] => none
    | value :: args => some ([.setting setting value], args)

/-- What an argument says, and the arguments that are left. -/
def argWords? (arg : Text) (args : List Text) : Option (List Word × List Text) :=
  match arg with
  | '-' :: '-' :: _ => longWords? arg args
  | '-' :: c :: group => shortWords? (c :: group) args
  | _ => some ([.file arg], args)

/-- A group of short options takes no argument back. -/
theorem length_shortWords_le {group : Text} {args rest : List Text} {words : List Word}
    (h : shortWords? group args = some (words, rest)) : rest.length ≤ args.length := by
  fun_induction shortWords? group args generalizing words rest with
  | case1 => simp_all
  | case2 => simp at h
  | case3 args c group flag hflag ih =>
    simp only [Option.map_eq_some_iff, Prod.mk.injEq] at h
    obtain ⟨⟨ws, r⟩, hfound, -, rfl⟩ := h
    exact ih hfound
  | case4 => simp at h
  | case5 =>
    simp only [Option.some.injEq, Prod.mk.injEq] at h
    simp [← h.2]
  | case6 =>
    simp only [Option.some.injEq, Prod.mk.injEq] at h
    simp [← h.2]

/-- An argument takes no argument back. -/
theorem length_argWords_le {arg : Text} {args rest : List Text} {words : List Word}
    (h : argWords? arg args = some (words, rest)) : rest.length ≤ args.length := by
  unfold argWords? at h
  split at h
  · unfold longWords? at h
    simp only at h
    split at h
    · simp at h
    · simp only [Option.some.injEq, Prod.mk.injEq] at h
      simp [← h.2]
    · simp at h
    · simp only [Option.some.injEq, Prod.mk.injEq] at h
      simp [← h.2]
    · split at h
      · simp at h
      · simp only [Option.some.injEq, Prod.mk.injEq] at h
        simp [← h.2]
  · exact length_shortWords_le h
  · simp only [Option.some.injEq, Prod.mk.injEq] at h
    simp [← h.2]

/-- What arguments say; none if an option is unknown or lacks its value. -/
def words? (args : List Text) : Option (List Word) :=
  match args with
  | [] => some []
  | arg :: args =>
    if arg = ['-', '-'] then some (args.map .file)
    else
      match _h : argWords? arg args with
      | none => none
      | some (words, rest) => (words? rest).map fun others => words ++ others
termination_by args.length
decreasing_by
  have := length_argWords_le _h
  simp only [List.length_cons]
  omega

/-! ## Values -/

/-- An integer that is not below a bound. -/
def integerFrom? (least : Int) (value : Text) : Option Int := do
  let n ← typedInteger? value
  if least ≤ n then some n else none

/-! ## Requests -/

/-- What a command line asks for. -/
structure Request where
  options : RunOptions
  files : List CodeText
  quiet : Bool
  verbose : Bool

/-- How the session that a command line asks for reports: its lines are written. -/
def Request.reporting (request : Request) : Reporting :=
  { quiet := request.quiet, verbose := request.verbose, outlet := .written }

/-- What an empty command line asks for. -/
def Request.empty : Request :=
  { options :=
      { check := false, write := true, force := false, tabs := false, indent := 2
        sortFrom := none, ignored := [], useIgnoreFile := true }
    files := []
    quiet := false
    verbose := false }

/-- Changes the options of a request. -/
def Request.withOptions (request : Request) (change : RunOptions → RunOptions) : Request :=
  { request with options := change request.options }

/-- A request with a flag; those for the version and the help change nothing. -/
def Request.addFlag (request : Request) : Flag → Request
  | .check => request.withOptions fun o => { o with check := true }
  | .write on => request.withOptions fun o => { o with write := on }
  | .force => request.withOptions fun o => { o with force := true }
  | .tabs => request.withOptions fun o => { o with tabs := true }
  | .ignoreFile on => request.withOptions fun o => { o with useIgnoreFile := on }
  | .quiet => { request with quiet := true }
  | .verbose => { request with verbose := true }
  | .version => request
  | .help => request

/-- A request with a setting, unless its value is no good. -/
def Request.addSetting? (request : Request) (value : Text) : Setting → Option Request
  | .indent =>
    (integerFrom? 1 value).map fun n => request.withOptions fun o => { o with indent := n }
  | .sortFrom =>
    (integerFrom? 0 value).map fun n => request.withOptions fun o => { o with sortFrom := some n }
  | .ignored =>
    some (request.withOptions fun o => { o with ignored := o.ignored ++ [CodeText.ofText value] })

/-- A request with a further word. -/
def Request.add? (request : Request) : Word → Option Request
  | .flag flag => some (request.addFlag flag)
  | .setting setting value => request.addSetting? value setting
  | .file path => some { request with files := request.files ++ [CodeText.ofText path] }

/-! ## Commands -/

/-- What a command line means. -/
inductive Command where
  | version
  | help
  | run (request : Request)
  /-- The command line is not understood. -/
  | misused

/-- The command of a flag that is obeyed before all else. -/
def Word.command? : Word → Option Command
  | .flag .version => some .version
  | .flag .help => some .help
  | _ => none

/-- Only the last value of an option with one value counts, and only it is looked at. -/
def lastSettings : List Word → List Word
  | [] => []
  | .setting setting value :: rest =>
    let overruled := setting != .ignored && rest.any fun word =>
      match word with
      | .setting other _ => other == setting
      | _ => false
    if overruled then lastSettings rest else .setting setting value :: lastSettings rest
  | word :: rest => word :: lastSettings rest

/-- The command of a command line. -/
def Command.ofArgs (args : List Text) : Command :=
  match words? args with
  | none => misused
  | some words =>
    match words.findSome? Word.command? with
    | some command => command
    | none =>
      match (lastSettings words).foldlM Request.add? Request.empty with
      | some request => run request
      | none => misused

/-! ## Execution -/

/-- The version of the program. -/
def version : String :=
  "1.2.0"

/-- The help text. -/
def help : String :=
  "Usage: key-order [OPTIONS] [FILES]...\n\n" ++
  "Sorts the keys of JSON files. FILES are paths or patterns; without them the\n" ++
  "configuration says which files are sorted.\n\n" ++
  "  -c, --check        check only; exit with 1 if keys are not sorted\n" ++
  "  -w, --write / --no-write\n" ++
  "                     write changes to files\n" ++
  "  -f, --force        process files with comments (comments will be lost)\n" ++
  "  -i, --indent N     indentation width\n" ++
  "      --tabs         indent with tabs\n" ++
  "      --sort-from N  depth from which keys are sorted\n" ++
  "      --ignore P     leave out files that a pattern selects\n" ++
  "      --gitignore / --no-gitignore\n" ++
  "                     respect the ignore file\n" ++
  "  -q, --quiet        report problems only\n" ++
  "      --verbose      show the settings of each file\n" ++
  "  -v, --version      show the version\n" ++
  "  -h, --help         show this text"

/-- What a command printed and left behind, and the fault that ended it early. -/
structure Execution (σ : Type) where
  lines : List Line
  store : σ
  exitCode : Nat
  fault : Option Fault

/-- What a command printed that ended with an exit code and left the store as it is. -/
def Execution.printed {σ : Type} (store : σ) (exitCode : Nat) (line : Line) : Execution σ :=
  { lines := [line], store, exitCode, fault := none }

/-- What a session printed and left behind; a fault counts as failure. -/
def Execution.ofSession {σ : Type} (session : Session σ) : Execution σ :=
  match session.outcome with
  | .ok code =>
    { lines := session.lines, store := session.store, exitCode := code, fault := none }
  | .error fault =>
    { lines := session.lines, store := session.store, exitCode := 1, fault := some fault }

/-- The lines of an execution, and after them the fault that ended it. -/
def Execution.allLines {σ : Type} (execution : Execution σ) : List Line :=
  execution.lines ++
    (match execution.fault with
      | some fault => [.err ("Error: " ++ fault.message)]
      | none => [])

/-- Carries out a command. -/
def Command.execute [Platform] {σ : Type} [FileStore σ] (store : σ) : Command → Execution σ
  | version => .printed store 0 (.out CommandLine.version)
  | help => .printed store 0 (.out CommandLine.help)
  | misused => .printed store 2 (.err "Error: The command line is not understood. Try --help.")
  | run request =>
    .ofSession (KeyOrder.run store request.files request.options request.reporting)

/-- Carries out a command line. -/
def execute [Platform] {σ : Type} [FileStore σ] (store : σ) (args : List Text) : Execution σ :=
  (Command.ofArgs args).execute store

/-- The lines of a channel as one text, each with its line feed, without escape sequences. -/
def plainText (channel : Channel) (lines : List Line) : String :=
  String.join ((lines.filter (·.channel == channel)).map fun line =>
    (withoutStyles line.text).shown ++ "\n")

end KeyOrder.CommandLine
