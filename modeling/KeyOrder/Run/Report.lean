import KeyOrder.Run.Batch
/-!
# Reports

A run prints a line for each file and a summary.  Colours are marked by escape
sequences, which are taken out again where the output is no terminal.  A line
that is written must have bytes, so one with an unpaired half ends the run.
-/

namespace KeyOrder

/-! ## Summaries -/

/-- How often a status occurs. -/
def countStatus (status : Status) (statuses : List Status) : Nat :=
  statuses.count status

/-- Whether a run with these results failed. -/
def runFailed (statuses : List Status) : Bool :=
  statuses.contains .error || statuses.contains .changed

/-- The exit code of a run with these results. -/
def exitCode (statuses : List Status) : Nat :=
  if runFailed statuses then 1 else 0

/-- The part of a summary about a status, unless nothing has it. -/
def summaryPart (statuses : List Status) (status : Status) : Option String :=
  let n := countStatus status statuses
  let word :=
    match status with
    | .success => "sorted"
    | .skipped => "skipped"
    | .error => if n = 1 then "error" else "errors"
    | .changed => "not sorted"
  if n = 0 then none else some (toString n ++ " " ++ word)

/-- The order in which a summary goes through the statuses. -/
def Status.all : List Status :=
  [.success, .skipped, .error, .changed]

/-- The summary of a run. -/
def summary (statuses : List Status) : String :=
  ", ".intercalate (Status.all.filterMap (summaryPart statuses))

/-! ## Lines -/

/-- The colours of a report. -/
inductive Colour where
  | green
  | yellow
  | red
  | grey

/-- The number of a colour in an escape sequence. -/
def Colour.number : Colour → Nat
  | green => 32
  | yellow => 33
  | red => 31
  | grey => 90

/-- A text in a colour. -/
def Colour.paint (colour : Colour) (text : CodeText) : CodeText :=
  codeText ("\x1b[" ++ toString colour.number ++ "m") ++ text ++ codeText "\x1b[0m"

/-- The sign of a status. -/
def Status.icon : Status → CodeText
  | success => Colour.green.paint (codeText "✓")
  | skipped => Colour.yellow.paint (codeText "⚠")
  | error => Colour.red.paint (codeText "✗")
  | changed => Colour.red.paint (codeText "✗")

/-- The depth that was used and where it comes from. -/
def FileResult.settingsText (result : FileResult) : CodeText :=
  let depth :=
    match result.sortFrom with
    | some depth => toString depth
    | none => "None"
  let origin :=
    match result.matchedPattern with
    | some pattern => codeText "pattern: \"" ++ pattern ++ codeText "\""
    | none => codeText "default"
  codeText ("[sortFrom=" ++ depth ++ ", ") ++ origin ++ codeText "]"

/-- The line about a file. -/
def FileResult.line (result : FileResult) (verbose : Bool) : CodeText :=
  let message :=
    match result.message with
    | none => ""
    | some message => if message.isEmpty then "" else " (" ++ message ++ ")"
  let settings := if verbose then codeText " " ++ Colour.grey.paint result.settingsText else []
  result.status.icon ++ codeText " " ++ result.path ++ codeText message ++ settings

/-! ## Plain text -/

/-- Whether a character may stand between the bracket and the letter of an escape sequence. -/
def isStyleParameter : CodePoint → Bool
  | .scalar c => c == ';' || c == '?' || c.isDigit
  | _ => false

/-- Whether a character ends an escape sequence. -/
def endsStyle : CodePoint → Bool
  | .scalar c => c.isAlpha
  | _ => false

/-- What follows the escape sequence whose escape character has been read, if there is one. -/
def afterStyle? : CodeText → Option CodeText
  | .scalar '[' :: rest =>
    match rest.dropWhile isStyleParameter with
    | c :: after => if endsStyle c then some after else none
    | [] => none
  | _ => none

/-- An escape sequence takes nothing back. -/
theorem length_afterStyle_le {text rest : CodeText} (h : afterStyle? text = some rest) :
    rest.length ≤ text.length := by
  unfold afterStyle? at h
  split at h
  · next tail =>
    have hdrop := (List.dropWhile_sublist (l := tail) isStyleParameter).length_le
    split at h
    · next heq =>
      rw [heq] at hdrop
      split at h
      · simp only [Option.some.injEq] at h
        subst h
        simp only [List.length_cons] at hdrop ⊢
        omega
      · simp at h
    · simp at h
  · simp at h

/-- A text without escape sequences. -/
def withoutStyles (text : CodeText) : CodeText :=
  match text with
  | [] => []
  | c :: rest =>
    if c = .scalar '\x1b' then
      match _h : afterStyle? rest with
      | some after => withoutStyles after
      | none => c :: withoutStyles rest
    else c :: withoutStyles rest
termination_by text.length
decreasing_by
  · have := length_afterStyle_le _h
    simp only [List.length_cons]
    omega
  · simp
  · simp

/-! ## Reporting -/

/-- Where lines go. -/
inductive Outlet where
  /-- Lines are kept as they are. -/
  | kept
  /-- Lines are written as bytes, without escape sequences. -/
  | written
  deriving DecidableEq

/-- How a session reports. -/
structure Reporting where
  /-- Whether only problems are reported. -/
  quiet : Bool
  /-- Whether the settings of each file are shown. -/
  verbose : Bool
  outlet : Outlet
  deriving DecidableEq

/-- Why a line cannot go to an outlet: it would have to be written and has no bytes. -/
def Outlet.fault? (outlet : Outlet) (line : CodeText) : Option Fault :=
  match outlet with
  | kept => none
  | written => (Utf8.encodeFault? (fun _ => false) (withoutStyles line)).map .output

/-- The line about a result; a quiet report leaves out successes. -/
def Reporting.line? (reporting : Reporting) (result : FileResult) : Option CodeText :=
  if reporting.quiet && result.status == .success then none
  else some (result.line reporting.verbose)

/-- Why a result cannot be reported. -/
def Reporting.fault? (reporting : Reporting) (result : FileResult) : Option Fault :=
  (reporting.line? result).bind reporting.outlet.fault?

end KeyOrder
