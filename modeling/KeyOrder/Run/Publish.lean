import KeyOrder.Config.Schema
import KeyOrder.Run.CommandLine
import KeyOrder.Store.Tree
/-!
# Publishing the schema

The schema of configurations is written to a file for editors to use.  The name of
the file follows an option on a command line, so it must not read as an option
itself: a name that starts with a minus sign is good only if it is the sign alone,
a negative number, or a text with a space that names no option.
-/

namespace KeyOrder.Publishing

/-- The options of the command; they may be cut short. -/
def options : List Text :=
  ["--help".toList, "--output".toList]

/-- Whether a text is a negative number without an exponent; a line feed may end it. -/
def isNegativeNumber : Text → Bool
  | '-' :: size =>
    let whole := size.takeWhile Char.isDigit
    match size.dropWhile Char.isDigit with
    | [] | ['\n'] => !whole.isEmpty
    | '.' :: fraction =>
      !(fraction.takeWhile Char.isDigit).isEmpty &&
        (fraction.dropWhile Char.isDigit == [] || fraction.dropWhile Char.isDigit == ['\n'])
    | _ => false
  | _ => false

/-- Whether an argument starts with the name of an option; after a name that is cut short an
equals sign or nothing follows. -/
def namesOption : Text → Bool
  | '-' :: 'h' :: _ => true
  | '-' :: '-' :: rest =>
    options.any fun option => (CommandLine.splitEquals ('-' :: '-' :: rest)).1.isPrefixOf option
  | _ => false

/-- Whether an argument reads as an option. -/
def isOption (arg : Text) : Bool :=
  match arg with
  | '-' :: _ :: _ => namesOption arg || !(isNegativeNumber arg || arg.contains ' ')
  | _ => false

/-- Writes the schema to a file of a tree; faults show the path as it was given. -/
def publish (tree : Tree) (output : CodeText) : Except FileFault (Line × Tree) := do
  let shown := (Path.ofText output).text
  let path ← tree.soundPath output
  let written ← (tree.writeBytes path (Utf8.encode Schema.document)).mapError (.system · shown)
  return (.out ("Generated: " ++ shown.shown), written)

/-- Publishes to the file that is named on the command line, or else to the usual one. -/
def execute (tree : Tree) (output? : Option Text) : CommandLine.Execution Tree :=
  if output?.any isOption then
    .printed tree 2 (.err "Error: The name of the output is missing.")
  else
    match publish tree (output?.elim Schema.defaultPath CodeText.ofText) with
    | .ok (line, written) => .printed written 0 line
    | .error fault => { lines := [], store := tree, exitCode := 1, fault := some (.file fault) }

end KeyOrder.Publishing
