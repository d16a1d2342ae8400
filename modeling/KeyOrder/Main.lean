import KeyOrder.Run.CommandLine
import KeyOrder.Store.Walk
/-!
# The program

The names of the files of the working directory arrive on standard input, one a
line; the command line is carried out on them, and files that changed are
written.
-/

namespace KeyOrder

/-- The directory with the given files. -/
def treeOfFiles (working : Path) (files : List (CodeText × List UInt8)) : Tree :=
  files.foldl (fun tree file => tree.put file.1 (.file file.2)) (Tree.empty working)

/-- The files that a session changed, with their new bytes. -/
def changedFiles (before after : Tree) : List (CodeText × List UInt8) :=
  after.files.filter fun file => before.files.lookup file.1 != some file.2

/-- Reads the files with the given names, one a line. -/
def readFiles (listing : Text) : IO (List (CodeText × List UInt8)) :=
  (listing.lines.filter (!·.isEmpty)).mapM fun name => do
    let bytes ← IO.FS.readBinFile (String.ofList name)
    return (CodeText.ofText name, bytes.toList)

/-- Prints a line on its channel; colours are for terminals only. -/
def printLine (line : Line) : IO Unit := do
  let stream ←
    match line.channel with
    | .output => IO.getStdout
    | .error => IO.getStderr
  if ← stream.isTty then stream.putStrLn line.text.shown
  else stream.putStrLn (withoutStyles line.text).shown

/-- Carries out a command line on the files named on standard input. -/
def carryOut (args : List String) : IO UInt32 := do
  let listing ← (← IO.getStdin).readToEnd
  let files ← readFiles listing.toList
  let directory ← IO.currentDir
  let before := treeOfFiles (Path.ofText (codeText (toString directory))) files
  let execution := CommandLine.execute before (args.map String.toList)
  execution.allLines.forM printLine
  (changedFiles before execution.store).forM fun file =>
    IO.FS.writeBinFile file.1.shown (ByteArray.mk file.2.toArray)
  return UInt32.ofNat execution.exitCode

end KeyOrder

/-- The program. -/
def main (args : List String) : IO UInt32 :=
  KeyOrder.carryOut args
