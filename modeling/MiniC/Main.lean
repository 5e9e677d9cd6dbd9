/-
# The program

Reads the input file, runs the command line on it and writes what it reports. The
viewer takes one key name from each line of the input and writes the screen after
each key.
-/
import MiniC.CommandLine
import MiniC.View.Session

namespace MiniC

/-- What stands at a path on the disk. -/
def readInput (path : String) : IO InputFile := do
  try
    match String.fromUTF8? (← IO.FS.readBinFile path) with
    | some source => return .text source
    | none => return .notText
  catch
    | .inappropriateType .. => return .directory
    | _ => return .missing

/-- The file of a session as it is now. -/
def readSessionFile (path : String) : IO (Option String) := do
  match ← readInput path with
  | .text source => return some source
  | _ => return none

/-- The symbols of a screen, row by row. -/
def Screen.show (s : Screen) : String :=
  String.join (s.rows.map fun row => String.ofList (row.map Cell.symbol) ++ "\n")

/-- Draws the viewer and handles keys until one quits it or the input ends. -/
partial def view (v : Viewer) : IO Unit := do
  let (screen, v) := v.draw 100 30
  (← IO.getStdout).putStr screen.show
  if v.quit then return
  let line ← (← IO.getStdin).getLine
  if line.isEmpty then return
  let session : Session := ⟨v, ← readSessionFile v.path⟩
  view (session.step (.press (Key.ofName (line.trimAscii.toString)))).viewer

end MiniC

open MiniC in
/-- Runs the program on its arguments. -/
def main (args : List String) : IO UInt32 := do
  let input ← match parseArguments args with
    | .ok options => readInput options.input
    | .error _ => pure .missing
  let outcome := commandLine "ctrans" args fun _ => input
  (← IO.getStderr).putStr outcome.stderr
  (← IO.getStdout).putStr outcome.stdout
  match outcome.ending with
  | .exit status => return status.toUInt32
  | .view options source =>
    view (.start options.input source options.dialect)
    return 0
