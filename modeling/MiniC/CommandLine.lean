/-
# The command line

The arguments name one input file, an output dialect and two flags; of several
dialects the last one counts. A run reports on the error stream what it read and
what it skipped. Then it writes the output, fails in strict mode if anything was
skipped, or opens the viewer.

Key definitions: `Options`, `UsageError`, `parseArguments`, `InputFile`, `Outcome`,
`commandLine`.
-/
import MiniC.Pipeline

namespace MiniC

/-- What the arguments ask for. -/
structure Options where
  input : String
  dialect : Dialect
  print : Bool
  strict : Bool
  deriving DecidableEq

/-- Why arguments are refused. -/
inductive UsageError where
  | dialectWithoutName
  | unknownDialect (e : UnknownDialect)
  | unknownOption (flag : String)
  | secondInput
  | noInput
  deriving DecidableEq

def UsageError.message : UsageError → String
  | dialectWithoutName => "--dialect requires a value"
  | unknownDialect e => e.message
  | unknownOption flag => "Unknown option '" ++ flag ++ "'"
  | secondInput => "Only one input file may be given"
  | noInput => "No input file provided"

/-- What the arguments read so far ask for. -/
structure Request where
  input : Option String := none
  dialect : Dialect := .java
  print : Bool := false
  strict : Bool := false
  deriving DecidableEq

/-- The argument is an option and no path. -/
def isOption (arg : String) : Bool :=
  match arg.toList with
  | '-' :: '-' :: _ => true
  | _ => false

/-- Reads arguments, from the left, into a request. -/
def readArguments (r : Request) : List String → Except UsageError Request
  | [] => .ok r
  | "--java" :: args => readArguments { r with dialect := .java } args
  | "--python" :: args => readArguments { r with dialect := .python } args
  | "--print" :: args => readArguments { r with print := true } args
  | "--strict" :: args => readArguments { r with strict := true } args
  | ["--dialect"] => .error .dialectWithoutName
  | "--dialect" :: name :: args =>
    match Dialect.ofName name with
    | .ok dialect => readArguments { r with dialect } args
    | .error e => .error (.unknownDialect e)
  | arg :: args =>
    if isOption arg then .error (.unknownOption arg)
    else
      match r.input with
      | some _ => .error .secondInput
      | none => readArguments { r with input := some arg } args

/-- The options that a list of arguments gives. -/
def parseArguments (args : List String) : Except UsageError Options :=
  match readArguments {} args with
  | .error e => .error e
  | .ok r =>
    match r.input with
    | none => .error .noInput
    | some input => .ok ⟨input, r.dialect, r.print, r.strict⟩

/-- How the program is called. -/
def usage (program : String) : String :=
  "Usage: " ++ program ++
    " <file.c> [--java | --python | --dialect <name>] [--print] [--strict]\n" ++
  "\n" ++
  "Options:\n" ++
  "  --java, --python   Output dialect (default: Java)\n" ++
  "  --dialect <name>   Same, by name: java, python\n" ++
  "  --print            Write the translation to stdout instead of opening the viewer\n" ++
  "  --strict           Fail if any part of the input was skipped\n" ++
  "\n" ++
  "Examples:\n" ++
  "  " ++ program ++ " demos/showcase.c            # Explore the pipeline in the viewer\n" ++
  "  " ++ program ++ " prog.c --python --print     # Translate to Python on stdout\n"

/-- What stands at a path. -/
inductive InputFile where
  | missing
  | directory
  | notText
  | text (source : String)

/-- How a run ends: with an exit status, or in the viewer. -/
inductive Ending where
  | exit (status : Nat)
  | view (options : Options) (source : String)

/-- What a run writes, and how it ends. -/
structure Outcome where
  stdout : String
  stderr : String
  ending : Ending

namespace Outcome

/-- A run that fails with a report. -/
def failure (report : String) : Outcome := ⟨"", report, .exit 1⟩

end Outcome

/-- The report on a run. -/
def report (options : Options) (r : Run) : String :=
  "Transpiling " ++ options.input ++ " to " ++ options.dialect.name ++ "...\n" ++
  "Read " ++ toString r.tokens.length ++ " tokens, " ++ toString r.tree.items.length ++
    " top-level declarations.\n" ++
  String.join (r.diagnostics.map fun d => "  " ++ d.describe ++ "\n")

/-- Runs the program on a source text. -/
def runOptions (options : Options) (source : String) : Outcome :=
  let r := run source options.dialect
  if options.strict && !r.diagnostics.isEmpty then
    .failure (report options r ++ "Strict mode: " ++ toString r.diagnostics.length ++
      " diagnostic(s), no output written.\n")
  else if options.print then ⟨r.output, report options r, .exit 0⟩
  else ⟨"", report options r, .view options source⟩

/-- Runs the program with these arguments, on the files that `files` finds. -/
def commandLine (program : String) (args : List String) (files : String → InputFile) : Outcome :=
  match parseArguments args with
  | .error e => .failure ("Error: " ++ e.message ++ "\n\n" ++ usage program)
  | .ok options =>
    match files options.input with
    | .missing => .failure ("Error: File '" ++ options.input ++ "' not found\n" ++ usage program)
    | .directory =>
      .failure "Error: Os \x7b code: 21, kind: IsADirectory, message: \"Is a directory\" \x7d\n"
    | .notText =>
      .failure ("Error: Error \x7b kind: InvalidData, " ++
        "message: \"stream did not contain valid UTF-8\" \x7d\n")
    | .text source => runOptions options source

end MiniC
