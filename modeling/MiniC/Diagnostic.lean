/-
# Diagnostics

Reading a source text never fails: what cannot be understood is skipped, and
each such event leaves a diagnostic with the stage that saw it, its wording and
its place. `rejection` is the report of a strict run over the diagnostics it
will not accept.

Key definitions: `Stage`, `Diagnostic`, `Diagnostic.describe`, `rejection`.
-/
import MiniC.Location

namespace MiniC

/-- The stage that records a diagnostic. -/
inductive Stage where
  | lexer
  | parser
  deriving DecidableEq

/-- The stage's name in a report. -/
def Stage.name : Stage → String
  | .lexer => "Lexer"
  | .parser => "Parser"

/-- One skipped or incomplete part of the input. -/
structure Diagnostic where
  stage : Stage
  message : String
  location : Location
  deriving DecidableEq

/-- The one-line report of a diagnostic. -/
def Diagnostic.describe (d : Diagnostic) : String :=
  d.stage.name ++ " warning at line " ++ toString d.location.line ++ ", column " ++
    toString d.location.column ++ ": " ++ d.message

/-- The report of a strict run: how many diagnostics there are, then one
indented line for each. -/
def rejection (ds : List Diagnostic) : String :=
  let noun := if ds.length = 1 then "diagnostic" else "diagnostics"
  "Strict mode rejected the input (" ++ toString ds.length ++ " " ++ noun ++ ")" ++
    String.join (ds.map fun d => "\n  " ++ d.describe)

end MiniC
