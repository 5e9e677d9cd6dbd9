/-
# From source text to output

A run keeps what every stage makes: tokens, tree, output, and the diagnostics of
the lexer followed by those of the parser. It never fails; a strict run takes any
diagnostic for a failure.

Key definitions: `emit`, `Run`, `run`, `transpile`, `transpileStrict`.
-/
import MiniC.Dialect
import MiniC.Emit.Java
import MiniC.Emit.Python
import MiniC.Parse.Statement

namespace MiniC

/-- A tree as text of a dialect. The root has to be a program. -/
def emit [Renderer] (dialect : Dialect) : Node → String
  | .program body =>
    match dialect with
    | .java => Java.program body
    | .python => Python.program body
  | _ => dialect.commentMark ++ " Error: expected a Program node at the AST root\n"

/-- All that one run makes of a source text. -/
structure Run where
  tokens : List Token
  tree : Node
  output : String
  diagnostics : List Diagnostic

/-- Runs all stages on a source text. -/
def run (source : String) (dialect : Dialect) : Run :=
  let lexing := tokenize source
  let parsing := parseTokens lexing.tokens
  { tokens := lexing.tokens
    tree := parsing.tree
    output := emit dialect parsing.tree
    diagnostics := lexing.diagnostics ++ parsing.diagnostics }

/-- The output for a source text. -/
def transpile (source : String) (dialect : Dialect) : String := (run source dialect).output

/-- The output for a source text of which nothing was skipped, or else the
diagnostics on what was. -/
def transpileStrict (source : String) (dialect : Dialect) : Except (List Diagnostic) String :=
  let r := run source dialect
  if r.diagnostics.isEmpty then .ok r.output else .error r.diagnostics

/-- The nodes right below a program; none below any other node. -/
def Node.items : Node → List Node
  | .program body => body
  | _ => []

end MiniC
