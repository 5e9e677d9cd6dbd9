/-
# The tokens of a source text

Each lexeme among the pieces of a text gives one token, at the place of its first
character; blanks and comments give none. What cannot be read gives a diagnostic
instead: a character no rule takes, and a comment or literal whose end mark is
missing. The token list closes with one end-of-input token.

Key definitions: `LexicalProblem`, `Piece.token?`, `place`, `tokenize`.
-/
import MiniC.Diagnostic
import MiniC.Token
import MiniC.Token.Piece

namespace MiniC

/-- What can be wrong with one piece of a text. -/
inductive LexicalProblem where
  | unrecognized (c : Char)
  | unterminatedLiteral
  | unterminatedComment
  deriving DecidableEq

def LexicalProblem.message : LexicalProblem → String
  | unrecognized c => "Skipped unrecognized character '" ++ c.toString ++ "'"
  | unterminatedLiteral => "Unterminated string literal"
  | unterminatedComment => "Unterminated block comment"

namespace Piece

/-- The kind and spelling of a lexeme; blanks, comments and unknown characters
are none. -/
def lexeme? : Piece → Option (Token.Kind × List Char)
  | newline => some (.newline, ['\n'])
  | literal _ raw _ => some (.string, raw)
  | number digits => some (.number, digits)
  | word letters =>
    some (if isKeyword (String.ofList letters) then .keyword else .identifier, letters)
  | operator symbol => some (.operator, symbol)
  | delimiter c => some (.delimiter, [c])
  | blank _ | lineComment _ | blockComment _ _ | unknown _ => none

/-- The token of a piece that starts at `l`. -/
def token? (p : Piece) (l : Location) : Option Token :=
  p.lexeme?.map fun (kind, text) => ⟨kind, some (String.ofList text), l⟩

def problem? : Piece → Option LexicalProblem
  | unknown c => some (.unrecognized c)
  | literal _ _ false => some .unterminatedLiteral
  | blockComment _ false => some .unterminatedComment
  | _ => none

/-- The diagnostic of a piece that starts at `l`. -/
def diagnostic? (p : Piece) (l : Location) : Option Diagnostic :=
  p.problem?.map fun problem => ⟨.lexer, problem.message, l⟩

end Piece

/-- Each piece with the place where it starts, the first one starting at `l`. -/
def place (l : Location) : List Piece → List (Piece × Location)
  | [] => []
  | p :: ps => (p, l) :: place (l.after p.chars) ps

/-- The outcome of reading a text as tokens. -/
structure Lexing where
  tokens : List Token
  diagnostics : List Diagnostic

/-- The tokens of a source text and the diagnostics on what was skipped. -/
def tokenize (source : String) : Lexing :=
  let placed := place .start (pieces source.toList)
  { tokens := placed.filterMap (fun (p, l) => p.token? l) ++
      [.endAt (Location.start.after source.toList)]
    diagnostics := placed.filterMap fun (p, l) => p.diagnostic? l }

end MiniC
