/-
# The token pane

One row for each token: its place, its kind and its text.

Key definitions: `tokenRow`, `drawTokens`.
-/
import MiniC.Text.Pad
import MiniC.Token
import MiniC.View.Pane

namespace MiniC

/-- The colour of a kind of token. -/
def kindColor : Token.Kind → Color
  | .keyword => Theme.keyword
  | .identifier => Theme.text
  | .number => Theme.numberLiteral
  | .string => Theme.stringLiteral
  | .operator => Theme.warning
  | .delimiter => Theme.accent
  | .newline | .endOfInput => Theme.muted

/-- The text of a token in its row. -/
def shownText (t : Token) : String :=
  match t.kind with
  | .string => "\"" ++ t.spelling ++ "\""
  | .newline => "\\n"
  | _ => t.spelling

/-- A row of the token pane. -/
def tokenRow (t : Token) : List Span :=
  [⟨Text.padLeft 4 (toString t.location.line) ++ ":" ++
      Text.padRight 3 (toString t.location.column) ++ " ", .ink Theme.muted⟩,
    ⟨Text.padRight 10 t.kind.name ++ " ", .boldInk (kindColor t.kind)⟩,
    ⟨shownText t, .ink Theme.text⟩]

/-- Draws the token pane. -/
def drawTokens {σ : Type} [Terminal σ] (s : σ) (a : Area) (focused : Bool) (tokens : List Token)
    (offset : Nat) : σ × Nat :=
  let offset := clampOffset tokens.length (visibleHeight a) offset
  let rows := (window tokens (visibleHeight a) offset).map fun t => { line := tokenRow t : ListRow }
  let title := " Tokens (" ++ toString tokens.length ++ ") "
  (Terminal.drawList s (paneFrame title focused) rows a, offset)

end MiniC
