/-
# The output pane

The generated code, comments in a colour of their own. Where there is none, the
pane says so and keeps its offset.

Key definitions: `drawOutput`.
-/
import MiniC.Dialect
import MiniC.Text.Blank
import MiniC.Text.Lines
import MiniC.View.Pane

namespace MiniC

/-- The line starts with a comment of the dialect, behind any blanks. -/
def isComment (dialect : Dialect) (line : String) : Bool :=
  dialect.commentMark.toList.isPrefixOf (Text.trimStart line.toList)

/-- A row of the output pane. -/
def outputRow (dialect : Dialect) (line : String) : ListRow :=
  { line := [{ text := line }]
    style := .ink (if isComment dialect line then Theme.muted else Theme.text) }

/-- Draws the output pane. -/
def drawOutput {σ : Type} [Terminal σ] (s : σ) (a : Area) (focused : Bool) (output : String)
    (dialect : Dialect) (offset : Nat) : σ × Nat :=
  let frame := paneFrame (" Output (" ++ dialect.name ++ ") ") focused
  if output = "" then
    let note : Paragraph :=
      { lines := [[{ text := "(no output)" }]], style := .ink Theme.muted, frame := some frame }
    (Terminal.drawParagraph s note a, offset)
  else
    let lines := Text.lines output
    let offset := clampOffset lines.length (visibleHeight a) offset
    let rows := (window lines (visibleHeight a) offset).map (outputRow dialect)
    (Terminal.drawList s { frame with padding := 1 } rows a, offset)

end MiniC
