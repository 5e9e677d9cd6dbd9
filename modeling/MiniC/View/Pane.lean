/-
# The panes of the viewer

The viewer shows four panes: the source, its tokens, the syntax tree and the
output. The focus walks around them clockwise. A pane shows a window of its rows;
the window never leaves the rows behind, so the last page is as far as it scrolls.

Key definitions: `Pane`, `Theme`, `visibleHeight`, `clampOffset`, `paneFrame`.
-/
import MiniC.Terminal

namespace MiniC

/-- A pane of the viewer. -/
inductive Pane where
  | source
  | tokens
  | tree
  | output
  deriving DecidableEq

namespace Pane

/-- The next pane clockwise. -/
def next : Pane → Pane
  | source => output
  | output => tree
  | tree => tokens
  | tokens => source

/-- The next pane counter-clockwise. -/
def prev : Pane → Pane
  | source => tokens
  | tokens => tree
  | tree => output
  | output => source

end Pane

/-! ### Colours by role -/

namespace Theme

/-- Plain text, names, generated code. -/
def text : Color := .rgb 205 214 244

/-- Brackets, delimiters and the dialect badge. -/
def accent : Color := .rgb 137 180 250

/-- Operators and phases that recorded diagnostics. -/
def warning : Color := .rgb 250 179 135

/-- Line numbers, comments, places. -/
def muted : Color := .rgb 108 112 134

/-- Phases without diagnostics. -/
def ok : Color := .rgb 166 227 161

/-- Numbers of lines with a diagnostic. -/
def error : Color := .rgb 243 139 168

def keyword : Color := .rgb 203 166 247

def stringLiteral : Color := .rgb 166 227 161

def numberLiteral : Color := .rgb 250 179 135

def focusedBorder : Color := .rgb 249 226 175

def border : Color := .rgb 108 112 134

def statusBar : Color := .rgb 49 50 68

/-- Names of functions where they are called. -/
def call : Color := .rgb 249 226 175

/-- Type keywords and kinds of tree nodes. -/
def typeName : Color := .rgb 148 226 213

end Theme

/-- The frame of a pane; the one with the focus is bold. -/
def paneFrame (title : String) (focused : Bool) : Frame :=
  { title
    style := if focused then .boldInk Theme.focusedBorder else .ink Theme.border }

/-- The rows that a pane shows inside its frame, at least one. -/
def visibleHeight (a : Area) : Nat := max (a.height - 2) 1

/-- The offset nearest to `offset` at which a window of `visible` rows is filled,
as far as there are rows to fill it. -/
def clampOffset (total visible offset : Nat) : Nat :=
  if visible < total then min offset (total - visible) else 0

/-- The rows in a window. -/
def window {α : Type} (rows : List α) (visible offset : Nat) : List α :=
  (rows.drop offset).take visible

end MiniC
