/-
# Terminals

What the viewer asks of a terminal: a blank screen of some size, to cut an area in two,
and to draw paragraphs and lists in an area. Nothing is said here of what is seen then;
a terminal is any type of screens with these operations, and the viewer is written for
all of them.

Key definitions: `Style`, `Area`, `Frame`, `Paragraph`, `Terminal`.
-/
namespace MiniC

/-- A colour: the terminal's own, black, or one given by its parts. -/
inductive Color where
  | reset
  | black
  | rgb (red green blue : Nat)
  deriving DecidableEq

/-- A change of style: what it does not set stays as it was. -/
structure Style where
  fg : Option Color := none
  bg : Option Color := none
  bold : Bool := false
  deriving DecidableEq

namespace Style

/-- Changes nothing. -/
def plain : Style := {}

/-- Sets the foreground. -/
def ink (color : Color) : Style := { fg := some color }

/-- Sets the foreground and makes it bold. -/
def boldInk (color : Color) : Style := { fg := some color, bold := true }

end Style

/-- A part of a text in one style. -/
structure Span where
  text : String
  style : Style := .plain
  deriving DecidableEq

/-- A rectangle of a screen. -/
structure Area where
  x : Nat
  y : Nat
  width : Nat
  height : Nat
  deriving DecidableEq

/-- A border with a title; `padding` columns on its left stay free. -/
structure Frame where
  title : String
  style : Style
  padding : Nat := 0

/-- The side of an area at which a line of text stands. -/
inductive Alignment where
  | left
  | right

/-- Lines of text in a style of their own, inside a frame if there is one. -/
structure Paragraph where
  lines : List (List Span)
  style : Style := .plain
  frame : Option Frame := none
  alignment : Alignment := .left

/-- A row of a list: a line of text, and the style of the row. -/
structure ListRow where
  line : List Span
  style : Style := .plain

/-- The direction in which an area is cut. -/
inductive Axis where
  | columns
  | rows

/-- The lengths of two parts: so many hundredths each, or a fixed length for the second
and what remains for the first. -/
inductive Division where
  | percentages (first second : Nat)
  | allBut (last : Nat)

/-- A terminal with screens of type `σ`. -/
class Terminal (σ : Type) where
  /-- A screen with nothing on it. -/
  blank (width height : Nat) : σ
  /-- The whole of a screen. -/
  area (screen : σ) : Area
  /-- Cuts an area in two. -/
  split (axis : Axis) (division : Division) (a : Area) : Area × Area
  drawParagraph (screen : σ) (p : Paragraph) (a : Area) : σ
  drawList (screen : σ) (frame : Frame) (rows : List ListRow) (a : Area) : σ

end MiniC
