/-
# Screens of character cells

A screen is a grid of cells, each with a symbol, two colours and a weight. What is
drawn later lies over what was drawn before: a symbol replaces the one that was
there, and a style changes only what it sets. Drawing outside the grid does
nothing.

Key definitions: `Cell`, `Area.split`, `Screen`, `Screen.patch`, `Screen.write`.
-/
import MiniC.Terminal

namespace MiniC

/-- A cell of the grid. -/
structure Cell where
  symbol : Char := ' '
  fg : Color := .reset
  bg : Color := .reset
  bold : Bool := false
  deriving DecidableEq

namespace Cell

/-- The cell with the colours that a style sets; bold is only ever added. -/
def patch (c : Cell) (s : Style) : Cell :=
  { c with fg := s.fg.getD c.fg, bg := s.bg.getD c.bg, bold := c.bold || s.bold }

/-- The cell with a symbol written over it. -/
def put (c : Cell) (symbol : Char) (s : Style) : Cell := { c.patch s with symbol }

end Cell

namespace Area

def isEmpty (a : Area) : Bool := a.width = 0 || a.height = 0

/-- The area without `n` columns on its left. -/
def dropLeft (a : Area) (n : Nat) : Area := { a with x := a.x + n, width := a.width - n }

/-- The area without the cells along its four sides. -/
def inside (a : Area) : Area := ⟨a.x + 1, a.y + 1, a.width - 2, a.height - 2⟩

/-- The length of the first part when `percent` hundredths of `n` are cut off, a half
counting as a whole. -/
def share (n percent : Nat) : Nat := (2 * n * percent + 100) / 200

/-- Cuts off a first part of this length. -/
def cut (a : Area) (n : Nat) : Axis → Area × Area
  | .columns => ({ a with width := n }, { a with x := a.x + n, width := a.width - n })
  | .rows => ({ a with height := n }, { a with y := a.y + n, height := a.height - n })

/-- The length of an area in a direction. -/
def extent (a : Area) : Axis → Nat
  | .columns => a.width
  | .rows => a.height

/-- The length of the first part when `n` is divided; the second one has the rest. -/
def firstPart (n : Nat) : Division → Nat
  | .percentages first _ => share n first
  | .allBut last => n - last

/-- Cuts an area in two. -/
def split (axis : Axis) (division : Division) (a : Area) : Area × Area :=
  a.cut (firstPart (a.extent axis) division) axis

end Area

/-- A grid of cells, row by row. -/
structure Screen where
  width : Nat
  height : Nat
  cells : Array Cell
  deriving DecidableEq

namespace Screen

/-- A screen with nothing on it. -/
def blank (width height : Nat) : Screen :=
  ⟨width, height, Array.replicate (width * height) {}⟩

/-- The whole grid. -/
def area (s : Screen) : Area := ⟨0, 0, s.width, s.height⟩

/-- Changes one cell. -/
def modifyAt (s : Screen) (x y : Nat) (f : Cell → Cell) : Screen :=
  if x < s.width && y < s.height then
    { s with cells := s.cells.modify (y * s.width + x) f }
  else s

/-- The cells cut into rows; where there are no columns there is nothing to cut. -/
def rows (s : Screen) : List (List Cell) :=
  if s.width = 0 then []
  else
    (List.range s.height).map fun y =>
      (s.cells.extract (y * s.width) (y * s.width + s.width)).toList

/-- Changes the style of an area. -/
def patch (s : Screen) (a : Area) (style : Style) : Screen :=
  (List.range a.height).foldl (fun s j =>
    (List.range a.width).foldl (fun s i => s.modifyAt (a.x + i) (a.y + j) (·.patch style)) s) s

/-- Writes one symbol. -/
def put (s : Screen) (x y : Nat) (symbol : Char) (style : Style) : Screen :=
  s.modifyAt x y (·.put symbol style)

/-- Writes symbols to the right, starting at `x`. -/
def putAll (s : Screen) (x y : Nat) : List (Char × Style) → Screen
  | [] => s
  | (symbol, style) :: more => (s.put x y symbol style).putAll (x + 1) y more

/-- The symbols of a line of text; newlines are left out. -/
def symbols (line : List Span) : List (Char × Style) :=
  line.flatMap fun span => (span.text.toList.filter (· ≠ '\n')).map fun c => (c, span.style)

/-- Writes a line of text in the row `y`, cut to `width` cells from `x` on. On the
right a line ends at the last of these cells, unless it is too long: it is cut at its
end, wherever it stands. -/
def write (s : Screen) (x y width : Nat) (alignment : Alignment) (line : List Span) : Screen :=
  let shown := (symbols line).take width
  match alignment with
  | .left => s.putAll x y shown
  | .right => s.putAll (x + (width - shown.length)) y shown

end Screen

end MiniC
