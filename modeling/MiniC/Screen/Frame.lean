/-
# Frames, paragraphs and lists

A frame is a border of lines with a title in its upper side. Where an area is a
single cell wide or high the sides fall together and the one drawn last is seen.
Inside a frame stands a paragraph, one line of text to a row, or a list, whose
items have a style for their whole row.

Key definitions: `Screen.drawFrame`, `Screen.drawParagraph`, `Screen.drawList`.
-/
import MiniC.Screen

namespace MiniC

/-- The area that a frame leaves for its content. -/
def Frame.content (f : Frame) (a : Area) : Area := a.inside.dropLeft f.padding

namespace Screen

/-- A vertical line of symbols down from `(x, y)`. -/
def putColumn (s : Screen) (x y height : Nat) (symbol : Char) (style : Style) : Screen :=
  (List.range height).foldl (fun s j => s.put x (y + j) symbol style) s

/-- A horizontal line of symbols right from `(x, y)`. -/
def putRow (s : Screen) (x y width : Nat) (symbol : Char) (style : Style) : Screen :=
  (List.range width).foldl (fun s i => s.put (x + i) y symbol style) s

/-- Draws a frame around an area that is not empty. -/
def drawFrame (s : Screen) (f : Frame) (a : Area) : Screen :=
  if a.isEmpty then s
  else
    let right := a.x + (a.width - 1)
    let bottom := a.y + (a.height - 1)
    let s := s.putColumn a.x a.y a.height '│' f.style
    let s := s.putRow a.x a.y a.width '─' f.style
    let s := s.putColumn right a.y a.height '│' f.style
    let s := s.putRow a.x bottom a.width '─' f.style
    let s := s.put right bottom '┘' f.style
    let s := s.put right a.y '┐' f.style
    let s := s.put a.x bottom '└' f.style
    let s := s.put a.x a.y '┌' f.style
    s.write (a.x + 1) a.y (a.width - 2) .left [{ text := f.title }]

/-- Draws lines of text from the top of an area, as many as fit. -/
def drawLines (s : Screen) (a : Area) (alignment : Alignment) (lines : List (List Span)) : Screen :=
  if a.isEmpty then s
  else
    ((lines.take a.height).zipIdx).foldl
      (fun s (line, j) => s.write a.x (a.y + j) a.width alignment line) s

/-- Draws a paragraph. -/
def drawParagraph (s : Screen) (p : Paragraph) (a : Area) : Screen :=
  let s := s.patch a p.style
  match p.frame with
  | none => s.drawLines a p.alignment p.lines
  | some f =>
    let content := f.content a
    ((s.drawFrame f a).patch content p.style).drawLines content p.alignment p.lines

/-- Draws one row of a list. -/
def drawListRow (s : Screen) (a : Area) (j : Nat) (row : ListRow) : Screen :=
  (s.patch ⟨a.x, a.y + j, a.width, 1⟩ row.style).write a.x (a.y + j) a.width .left row.line

/-- Draws a framed list, as many rows as fit. -/
def drawList (s : Screen) (f : Frame) (rows : List ListRow) (a : Area) : Screen :=
  let s := s.drawFrame f a
  let content := f.content a
  if content.isEmpty then s
  else
    ((rows.take content.height).zipIdx).foldl (fun s (row, j) => s.drawListRow content j row) s

end Screen

/-- Screens of cells make a terminal. -/
@[default_instance] instance : Terminal Screen where
  blank := Screen.blank
  area := Screen.area
  split := Area.split
  drawParagraph := Screen.drawParagraph
  drawList := Screen.drawList

end MiniC
