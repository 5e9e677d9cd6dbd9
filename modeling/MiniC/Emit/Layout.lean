/-
# Layout of generated code

Generated code is a list of lines, each with its level of indentation, and of gaps
that ask for blank lines before what follows. A gap at the start of the output
asks for nothing, and elsewhere it replaces the blank lines that are there. The
text of a line may hold newlines of its own; the rows behind the first are not
indented.

Key definitions: `Line`, `Item`, `Line.rows`, `Layout.rows`, `Layout.text`.
-/
import MiniC.Text.Lines

namespace MiniC

/-- A line of code, `depth` levels in. -/
structure Line where
  depth : Nat
  text : String
  deriving DecidableEq

/-- A line, or a gap of blank lines before the next one. -/
inductive Item where
  | line (l : Line)
  | gap (count : Nat)
  deriving DecidableEq

/-- The lines of `texts`, all at one level. -/
def atDepth (depth : Nat) (texts : List String) : List Line := texts.map (⟨depth, ·⟩)

/-- Four blanks for each level. -/
def indentation (depth : Nat) : String := String.ofList (List.replicate (4 * depth) ' ')

/-- The rows of text that a line makes. -/
def Line.rows (l : Line) : List String :=
  (Text.rows (indentation l.depth ++ l.text).toList).map String.ofList

namespace Layout

/-- Drops the blank rows at the end of the output, whose last row is given first;
a row that is the only one stays. -/
def settle : List String → List String
  | row :: above :: rest => if row = "" then settle (above :: rest) else row :: above :: rest
  | rows => rows

/-- The output, last row first, with one more item. -/
def push (output : List String) : Item → List String
  | .line l => l.rows.reverse ++ output
  | .gap count =>
    match output with
    | [] => []
    | rows => List.replicate count "" ++ settle rows

/-- The rows of a list of items. -/
def rows (items : List Item) : List String := (items.foldl push []).reverse

/-- The rows of a list of items, each ended by a newline. -/
def text (items : List Item) : String :=
  String.join ((rows items).map fun row => row ++ "\n")

end Layout

end MiniC
