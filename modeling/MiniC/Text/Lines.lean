/-
# Rows and lines of a text

`rows` cuts a text at every newline, so there is one row more than there are
newlines. `lines` are the rows as an editor counts them: the empty row behind a
final newline is none, and a carriage return before a newline belongs to it.

Key definitions: `rows`, `lines`.
-/
namespace MiniC
namespace Text

/-- The parts of a text between its newlines. -/
def rows : List Char → List (List Char)
  | [] => [[]]
  | c :: cs =>
    if c = '\n' then [] :: rows cs
    else
      match rows cs with
      | [] => [[c]]
      | row :: more => (c :: row) :: more

/-- The row without one carriage return at its end. -/
def dropReturn (row : List Char) : List Char :=
  if row.getLast? = some '\r' then row.dropLast else row

/-- The rows of a text as lines, the last one open if no newline ends it. -/
def linesOfRows : List (List Char) → List (List Char)
  | [] => []
  | [open_] => if open_ = [] then [] else [open_]
  | row :: next :: more => dropReturn row :: linesOfRows (next :: more)

/-- The lines of a text. -/
def lines (text : String) : List String :=
  (linesOfRows (rows text.toList)).map String.ofList

end Text
end MiniC
