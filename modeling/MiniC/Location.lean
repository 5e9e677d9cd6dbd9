/-
# Places in a source text

A place is a line and a column, both counted from 1, the column in characters.
A newline ends its line wherever it stands, also inside a literal or a comment,
so the place after a text depends on its characters alone (`Location.after`).

Key definitions: `Location`, `Location.step`, `Location.after`.
-/
namespace MiniC

/-- A line and a column. -/
structure Location where
  line : Nat
  column : Nat
  deriving DecidableEq, Inhabited

namespace Location

/-- The first character of a source text. -/
def start : Location := ⟨1, 1⟩

/-- The place of a token list that holds nothing. -/
def nowhere : Location := ⟨0, 0⟩

/-- The place right after the character `c` that stands at `l`. -/
def step (l : Location) (c : Char) : Location :=
  if c = '\n' then ⟨l.line + 1, 1⟩ else ⟨l.line, l.column + 1⟩

/-- The place right after a text that starts at `l`. -/
def after (l : Location) (cs : List Char) : Location :=
  cs.foldl step l

theorem after_nil (l : Location) : l.after [] = l := rfl

theorem after_cons (l : Location) (c : Char) (cs : List Char) :
    l.after (c :: cs) = (l.step c).after cs := rfl

theorem after_append (l : Location) (cs ds : List Char) :
    l.after (cs ++ ds) = (l.after cs).after ds :=
  List.foldl_append

end Location

end MiniC
