/-
# Padding to a column width

Short texts are filled with blanks on one side; long ones stay as they are.

Key definitions: `padLeft`, `padRight`.
-/
namespace MiniC
namespace Text

/-- The blanks that `text` lacks to be `width` characters long. -/
def padding (width : Nat) (text : String) : String :=
  String.ofList (List.replicate (width - text.toList.length) ' ')

/-- The text moved to the right end of a column. -/
def padLeft (width : Nat) (text : String) : String := padding width text ++ text

/-- The text filled up to the width of a column. -/
def padRight (width : Nat) (text : String) : String := text ++ padding width text

end Text
end MiniC
