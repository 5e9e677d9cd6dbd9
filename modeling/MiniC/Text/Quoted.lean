/-
# Quoting raw literal text

Raw text holds its escape sequences as they were written: a backslash and the
character behind it. To stand between quotes again, the quotes that are not part
of a sequence get a backslash; the sequences stay.

Key definitions: `escape`, `quote`.
-/
namespace MiniC
namespace Text

/-- Puts a backslash before each `delimiter` that is not escaped already. -/
def escape (delimiter : Char) : List Char → List Char
  | [] => []
  | c :: cs =>
    if c = '\\' then
      match cs with
      | [] => [c]
      | escaped :: cs => c :: escaped :: escape delimiter cs
    else if c = delimiter then '\\' :: c :: escape delimiter cs
    else c :: escape delimiter cs

/-- The raw text with its bare double quotes escaped. -/
def escapeQuotes (raw : String) : String := String.ofList (escape '"' raw.toList)

/-- A literal in double quotes with this raw text. -/
def quote (raw : String) : String := "\"" ++ escapeQuotes raw ++ "\""

/-- A literal in single quotes with this raw text. -/
def singleQuote (raw : String) : String := "'" ++ String.ofList (escape '\'' raw.toList) ++ "'"

end Text
end MiniC
