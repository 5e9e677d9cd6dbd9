/-
# Output dialects

The two languages a program can be written in, the names they answer to on the
command line, and how a comment starts in each.

Key definitions: `Dialect`, `Dialect.ofName`, `Dialect.toggle`.
-/
namespace MiniC

/-- An output language: one with types and braces, one with indentation. -/
inductive Dialect where
  | java
  | python
  deriving DecidableEq

/-- The name of a dialect that there is none of, in lower case. -/
structure UnknownDialect where
  name : String
  deriving DecidableEq

def UnknownDialect.message (e : UnknownDialect) : String := "Unknown dialect '" ++ e.name ++ "'"

namespace Dialect

def name : Dialect → String
  | java => "Java"
  | python => "Python"

/-- The other dialect. -/
def toggle : Dialect → Dialect
  | java => python
  | python => java

/-- What starts a comment that runs to the end of its line. -/
def commentMark : Dialect → String
  | java => "//"
  | python => "#"

/-- The text with its ASCII letters in lower case. -/
def lowered (text : String) : String := String.ofList (text.toList.map Char.toLower)

/-- The dialect called `name`, in upper or lower case. -/
def ofName (name : String) : Except UnknownDialect Dialect :=
  let lower := lowered name
  if lower ∈ ["java", "typed"] then .ok java
  else if lower ∈ ["python", "py", "indented"] then .ok python
  else .error ⟨lower⟩

end Dialect

end MiniC
