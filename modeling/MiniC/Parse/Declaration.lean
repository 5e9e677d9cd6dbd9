/-
# Parsing declarations

A declaration starts with type keywords and a name; it is a function if a
parenthesis follows and a variable otherwise. Only the first declarator of a
variable is kept. An include directive names a library in quotes or in angle
brackets; any other directive is skipped to the end of its line.

Key definitions: `Parse.directive`, `Parse.declaredType`, `Parse.parameters`,
`Parse.declaration`.
-/
import MiniC.Parse.Expression

namespace MiniC
namespace Parse

/-- Skips the tokens ahead that stand on this line. -/
def skipLine (line : Nat) : Parse Unit := do
  let _ ← takeWhile fun t => t.location.line = line

/-- The library named after `#include` on this line. -/
def library (line : Nat) : Parse String := do
  match ← acceptKind .string with
  | some t => return t.spelling
  | none =>
    if ← accept .operator "<" then
      let name ← takeWhile fun t => t.location.line = line && !t.is .operator ">"
      let _ ← accept .operator ">"
      return String.join (name.map Token.spelling)
    else
      report .expectedLibrary (← here)
      skipLine line
      return ""

/-- The directive that starts at `hash`. -/
def directive (hash : Token) : Parse (Option Node) := do
  advance
  if ← accept .identifier "include" then
    return some (.inclusion (← library hash.location.line) hash.location)
  else
    report .unsupportedDirective hash.location
    skipLine hash.location.line
    return none

/-- The type that a run of type keywords declares: the first of them, except that
`unsigned` and `signed` yield to the next. -/
def declaredType : List String → String
  | [] => ""
  | first :: more =>
    more.foldl (fun type word => if type = "unsigned" || type = "signed" then word else type) first

/-- A run of type keywords. -/
def typeName : Parse String := do
  let words ← takeWhile Token.isType
  return declaredType (words.map Token.spelling)

/-- One parameter, a comma between two, or a token that fits neither. -/
def parameter : Parse (Option Param) := do
  match ← peek with
  | none => return none
  | some t =>
    if t.is .delimiter "," then
      advance
      return none
    else if t.isType then
      let type ← typeName
      match ← acceptKind .identifier with
      | some name => return some ⟨name.spelling, type⟩
      | none =>
        -- `(void)` is an empty list
        let closes ← looksAt .delimiter ")"
        unless type = "void" && closes do
          report (.unnamedParameter type) t.location
        return none
    else
      advance
      report (.skippedParameter t) t.location
      return none

/-- The token ends a parameter list. -/
def endsParameters (t : Token) : Bool :=
  t.is .delimiter ")" || t.is .delimiter openBrace || t.is .delimiter ";"

/-- The parameters of a function with the parentheses around them. -/
def parameters : Parse (List Param) := do
  let _ ← acceptDelimiter "("
  let params ← collectUntil endsParameters parameter
  let _ ← acceptDelimiter ")"
  return params

/-- Statements between braces. -/
def blockBody (statement : Parse (Option Node)) : Parse (List Node) := do
  let _ ← acceptDelimiter openBrace
  let body ← collectUntil (·.is .delimiter closeBrace) statement
  let _ ← acceptDelimiter closeBrace
  return body

/-- A function after its name: a definition if a block follows the parameters,
a prototype otherwise. -/
def functionRest (statement : Parse (Option Node)) (type : String) (name : Token) : Parse Node := do
  let params ← parameters
  if ← looksAt .delimiter openBrace then
    let body ← blockBody statement
    return .function ⟨name.spelling, type, params, false⟩ body name.location
  else
    let _ ← acceptDelimiter ";"
    return .function ⟨name.spelling, type, params, true⟩ [] name.location

/-- The initializer of a variable, if an equals sign follows its name. -/
def initializer (expression : Parse (Option Node)) (name : Token) : Parse (Option Node) := do
  if ← accept .operator "=" then
    match ← expression with
    | some value => return some value
    | none =>
      report (.missingInitializer name.spelling) name.location
      return none
  else
    return none

/-- Skips the declarators after the first. -/
def skipDeclarators (name : Token) : Parse Unit := do
  if ← looksAt .delimiter "," then
    report (.extraDeclarators name.spelling) (← here)
    let _ ← takeWhile fun t => !(t.is .delimiter ";" || t.is .delimiter closeBrace)

/-- A variable after its name. -/
def variableRest (expression : Parse (Option Node)) (type : String) (name : Token) : Parse Node := do
  let init ← initializer expression name
  skipDeclarators name
  let _ ← acceptDelimiter ";"
  return .declare name.spelling type init name.location

/-- A declaration, from its first type keyword. -/
def declaration (statement expression : Parse (Option Node)) : Parse (Option Node) := do
  let start ← here
  let type ← typeName
  match ← acceptKind .identifier with
  | none =>
    report (.expectedName type) start
    return none
  | some name =>
    if ← looksAt .delimiter "(" then
      return some (← functionRest statement type name)
    else
      return some (← variableRest expression type name)

end Parse
end MiniC
