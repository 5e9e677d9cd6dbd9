/-
# Parsing statements and programs

The first token of a statement decides its form, and a token that starts none is
skipped, so every statement takes at least one token. Semicolons are taken where
they stand and never required. An `else` belongs to the nearest `if` that is still
open. A statement opens one level of nesting, and the recursion runs on the levels
left (`statement`).

Key definitions: `Parse.statement`, `Parse.program`, `parseTokens`, `parseSource`.
-/
import MiniC.Parse.Declaration
import MiniC.Token.Lexer

namespace MiniC
namespace Parse

/-- The body of a branch or loop: an empty block if no statement can be formed. -/
def body (statement : Parse (Option Node)) : Parse Node := do
  let start ← here
  return (← statement).getD (.block [] start)

/-- A condition with the parentheses around it. -/
def condition (expression : Parse (Option Node)) : Parse (Option Node) := do
  let _ ← acceptDelimiter "("
  let found ← expression
  closeGroup
  return found

def branchStatement (statement expression : Parse (Option Node)) (start : Location) :
    Parse (Option Node) := do
  advance
  let test ← condition expression
  let onTrue ← body statement
  let onFalse ← if ← accept .keyword "else" then some <$> body statement else pure none
  match test with
  | some test => return some (.branch test onTrue onFalse start)
  | none =>
    report .branchWithoutCondition start
    return none

def whileStatement (statement expression : Parse (Option Node)) (start : Location) :
    Parse (Option Node) := do
  advance
  let test ← condition expression
  let repeated ← body statement
  match test with
  | some test => return some (.whileLoop test repeated start)
  | none =>
    report .loopWithoutCondition start
    return none

/-- A statement that starts with a name: an assignment if an assignment operator
follows, an expression otherwise. -/
def nameStatement (expression : Parse (Option Node)) : Parse (Option Node) := do
  match (← get).rest with
  | target :: operator :: _ =>
    match if operator.kind = .operator then AssignOp.ofSymbol? operator.spelling else none with
    | none => plain
    | some op =>
      advance
      advance
      if op.isStep then
        let _ ← acceptDelimiter ";"
        return some (.assign target.spelling op none target.location)
      else
        match ← expression with
        | some value =>
          let _ ← acceptDelimiter ";"
          return some (.assign target.spelling op (some value) target.location)
        | none =>
          report (.assignmentWithoutValue target.spelling) target.location
          let _ ← acceptDelimiter ";"
          return none
  | _ => plain
where
  plain : Parse (Option Node) := do
    let value ← expression
    let _ ← acceptDelimiter ";"
    return value

/-- The first clause of a `for`, with the semicolon behind it. A declaration or
statement may have taken that semicolon already. -/
def forInit (statement expression : Parse (Option Node)) : Parse (Option Node) := do
  if ← acceptDelimiter ";" then
    return none
  else
    let init ← clause
    match (← get).last with
    | some t =>
      if t.is .delimiter ";" then
        return init
      else
        let _ ← acceptDelimiter ";"
        return init
    | none => return init
where
  clause : Parse (Option Node) := do
    match ← peek with
    | none =>
      report .unsupportedForInit (← here)
      return none
    | some t =>
      if t.isType then declaration statement expression
      else if t.kind = .identifier then nameStatement expression
      else
        report .unsupportedForInit t.location
        return none

/-- The second clause of a `for`, with the semicolon behind it. -/
def forCondition (expression : Parse (Option Node)) : Parse (Option Node) := do
  let test ← if ← looksAt .delimiter ";" then pure none else expression
  let _ ← acceptDelimiter ";"
  return test

/-- The third clause of a `for`, with the parenthesis behind it. -/
def forUpdate (expression : Parse (Option Node)) : Parse (Option Node) := do
  let update ←
    if ← looksAt .delimiter ")" then pure none
    else
      match ← peek with
      | some t => if t.kind = .identifier then nameStatement expression else expression
      | none => expression
  closeGroup
  return update

def forStatement (statement expression : Parse (Option Node)) (start : Location) : Parse Node := do
  advance
  let _ ← acceptDelimiter "("
  let init ← forInit statement expression
  let test ← forCondition expression
  let update ← forUpdate expression
  let repeated ← body statement
  return .forLoop init test update repeated start

def returnStatement (expression : Parse (Option Node)) (start : Location) : Parse Node := do
  advance
  let value ←
    match ← peek with
    | none => pure none
    | some t =>
      if t.is .delimiter ";" || t.is .delimiter closeBrace then pure none else expression
  let _ ← acceptDelimiter ";"
  return .ret value start

/-- The arguments of a `printf` or `scanf`, with the semicolon behind them. -/
def ioArguments (expression : Parse (Option Node)) : Parse (List Node) := do
  advance
  let args ← argumentList expression
  let _ ← acceptDelimiter ";"
  return args

/-- The statement that starts with the keyword `t`. -/
def keywordStatement (statement expression : Parse (Option Node)) (t : Token) :
    Parse (Option Node) := do
  if t.isType then declaration statement expression
  else if t.spelling = "if" then branchStatement statement expression t.location
  else if t.spelling = "while" then whileStatement statement expression t.location
  else if t.spelling = "for" then some <$> forStatement statement expression t.location
  else if t.spelling = "return" then some <$> returnStatement expression t.location
  else if t.spelling = "printf" then
    return some (.printf (← ioArguments expression) t.location)
  else if t.spelling = "scanf" then
    return some (.scanf (← ioArguments expression) t.location)
  else
    skip t
    return none

/-- The statement that starts with `t`, its parts being read by `statement` and
`expression`. -/
def statementFrom (statement expression : Parse (Option Node)) (t : Token) :
    Parse (Option Node) := do
  match t.kind with
  | .delimiter =>
    if t.is .delimiter "#" then directive t
    else if t.is .delimiter openBrace then
      return some (.block (← blockBody statement) t.location)
    else
      skip t
      return none
  | .keyword => keywordStatement statement expression t
  | .identifier => nameStatement expression
  | _ =>
    skip t
    return none

/-- A statement, when `levels` more levels may be opened. -/
def statement : (levels : Nat) → Parse (Option Node)
  | 0 => tooDeep
  | levels + 1 => do
    match ← peek with
    | none => return none
    | some t => nested (statementFrom (statement levels) (expression levels) t)

/-- All statements up to the end of the input. -/
def program : Parse Node := do
  let body ← collectUntil (fun _ => false) (statement maxNesting)
  return .program body

end Parse

/-- A tree and the diagnostics recorded on the way to it. -/
structure Parsing where
  tree : Node
  diagnostics : List Diagnostic

/-- Reads the program ahead of a cursor. -/
def Parsing.ofCursor (c : Cursor) : Parsing :=
  let (tree, c') := Parse.program.run c
  ⟨tree, c'.diagnostics⟩

/-- The tree of a token list. -/
def parseTokens (tokens : List Token) : Parsing :=
  .ofCursor (.ofTokens tokens [])

/-- The tree of a source text; the diagnostics of the lexer come first. -/
def parseSource (source : String) : Parsing :=
  let lexing := tokenize source
  .ofCursor (.ofTokens lexing.tokens lexing.diagnostics)

end MiniC
