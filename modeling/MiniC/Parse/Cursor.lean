/-
# The cursor of the parser

The parser walks a list of tokens without newlines up to the first end-of-input
mark: statements end by structure and not by line, and nothing behind the mark is
read. The cursor holds the tokens still ahead, the token read last, the
diagnostics recorded so far, the newest first, and how many levels of nesting are
open. A parser is a step on cursors.

Loops go on while they make progress: a round that takes no token is the last
one, which bounds every loop by the number of tokens ahead.

Key definitions: `Cursor`, `Cursor.ofTokens`, `Cursor.closeGroup`, `Parse`,
`Parse.collectUntil`, `Parse.nested`.
-/
import MiniC.Diagnostic
import MiniC.Node
import MiniC.Parse.Problem

namespace MiniC

/-- A place in a token list. -/
structure Cursor where
  /-- The tokens ahead: no newline and no end-of-input mark is among them. -/
  rest : List Token
  /-- The token read last. -/
  last : Option Token
  /-- Where the input ends. -/
  finish : Location
  /-- The diagnostics recorded so far, the newest first. -/
  log : List Diagnostic
  /-- The levels of nesting that are open. -/
  depth : Nat

namespace Cursor

/-- Where a token list without newlines ends: at its first end-of-input mark, or
else at its last token. -/
def finishOf (tokens : List Token) : Location :=
  match tokens.find? (·.kind = .endOfInput) with
  | some mark => mark.location
  | none => (tokens.getLast?.map Token.location).getD .nowhere

/-- The cursor in front of a token list, with diagnostics recorded before. -/
def ofTokens (tokens : List Token) (earlier : List Diagnostic) : Cursor :=
  let content := tokens.filter (·.kind ≠ .newline)
  { rest := content.takeWhile (·.kind ≠ .endOfInput)
    last := none
    finish := finishOf content
    log := earlier.reverse
    depth := 0 }

/-- The diagnostics recorded so far, the oldest first. -/
def diagnostics (c : Cursor) : List Diagnostic := c.log.reverse

/-- The place of the current token, or of the end of the input. -/
def here (c : Cursor) : Location :=
  match c.rest with
  | [] => c.finish
  | t :: _ => t.location

/-- The current token has this kind and spelling. -/
def looksAt (c : Cursor) (kind : Token.Kind) (text : String) : Bool :=
  match c.rest with
  | [] => false
  | t :: _ => t.is kind text

/-- The cursor one token further; it stays at the end of the input. -/
def advance (c : Cursor) : Cursor :=
  match c.rest with
  | [] => c
  | t :: ts => { c with rest := ts, last := some t }

/-- The cursor behind the longest run of tokens with `p`. -/
def skipWhile (c : Cursor) (p : Token → Bool) : Cursor :=
  { c with
    rest := c.rest.dropWhile p
    last := (c.rest.takeWhile p).getLast?.or c.last }

/-- The cursor with one more diagnostic. -/
def report (c : Cursor) (problem : SyntaxProblem) (l : Location) : Cursor :=
  { c with log := ⟨.parser, problem.message, l⟩ :: c.log }

/-- The tokens left in a group before the `)` that closes it, the group being
`depth` levels down. A brace or semicolon ends them too, so a missing `)` does
not reach into the next block. -/
def leftovers (depth : Nat) : List Token → List Token
  | [] => []
  | t :: ts =>
    if t.is .delimiter ")" then
      match depth with
      | 0 => []
      | depth + 1 => t :: leftovers depth ts
    else if t.is .delimiter "(" then t :: leftovers (depth + 1) ts
    else if t.is .delimiter openBrace || t.is .delimiter closeBrace || t.is .delimiter ";" then []
    else t :: leftovers depth ts

/-- The cursor behind the tokens left in a group, with one diagnostic for each. -/
def skipLeftovers (c : Cursor) : Cursor :=
  (leftovers 0 c.rest).foldl (fun c t => c.advance.report (.skippedInGroup t) t.location) c

/-- The cursor behind a group: behind what is left of it and the `)` that closes it. -/
def closeGroup (c : Cursor) : Cursor :=
  let c := c.skipLeftovers
  if c.looksAt .delimiter ")" then c.advance else c

end Cursor

/-- A parser: it reads from the cursor and moves it. -/
abbrev Parse := StateM Cursor

namespace Parse

/-- The current token. -/
def peek : Parse (Option Token) := fun c => (c.rest.head?, c)

def here : Parse Location := fun c => (c.here, c)

def advance : Parse Unit := fun c => ((), c.advance)

def report (problem : SyntaxProblem) (l : Location) : Parse Unit :=
  fun c => ((), c.report problem l)

def looksAt (kind : Token.Kind) (text : String) : Parse Bool := fun c => (c.looksAt kind text, c)

/-- Takes the current token if it has this kind and spelling, and tells so. -/
def accept (kind : Token.Kind) (text : String) : Parse Bool :=
  fun c => if c.looksAt kind text then (true, c.advance) else (false, c)

def acceptDelimiter (text : String) : Parse Bool := accept .delimiter text

/-- Takes the current token if it has this kind. -/
def acceptKind (kind : Token.Kind) : Parse (Option Token) := fun c =>
  match c.rest with
  | [] => (none, c)
  | t :: _ => if t.kind = kind then (some t, c.advance) else (none, c)

/-- Takes the longest run of tokens with `p`. -/
def takeWhile (p : Token → Bool) : Parse (List Token) :=
  fun c => (c.rest.takeWhile p, c.skipWhile p)

/-- Takes items until a token with `stop` or the end of the input. -/
def collectUntil {α : Type} (stop : Token → Bool) (item : Parse (Option α)) :
    Parse (List α) := fun c => go c
where
  go (c : Cursor) : List α × Cursor :=
    match c.rest with
    | [] => ([], c)
    | t :: _ =>
      if stop t then ([], c)
      else
        let found := item c
        if found.2.rest.length < c.rest.length then
          let more := go found.2
          (found.1.toList ++ more.1, more.2)
        else (found.1.toList, found.2)
  termination_by c.rest.length

/-- Skips what is left of a group and takes the `)` that closes it. -/
def closeGroup : Parse Unit := fun c => ((), c.closeGroup)

/-- Skips the current token. A semicolon alone is an empty statement and leaves
no diagnostic. -/
def skip (t : Token) : Parse Unit := do
  advance
  unless t.is .delimiter ";" do
    report (.skipped t) t.location

/-- Opens a level, reads what stands in it and closes the level. -/
def nested {α : Type} (inner : Parse α) : Parse α := fun c =>
  let found := inner { c with depth := c.depth + 1 }
  (found.1, { found.2 with depth := found.2.depth - 1 })

/-- Skips the current token because no more levels may be opened. -/
def tooDeep : Parse (Option Node) := do
  match ← peek with
  | none => return none
  | some t =>
    advance
    report (.tooDeep t) t.location
    return none

end Parse

end MiniC
