/-
# The status bar

On the left one chip for each phase with what it made and how many diagnostics it
recorded, then a message; on the right the keys and the dialect.

Key definitions: `Phases`, `drawStatus`.
-/
import MiniC.Dialect
import MiniC.View.Pane

namespace MiniC

/-- What each phase of a run made. -/
structure Phases where
  tokens : Nat
  lexerWarnings : Nat
  nodes : Nat
  parserWarnings : Nat
  outputLines : Nat
  deriving DecidableEq

namespace Status

def bar : Style := { bg := some Theme.statusBar }

def separator : Style := { bg := some Theme.statusBar, fg := some Theme.muted }

def description : Style := { bg := some Theme.statusBar, fg := some Theme.text }

def key : Style := { bg := some Theme.muted, fg := some .black }

/-- A label on a coloured ground. -/
def badge (ground : Color) : Style := { bg := some ground, fg := some .black, bold := true }

/-- The chip of a phase. -/
def chip (name : String) (count warnings : Nat) : Span :=
  if warnings = 0 then ⟨" ✓ " ++ name ++ " " ++ toString count ++ " ", badge Theme.ok⟩
  else
    ⟨" ! " ++ name ++ " " ++ toString count ++ " (" ++ toString warnings ++ " warn) ",
      badge Theme.warning⟩

/-- Phases and message. -/
def left (message : String) (p : Phases) : List Span :=
  [chip "tokenize" p.tokens p.lexerWarnings, ⟨" ", bar⟩, chip "parse" p.nodes p.parserWarnings,
    ⟨" ", bar⟩, chip "generate" p.outputLines 0, ⟨" | ", separator⟩,
    ⟨" " ++ message ++ " ", description⟩]

/-- A key and what it does. -/
def keyHint (name what : String) : List Span :=
  [⟨name, key⟩, ⟨" " ++ what ++ " ", description⟩, ⟨"│", separator⟩]

/-- Keys and dialect. -/
def right (dialect : Dialect) : List Span :=
  let blank : List Span := [⟨" ", description⟩]
  keyHint " ⇥ " "focus" ++ blank ++ keyHint " ↑/↓ " "scroll" ++ blank ++
    keyHint " d " "dialect" ++ blank ++ keyHint " r " "reload" ++ blank ++
    keyHint "q" "quit" ++ [⟨" " ++ dialect.name ++ " ", badge Theme.accent⟩]

end Status

/-- Draws the status bar. -/
def drawStatus {σ : Type} [Terminal σ] (s : σ) (a : Area) (message : String) (p : Phases)
    (dialect : Dialect) : σ :=
  let (left, right) := @Terminal.split σ _ .columns (.percentages 55 45) a
  let s := Terminal.drawParagraph s { lines := [Status.left message p], style := Status.bar } left
  Terminal.drawParagraph s
    { lines := [Status.right dialect], style := Status.bar, alignment := .right } right

end MiniC
