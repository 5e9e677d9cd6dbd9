/-
# The viewer

The viewer holds a source, the run on it, and what the user sees of it: focus,
offsets of the panes and a message. Keys change it; switching the dialect writes the
output again from the tree at hand, and reloading reads the file again. Drawing
brings the offsets back to their pages and notes the height of a page.

Key definitions: `Viewer`, `Viewer.start`, `Key`, `Viewer.press`, `Viewer.draw`.
-/
import MiniC.Pipeline
import MiniC.View.Output
import MiniC.View.Source
import MiniC.View.Status
import MiniC.View.Tokens
import MiniC.View.Tree

namespace MiniC

/-- How far each pane is scrolled down. -/
structure Offsets where
  source : Nat := 0
  tokens : Nat := 0
  tree : Nat := 0
  output : Nat := 0
  deriving DecidableEq

/-- Changes the offset of one pane. -/
def Offsets.modify (o : Offsets) (pane : Pane) (f : Nat → Nat) : Offsets :=
  match pane with
  | .source => { o with source := f o.source }
  | .tokens => { o with tokens := f o.tokens }
  | .tree => { o with tree := f o.tree }
  | .output => { o with output := f o.output }

/-- The state of the viewer. -/
structure Viewer where
  path : String
  source : String
  dialect : Dialect
  run : Run
  focus : Pane := .source
  offsets : Offsets := {}
  /-- The rows that a page key scrolls, noted when drawing. -/
  pageHeight : Nat := 10
  quit : Bool := false
  message : String

/-- The keys that mean something to the viewer, and all others. -/
inductive Key where
  | tab
  | backTab
  | up
  | down
  | pageUp
  | pageDown
  | home
  | escape
  | char (c : Char)
  | other
  deriving DecidableEq

/-- The key with this name; a single character names itself. -/
def Key.ofName (name : String) : Key :=
  match name with
  | "Tab" => .tab
  | "BackTab" => .backTab
  | "Up" => .up
  | "Down" => .down
  | "PageUp" => .pageUp
  | "PageDown" => .pageDown
  | "Home" => .home
  | "Esc" => .escape
  | name =>
    match name.toList with
    | [c] => .char c
    | _ => .other

/-- One line on a run: its first diagnostic, and how many more there are. -/
def Run.summary (r : Run) : String :=
  match r.diagnostics with
  | [] => "Ready!"
  | [d] => d.describe
  | d :: more => d.describe ++ " (+" ++ toString more.length ++ " more)"

/-- What each phase of a run made. -/
def Run.phases (r : Run) : Phases :=
  { tokens := r.tokens.length
    lexerWarnings := r.diagnostics.countP (·.stage = .lexer)
    nodes := r.tree.items.length
    parserWarnings := r.diagnostics.countP (·.stage = .parser)
    outputLines := (Text.lines r.output).length }

namespace Viewer

/-- The viewer on a source that was read from `path`. -/
def start (path source : String) (dialect : Dialect) : Viewer :=
  let r := MiniC.run source dialect
  { path, source, dialect, run := r, message := r.summary }

/-- Writes the output in the other dialect. -/
def switchDialect (v : Viewer) : Viewer :=
  let dialect := v.dialect.toggle
  { v with
    dialect
    run := { v.run with output := emit dialect v.run.tree }
    offsets := { v.offsets with output := 0 }
    message := "Switched to " ++ dialect.name }

/-- Runs on the file as it is now, given its text or why it cannot be read. -/
def reload (v : Viewer) (file : Except String String) : Viewer :=
  match file with
  | .ok source =>
    let r := MiniC.run source v.dialect
    { v with source, run := r, message := "Reloaded: " ++ r.summary }
  | .error reason =>
    { v with message := "Reload failed for '" ++ v.path ++ "': " ++ reason }

/-- Scrolls the pane with the focus. -/
def scroll (v : Viewer) (f : Nat → Nat) : Viewer :=
  { v with offsets := v.offsets.modify v.focus f }

/-- Scrolls the pane with the focus down by `rows`, as far as a machine word can count. -/
def scrollDown (v : Viewer) (rows : Nat) : Viewer :=
  v.scroll fun offset => min (offset + rows) (UInt64.size - 1)

/-- Handles a key, with the file as it is now. -/
def press (v : Viewer) (file : Except String String) : Key → Viewer
  | .escape | .char 'q' | .char 'Q' => { v with quit := true }
  | .tab => { v with focus := v.focus.next }
  | .backTab => { v with focus := v.focus.prev }
  | .up => v.scroll (· - 1)
  | .down => v.scrollDown 1
  | .pageUp => v.scroll (· - v.pageHeight)
  | .pageDown => v.scrollDown v.pageHeight
  | .home => v.scroll fun _ => 0
  | .char 'd' | .char 'D' => v.switchDialect
  | .char 'r' | .char 'R' => v.reload file
  | .char _ | .other => v

/-- The areas of the panes and of the status bar. -/
structure Panes where
  source : Area
  tokens : Area
  output : Area
  tree : Area
  status : Area

/-- Source over tokens on the left, output over tree on the right, the status bar in
the last row. -/
def panes (σ : Type) [Terminal σ] (a : Area) : Panes :=
  let (main, status) := @Terminal.split σ _ .rows (.allBut 1) a
  let (left, right) := @Terminal.split σ _ .columns (.percentages 50 50) main
  let (source, tokens) := @Terminal.split σ _ .rows (.percentages 65 35) left
  let (output, tree) := @Terminal.split σ _ .rows (.percentages 65 35) right
  ⟨source, tokens, output, tree, status⟩

/-- Draws the viewer on a blank screen. -/
def draw {σ : Type} [Terminal σ] (v : Viewer) (width height : Nat) : σ × Viewer :=
  let s : σ := Terminal.blank width height
  let p := panes σ (Terminal.area s)
  let marked := v.run.diagnostics.map (·.location.line)
  let (s, source) := drawSource s p.source (v.focus = .source) v.source marked v.offsets.source
  let (s, tokens) := drawTokens s p.tokens (v.focus = .tokens) v.run.tokens v.offsets.tokens
  let (s, output) :=
    drawOutput s p.output (v.focus = .output) v.run.output v.dialect v.offsets.output
  let (s, tree) := drawTree s p.tree (v.focus = .tree) v.run.tree v.offsets.tree
  let s := drawStatus s p.status v.message v.run.phases v.dialect
  (s, { v with offsets := ⟨source, tokens, tree, output⟩, pageHeight := visibleHeight p.tokens })

end Viewer

end MiniC
