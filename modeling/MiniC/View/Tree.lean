/-
# The syntax tree pane

One row for each node of the tree, in the order of the source: the indentation of
its level, its role and its label, the kind in a colour of its own.

Key definitions: `treeRows`, `drawTree`.
-/
import MiniC.Node
import MiniC.View.Pane

namespace MiniC

/-- What follows `start` in a text that starts so. -/
def Text.behind? (start text : String) : Option String :=
  if start.toList.isPrefixOf text.toList then some (String.ofList (text.toList.drop start.toList.length))
  else none

/-- The row of a node in `role`, `depth` levels down. The kind is cut off the label. -/
def treeRow (depth : Nat) (role : Option String) (n : Node) : List Span :=
  ⟨String.ofList (List.replicate (2 * depth) ' '), .plain⟩ ::
    role.toList.map (fun name => ⟨name ++ ": ", .ink Theme.muted⟩) ++
    [⟨n.kindName, .ink Theme.typeName⟩, ⟨(Text.behind? n.kindName n.label).getD "", .ink Theme.text⟩]

/-- The rows of a tree in `role`, `depth` levels down. -/
def treeRowsAt (depth : Nat) (role : Option String) (n : Node) : List (List Span) :=
  treeRow depth role n ::
    n.children.attach.flatMap fun child => treeRowsAt (depth + 1) child.1.1 child.1.2
termination_by sizeOf n
decreasing_by exact Node.sizeOf_child child.2

/-- The rows of a whole tree. -/
def treeRows (root : Node) : List (List Span) := treeRowsAt 0 none root

/-- Draws the syntax tree pane. -/
def drawTree {σ : Type} [Terminal σ] (s : σ) (a : Area) (focused : Bool) (root : Node) (offset : Nat) :
    σ × Nat :=
  let rows := treeRows root
  let offset := clampOffset rows.length (visibleHeight a) offset
  let shown := window rows (visibleHeight a) offset
  (Terminal.drawParagraph s { lines := shown, frame := some (paneFrame " Syntax Tree " focused) } a, offset)

end MiniC
