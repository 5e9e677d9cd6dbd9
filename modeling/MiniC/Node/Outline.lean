/-
# The outline of a tree

An outline has one line for each node, in the order of the source: two blanks for
each level, the role the node plays for its parent if it has one, and its label.

Key definitions: `Node.outline`.
-/
import MiniC.Node

namespace MiniC
namespace Node

/-- The outline of `n` as a child in `role`, `depth` levels down. -/
def outlineAt (depth : Nat) (role : Option String) (n : Node) : String :=
  String.ofList (List.replicate (2 * depth) ' ') ++
    (match role with
      | some name => name ++ ": "
      | none => "") ++
    n.label ++ "\n" ++
    String.join (n.children.attach.map fun child => outlineAt (depth + 1) child.1.1 child.1.2)
termination_by sizeOf n
decreasing_by exact sizeOf_child child.2

/-- The outline of a whole tree. -/
def outline (root : Node) : String := root.outlineAt 0 none

end Node
end MiniC
