/-
# Names that a function assigns

A function of the indented language has to name the globals it assigns. These are
the targets of its assignments and reads that a variable at the top level declares
and neither a parameter nor a declaration anywhere in its body does. A function
inside the body has a scope of its own and is not looked into.

Key definitions: `Node.declaredNames`, `Node.assignedNames`, `assignedGlobals`.
-/
import MiniC.Node

namespace MiniC
namespace Node

/-- The names that a statement declares. -/
def declaredNames : Node → List String
  | .declare name _ _ _ => [name]
  | .assign .. | .scanf .. | .function .. => []
  | n => n.children.attach.flatMap fun child => declaredNames child.1.2
termination_by n => sizeOf n
decreasing_by exact sizeOf_child child.2

/-- The name that a read fills: an identifier behind any prefix operators. -/
def readTarget? : Node → Option String
  | .identifier name _ => some name
  | .unary _ operand _ => readTarget? operand
  | _ => none

/-- The names that a statement assigns, in order. -/
def assignedNames : Node → List String
  | .assign target _ _ _ => [target]
  | .scanf args _ => args.filterMap readTarget?
  | .declare .. | .function .. => []
  | n => n.children.attach.flatMap fun child => assignedNames child.1.2
termination_by n => sizeOf n
decreasing_by exact sizeOf_child child.2

end Node

/-- The names among `globals` that a function with these parameters and this body
assigns, each once, in the order of first assignment. -/
def assignedGlobals (globals : List String) (params : List Param) (body : List Node) : List String :=
  let locals := params.map Param.name ++ body.flatMap Node.declaredNames
  ((body.flatMap Node.assignedNames).filter fun name =>
    globals.contains name && !locals.contains name).eraseDups

end MiniC
