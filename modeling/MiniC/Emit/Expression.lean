/-
# Expressions in the output languages

Parentheses stand only where they are needed: around an operand that binds looser
than its operator, or as loosely on the right, since all operators group from the
left. The indented language chains comparisons and binds `not` looser than they,
so it needs some more. Taking an address has no counterpart and leaves its
operand. A statement in the place of an expression is written as nothing.

Key definitions: `Spelling`, `Spelling.groups`, `Node.render`, `Renderer`.
-/
import MiniC.Node
import MiniC.Text.Quoted

namespace MiniC

/-- How expressions are spelled: in the typed language, in the indented one, and
in a replacement field inside a quoted template of the indented one. -/
inductive Spelling where
  | typed
  | indented
  | field
  deriving DecidableEq

/-- The node is an operation of two operands. -/
def Node.isBinary : Node → Bool
  | .binary .. => true
  | _ => false

/-- The node is a negation, of a number or of a truth value. -/
def Node.isNegation : Node → Bool
  | .unary .neg .. | .unary .not .. => true
  | _ => false

/-- The raw text of a string literal. -/
def Node.stringText? : Node → Option String
  | .literal value .string _ => some value
  | _ => none

namespace Spelling

def symbol : Spelling → BinOp → String
  | indented, .and | field, .and => "and"
  | indented, .or | field, .or => "or"
  | _, op => op.symbol

/-- The mark of logical negation, with the blank behind it. -/
def notMark : Spelling → String
  | typed => "!"
  | indented | field => "not "

/-- A string literal; inside a template the double quote would end the template. -/
def quote : Spelling → String → String
  | typed, raw | indented, raw => Text.quote raw
  | field, raw => Text.singleQuote raw

/-- The operand `child` binds looser than `parent`, or as loosely on its right. -/
def bindsLooser (parent : BinOp) (child : Node) (onRight : Bool) : Bool :=
  match child with
  | .binary op _ _ _ =>
    op.precedence < parent.precedence || (onRight && op.precedence = parent.precedence)
  | _ => false

/-- The operand `child` of `parent` is written in parentheses. -/
def groups (s : Spelling) (parent : BinOp) (child : Node) (onRight : Bool) : Bool :=
  bindsLooser parent child onRight ||
    match s, child with
    | typed, _ => false
    | _, .binary op _ _ _ => parent.isComparison && op.isComparison
    | _, .unary .not _ _ => parent != .and && parent != .or
    | _, _ => false

end Spelling

/-- The text, in parentheses if asked for. -/
def grouped (parenthesized : Bool) (text : String) : String :=
  if parenthesized then "(" ++ text ++ ")" else text

namespace Node

mutual

/-- The text of an expression. -/
def render (s : Spelling) : Node → String
  | .literal value .string _ => s.quote value
  | .literal value _ _ => value
  | .identifier name _ => name
  | .call name args _ => name ++ "(" ++ String.intercalate ", " (renderAll s args) ++ ")"
  | .binary op left right _ =>
    grouped (s.groups op left false) (render s left) ++ " " ++ s.symbol op ++ " " ++
      grouped (s.groups op right true) (render s right)
  | .unary .addressOf operand _ => render s operand
  | .unary .neg operand _ => "-" ++ grouped (operand.isBinary || operand.isNegation) (render s operand)
  | .unary .not operand _ => s.notMark ++ grouped operand.isBinary (render s operand)
  | .program .. | .inclusion .. | .function .. | .declare .. | .assign .. | .branch ..
  | .whileLoop .. | .forLoop .. | .ret .. | .printf .. | .scanf .. | .block .. => ""

/-- The texts of some expressions. -/
def renderAll (s : Spelling) : List Node → List String
  | [] => []
  | n :: ns => render s n :: renderAll s ns

end

end Node

/-- How the generators write the nodes that they hand over as expressions. -/
class Renderer where
  render : Spelling → Node → String

instance : Renderer := ⟨Node.render⟩

@[simp] theorem Renderer.render_eq (s : Spelling) (n : Node) : Renderer.render s n = n.render s := rfl

end MiniC
