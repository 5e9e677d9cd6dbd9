/-
# What the parser reports

Parsing never fails. A token that fits no rule is skipped and a statement that
lacks a required part is dropped, and each such event has a wording of its own.

Key definitions: `maxNesting`, `SyntaxProblem`, `SyntaxProblem.message`.
-/
import MiniC.Operator
import MiniC.Token

namespace MiniC

/-- The levels of statements and operands that may be open at one time. -/
def maxNesting : Nat := 64

/-- What the parser skips, drops or misses. -/
inductive SyntaxProblem where
  | tooDeep (t : Token)
  | skipped (t : Token)
  | skippedInGroup (t : Token)
  | skippedParameter (t : Token)
  | unsupportedDirective
  | expectedLibrary
  | expectedName (type : String)
  | unnamedParameter (type : String)
  | missingInitializer (name : String)
  | extraDeclarators (name : String)
  | branchWithoutCondition
  | loopWithoutCondition
  | unsupportedForInit
  | assignmentWithoutValue (target : String)
  | missingRightOperand (op : BinOp)
  | missingOperand (op : UnaryOp)

def SyntaxProblem.message : SyntaxProblem → String
  | tooDeep t =>
    "Nesting deeper than " ++ toString maxNesting ++ " levels, skipped token " ++ t.describe
  | skipped t => "Skipped token " ++ t.describe
  | skippedInGroup t => "Skipped token " ++ t.describe ++ " before ')'"
  | skippedParameter t => "Skipped malformed parameter token " ++ t.describe
  | unsupportedDirective => "Skipped unsupported preprocessor directive"
  | expectedLibrary => "Expected '<' or '\"' after #include"
  | expectedName type => "Expected identifier after type '" ++ type ++ "'"
  | unnamedParameter type => "Parameter of type '" ++ type ++ "' has no name"
  | missingInitializer name => "Missing initializer expression for '" ++ name ++ "'"
  | extraDeclarators name => "Only the first declarator after '" ++ name ++ "' is translated"
  | branchWithoutCondition => "Dropped 'if' statement without a condition"
  | loopWithoutCondition => "Dropped 'while' loop without a condition"
  | unsupportedForInit => "Unsupported for-loop initializer"
  | assignmentWithoutValue target => "Dropped assignment to '" ++ target ++ "' without a value"
  | missingRightOperand op => "Missing right operand for '" ++ op.symbol ++ "'"
  | missingOperand op => "Missing operand for '" ++ op.symbol ++ "'"

end MiniC
