/-
# Operators

The binary operators with their spelling and precedence, the three prefix
operators, and the operators of an assignment, of which two step a variable and
take no value.

Key definitions: `BinOp`, `BinOp.precedence`, `UnaryOp`, `AssignOp`, `AssignOp.isStep`.
-/
namespace MiniC

/-- Binary operators, from the loosest to the tightest binding. -/
inductive BinOp where
  | or | and
  | eq | ne
  | lt | gt | le | ge
  | add | sub
  | mul | div | mod
  deriving DecidableEq

namespace BinOp

/-- Binding strength: the higher binds tighter. -/
def precedence : BinOp → Nat
  | or => 1
  | and => 2
  | eq | ne => 3
  | lt | gt | le | ge => 4
  | add | sub => 5
  | mul | div | mod => 6

def symbol : BinOp → String
  | or => "||"
  | and => "&&"
  | eq => "=="
  | ne => "!="
  | lt => "<"
  | gt => ">"
  | le => "<="
  | ge => ">="
  | add => "+"
  | sub => "-"
  | mul => "*"
  | div => "/"
  | mod => "%"

def all : List BinOp := [or, and, eq, ne, lt, gt, le, ge, add, sub, mul, div, mod]

def ofSymbol? (symbol : String) : Option BinOp :=
  all.find? fun op => op.symbol = symbol

/-- Equality and order: the operators whose value is a truth value of two
operands compared. -/
def isComparison : BinOp → Bool
  | eq | ne | lt | gt | le | ge => true
  | _ => false

end BinOp

/-- Prefix operators. -/
inductive UnaryOp where
  | neg
  | not
  | addressOf
  deriving DecidableEq

namespace UnaryOp

def symbol : UnaryOp → String
  | neg => "-"
  | not => "!"
  | addressOf => "&"

def all : List UnaryOp := [neg, not, addressOf]

def ofSymbol? (symbol : String) : Option UnaryOp :=
  all.find? fun op => op.symbol = symbol

end UnaryOp

/-- Operators of a statement that changes a variable. -/
inductive AssignOp where
  | assign
  | addAssign
  | subAssign
  | mulAssign
  | divAssign
  | modAssign
  | increment
  | decrement
  deriving DecidableEq

namespace AssignOp

def symbol : AssignOp → String
  | assign => "="
  | addAssign => "+="
  | subAssign => "-="
  | mulAssign => "*="
  | divAssign => "/="
  | modAssign => "%="
  | increment => "++"
  | decrement => "--"

def all : List AssignOp :=
  [assign, addAssign, subAssign, mulAssign, divAssign, modAssign, increment, decrement]

def ofSymbol? (symbol : String) : Option AssignOp :=
  all.find? fun op => op.symbol = symbol

/-- The operator steps its variable by one and takes no value. -/
def isStep : AssignOp → Bool
  | increment | decrement => true
  | _ => false

end AssignOp

end MiniC
