/-
# Syntax trees

One type holds statements and expressions alike, since a tree may also be given
from outside with any node in any place. `Node.children` lists the nodes right
below a node, in source order and with the role each plays; functions that treat
all nodes alike recurse through it (`Node.sizeOf_child`).

Key definitions: `Node`, `Node.location`, `Node.label`, `Node.children`.
Key theorems: `Node.sizeOf_child`.
-/
import MiniC.Location
import MiniC.Operator

namespace MiniC

/-- What a literal denotes; character literals are strings. -/
inductive LiteralKind where
  | int
  | float
  | string
  deriving DecidableEq

/-- A parameter of a function. -/
structure Param where
  name : String
  type : String
  deriving DecidableEq

/-- A function without its body. A prototype is a header that stands alone. -/
structure Header where
  name : String
  returnType : String
  params : List Param
  isPrototype : Bool
  deriving DecidableEq

/-- The header on one line. -/
def Header.signature (h : Header) : String :=
  h.returnType ++ " " ++ h.name ++ "(" ++
    String.intercalate ", " (h.params.map fun p => p.type ++ " " ++ p.name) ++ ")" ++
    if h.isPrototype then " [prototype]" else ""

/-- The label of a literal of this kind with this text. -/
def LiteralKind.label (value : String) : LiteralKind → String
  | string => "Literal string \"" ++ value ++ "\""
  | int => "Literal int " ++ value
  | float => "Literal float " ++ value

/-- A node of a syntax tree. -/
inductive Node where
  | program (body : List Node)
  | inclusion (library : String) (loc : Location)
  | function (header : Header) (body : List Node) (loc : Location)
  | declare (name type : String) (init : Option Node) (loc : Location)
  | assign (target : String) (op : AssignOp) (value : Option Node) (loc : Location)
  | branch (condition onTrue : Node) (onFalse : Option Node) (loc : Location)
  | whileLoop (condition body : Node) (loc : Location)
  | forLoop (init condition update : Option Node) (body : Node) (loc : Location)
  | ret (value : Option Node) (loc : Location)
  | printf (args : List Node) (loc : Location)
  | scanf (args : List Node) (loc : Location)
  | call (name : String) (args : List Node) (loc : Location)
  | block (body : List Node) (loc : Location)
  | binary (op : BinOp) (left right : Node) (loc : Location)
  | unary (op : UnaryOp) (operand : Node) (loc : Location)
  | literal (value : String) (kind : LiteralKind) (loc : Location)
  | identifier (name : String) (loc : Location)

namespace Node

/-- The place of the node; a program starts where its text does. -/
def location : Node → Location
  | program _ => .start
  | inclusion _ loc | function _ _ loc | declare _ _ _ loc | assign _ _ _ loc
  | branch _ _ _ loc | whileLoop _ _ loc | forLoop _ _ _ _ loc | ret _ loc
  | printf _ loc | scanf _ loc | call _ _ loc | block _ loc | binary _ _ _ loc
  | unary _ _ loc | literal _ _ loc | identifier _ loc => loc

/-- The name of the node's kind. -/
def kindName : Node → String
  | program _ => "Program"
  | inclusion .. => "Include"
  | function .. => "Function"
  | declare .. => "Variable"
  | assign .. => "Assignment"
  | branch .. => "IfStatement"
  | whileLoop .. => "WhileLoop"
  | forLoop .. => "ForLoop"
  | ret .. => "ReturnStatement"
  | printf .. => "PrintfStatement"
  | scanf .. => "ScanfStatement"
  | call .. => "FunctionCall"
  | block .. => "Block"
  | binary .. => "BinaryExpression"
  | unary .. => "UnaryExpression"
  | literal .. => "Literal"
  | identifier .. => "Identifier"

/-- One line on the node's own fields, without its children. -/
def label : Node → String
  | program body => "Program (" ++ toString body.length ++ " items)"
  | inclusion library _ => "Include <" ++ library ++ ">"
  | function header _ _ => "Function " ++ header.signature
  | declare name type _ _ => "Variable " ++ type ++ " " ++ name
  | assign target op _ _ => "Assignment " ++ target ++ " " ++ op.symbol
  | branch .. => "IfStatement"
  | whileLoop .. => "WhileLoop"
  | forLoop .. => "ForLoop"
  | ret .. => "ReturnStatement"
  | printf args _ => "PrintfStatement (" ++ toString args.length ++ " args)"
  | scanf args _ => "ScanfStatement (" ++ toString args.length ++ " args)"
  | call name args _ => "FunctionCall " ++ name ++ " (" ++ toString args.length ++ " args)"
  | block body _ => "Block (" ++ toString body.length ++ " items)"
  | binary op _ _ _ => "BinaryExpression " ++ op.symbol
  | unary op _ _ => "UnaryExpression " ++ op.symbol
  | literal value kind _ => kind.label value
  | identifier name _ => "Identifier " ++ name

/-- The node defines `main`. -/
def isMain : Node → Bool
  | function header _ _ => header.name = "main" && !header.isPrototype
  | _ => false

/-- An optional child in the role `name`. -/
def inRole (name : String) (child : Option Node) : List (Option String × Node) :=
  child.toList.map fun n => (some name, n)

/-- The nodes right below, in source order, with their roles. -/
def children : Node → List (Option String × Node)
  | program body | function _ body _ | block body _ => body.map fun n => (none, n)
  | printf args _ | scanf args _ | call _ args _ => args.map fun n => (none, n)
  | declare _ _ init _ => inRole "init" init
  | assign _ _ value _ | ret value _ => inRole "value" value
  | branch condition onTrue onFalse _ =>
    (some "condition", condition) :: (some "then", onTrue) :: inRole "else" onFalse
  | whileLoop condition body _ => [(some "condition", condition), (some "body", body)]
  | forLoop init condition update body _ =>
    inRole "init" init ++ inRole "condition" condition ++ inRole "update" update ++
      [(some "body", body)]
  | binary _ left right _ => [(some "left", left), (some "right", right)]
  | unary _ operand _ => [(none, operand)]
  | inclusion .. | literal .. | identifier .. => []

theorem sizeOf_inRole {name : String} {child : Option Node} {r : Option String} {c : Node}
    (h : (r, c) ∈ inRole name child) : sizeOf c < sizeOf child := by
  cases child with
  | none => simp [inRole] at h
  | some n =>
    obtain ⟨-, rfl⟩ : r = some name ∧ c = n := by simpa [inRole] using h
    simp

theorem sizeOf_item {body : List Node} {r : Option String} {c : Node}
    (h : (r, c) ∈ body.map fun n => ((none : Option String), n)) : sizeOf c < sizeOf body := by
  obtain ⟨n, mem, eq⟩ := List.mem_map.mp h
  obtain ⟨-, rfl⟩ := Prod.mk.inj eq
  exact List.sizeOf_lt_of_mem mem

/-- A child is smaller than its parent. -/
theorem sizeOf_child {n c : Node} {r : Option String} (h : (r, c) ∈ n.children) :
    sizeOf c < sizeOf n := by
  cases n with
  | program body | function _ body _ | block body _ | printf body _ | scanf body _
  | call _ body _ =>
    have := sizeOf_item h
    simp only [program.sizeOf_spec, function.sizeOf_spec, block.sizeOf_spec, printf.sizeOf_spec,
      scanf.sizeOf_spec, call.sizeOf_spec]
    omega
  | declare _ _ child _ | assign _ _ child _ | ret child _ =>
    have := sizeOf_inRole h
    simp only [declare.sizeOf_spec, assign.sizeOf_spec, ret.sizeOf_spec]
    omega
  | branch condition onTrue onFalse _ =>
    simp only [children, List.mem_cons, Prod.mk.injEq] at h
    simp only [branch.sizeOf_spec]
    rcases h with ⟨-, rfl⟩ | ⟨-, rfl⟩ | h
    · omega
    · omega
    · have := sizeOf_inRole h
      omega
  | whileLoop condition body _ =>
    simp only [children, List.mem_cons, Prod.mk.injEq, List.not_mem_nil, or_false] at h
    simp only [whileLoop.sizeOf_spec]
    rcases h with ⟨-, rfl⟩ | ⟨-, rfl⟩ <;> omega
  | forLoop init condition update body _ =>
    simp only [children, List.mem_append, List.mem_singleton, Prod.mk.injEq] at h
    simp only [forLoop.sizeOf_spec]
    rcases h with ((h | h) | h) | ⟨-, rfl⟩
    · have := sizeOf_inRole h
      omega
    · have := sizeOf_inRole h
      omega
    · have := sizeOf_inRole h
      omega
    · omega
  | binary _ left right _ =>
    simp only [children, List.mem_cons, Prod.mk.injEq, List.not_mem_nil, or_false] at h
    simp only [binary.sizeOf_spec]
    rcases h with ⟨-, rfl⟩ | ⟨-, rfl⟩ <;> omega
  | unary _ operand _ =>
    obtain ⟨-, rfl⟩ : r = none ∧ c = operand := by simpa [children] using h
    simp only [unary.sizeOf_spec]
    omega
  | inclusion _ _ | literal _ _ _ | identifier _ _ => simp [children] at h

end Node

end MiniC
