/-
# Programs in the typed language

The program becomes one class. Variables at the top level are its static fields,
functions its static methods, and the statements between them run from static
initializers, so that initialization keeps the order of the source. One walk over the
top level writes the members; it holds statements back until a function, a variable or
the end of the program closes their initializer. The method `main` opens a scanner for
the input and closes it on every way out.

Key definitions: `Java.statement`, `Java.Pass`, `Java.Pass.step`, `Java.program`.
-/
import MiniC.Emit.Arguments
import MiniC.Emit.Layout

namespace MiniC
namespace Java

/-- The type that stands for a declared type. `float` widens, since literals with a
point are of the wider type. -/
def typeName : String → String
  | "int" | "unsigned" | "signed" => "int"
  | "float" | "double" => "double"
  | "char" => "char"
  | "long" => "long"
  | "short" => "short"
  | "bool" => "boolean"
  | "void" => "void"
  | _ => "Object"

/-- The initial value of a variable declared without one. -/
def defaultValue : String → String
  | "int" | "short" | "unsigned" | "signed" => "0"
  | "float" | "double" => "0.0"
  | "char" => "'\\0'"
  | "long" => "0L"
  | "bool" => "false"
  | _ => "null"

variable [Renderer]

def expr (n : Node) : String := Renderer.render .typed n

/-- A string literal of one character, plain or escaped, as a character literal. -/
def charLiteral? (n : Node) : Option String :=
  n.stringText?.bind fun text =>
    match text.toList with
    | [c] => some (if c = '\'' then "'\\''" else "'" ++ String.ofList [c] ++ "'")
    | [c, escaped] => if c = '\\' then some ("'" ++ String.ofList [c, escaped] ++ "'") else none
    | _ => none

/-- An expression where a character is expected. -/
def charExpr (n : Node) : String := (charLiteral? n).getD (expr n)

/-- A declaration without its semicolon. -/
def declaration (type name : String) (init : Option Node) : String :=
  let value :=
    match init with
    | some init => if typeName type = "char" then charExpr init else expr init
    | none => defaultValue type
  typeName type ++ " " ++ name ++ " = " ++ value

/-- An assignment without its semicolon. -/
def assignment (target : String) (op : AssignOp) (value : Option Node) : String :=
  if op.isStep then target ++ op.symbol
  else target ++ " " ++ op.symbol ++ " " ++ (value.map expr).getD ""

/-- A clause in the head of a `for`. -/
def clause : Node → String
  | .declare name type init _ => declaration type name init
  | .assign target op value _ => assignment target op value
  | n => expr n

/-- The letter of a marker: one for all integers, no upper-case `F`. -/
def markerLetter (m : Marker) : Char :=
  match m.conversion? with
  | some .integer => 'd'
  | some .float => if m.letter = 'F' then 'f' else m.letter
  | some .string => 's'
  | some .char => 'c'
  | none => m.letter

/-- A marker without length modifiers and with its precision in full. -/
def marker (m : Marker) : String :=
  "%" ++ String.ofList m.flags ++ (m.precision.map fun p => "." ++ toString p).getD "" ++
    String.ofList [markerLetter m]

/-- A format string with its markers in the form that the formatter takes. -/
def format (text : String) : String :=
  String.join ((Format.segments text.toList).map fun
    | .text chars => String.ofList chars
    | .percent => "%%"
    | .marker m => marker m)

/-- The arguments of a formatted print. -/
def formatArguments (text : String) (args : List Node) : String :=
  String.intercalate ", " ((withConversions args (Format.conversions text)).map fun
    | (arg, some .char) => charExpr arg
    | (arg, _) => expr arg)

/-- The line that a `printf` becomes; without arguments there is none. -/
def printLines : List Node → List String
  | [] => []
  | first :: rest =>
    match first.stringText?, rest with
    | none, _ => ["System.out.print(" ++ expr first ++ ");"]
    | some text, [] => ["System.out.print(" ++ Text.quote (Format.plainText text) ++ ");"]
    | some text, rest =>
      ["System.out.printf(" ++ Text.quote (format text) ++ ", " ++ formatArguments text rest ++ ");"]

/-- How a value is read from the scanner. -/
def readCall : Conversion → String
  | .integer => "scanner.nextInt()"
  | .float => "scanner.nextDouble()"
  | .string => "scanner.next()"
  | .char => "scanner.next().charAt(0)"

/-- The lines that a `scanf` becomes: one for each place it fills. -/
def scanLines (args : List Node) : List String :=
  match scanTargets args with
  | [] => ["scanner.nextLine();"]
  | targets => targets.map fun (target, conversion) =>
    expr target ++ " = " ++ readCall conversion ++ ";"

def closeScanner : String := "scanner.close();"

/-- What leaves a function. In `main` the scanner is closed first and the value has
no place to go. -/
def returnLines (inMain : Bool) (value : Option Node) : List String :=
  if inMain then [closeScanner, "return;"]
  else
    match value with
    | some value => ["return " ++ expr value ++ ";"]
    | none => ["return;"]

mutual

/-- The lines of a statement. As the body of a branch or loop (`isBody`) a block
has the braces of its owner and none of its own. -/
def statement (inMain : Bool) (depth : Nat) (isBody : Bool) : Node → List Line
  | .program body => statements inMain depth body
  | .block body _ =>
    if isBody then statements inMain depth body
    else ⟨depth, "\x7b"⟩ :: statements inMain (depth + 1) body ++ [⟨depth, "\x7d"⟩]
  | .inclusion .. => []
  | .function header _ _ =>
    if header.isPrototype then []
    else [⟨depth, "// unsupported: nested function " ++ header.name ++ "()"⟩]
  | .declare name type init _ => [⟨depth, declaration type name init ++ ";"⟩]
  | .assign target op value _ => [⟨depth, assignment target op value ++ ";"⟩]
  | .branch condition onTrue onFalse _ =>
    ⟨depth, "if (" ++ expr condition ++ ") \x7b"⟩ ::
      statement inMain (depth + 1) true onTrue ++
      otherwise inMain depth onFalse ++ [⟨depth, "\x7d"⟩]
  | .whileLoop condition body _ =>
    ⟨depth, "while (" ++ expr condition ++ ") \x7b"⟩ ::
      statement inMain (depth + 1) true body ++ [⟨depth, "\x7d"⟩]
  | .forLoop init condition update body _ =>
    ⟨depth, "for (" ++ (init.map clause).getD "" ++ "; " ++ (condition.map expr).getD "" ++ "; " ++
        (update.map clause).getD "" ++ ") \x7b"⟩ ::
      statement inMain (depth + 1) true body ++ [⟨depth, "\x7d"⟩]
  | .ret value _ => atDepth depth (returnLines inMain value)
  | .printf args _ => atDepth depth (printLines args)
  | .scanf args _ => atDepth depth (scanLines args)
  | n@(.call ..) | n@(.binary ..) | n@(.unary ..) | n@(.literal ..) | n@(.identifier ..) =>
    [⟨depth, expr n ++ ";"⟩]

/-- The lines of some statements, in order. -/
def statements (inMain : Bool) (depth : Nat) : List Node → List Line
  | [] => []
  | n :: ns => statement inMain depth false n ++ statements inMain depth ns

/-- The lines of an else-branch, up to the closing brace. A branch inside it
continues the chain. -/
def otherwise (inMain : Bool) (depth : Nat) : Option Node → List Line
  | none => []
  | some (.branch condition onTrue onFalse _) =>
    ⟨depth, "\x7d else if (" ++ expr condition ++ ") \x7b"⟩ ::
      statement inMain (depth + 1) true onTrue ++ otherwise inMain depth onFalse
  | some n => ⟨depth, "\x7d else \x7b"⟩ :: statement inMain (depth + 1) true n

end

theorem statements_eq_flatMap (inMain : Bool) (depth : Nat) (ns : List Node) :
    statements inMain depth ns = ns.flatMap (statement inMain depth false) := by
  induction ns with
  | nil => rw [statements, List.flatMap_nil]
  | cons n ns ih => rw [statements, List.flatMap_cons, ih]

theorem otherwise_else {n : Node} (h : ∀ test onTrue onFalse l, n ≠ .branch test onTrue onFalse l)
    (inMain : Bool) (depth : Nat) : otherwise inMain depth (some n) =
      ⟨depth, "\x7d else \x7b"⟩ :: statement inMain (depth + 1) true n := by
  rw [otherwise]
  exact h

/-- The body of `main` without a return at its end, which the closing of the scanner
covers. -/
def withoutFinalReturn (body : List Node) : List Node :=
  match body.getLast? with
  | some (.ret ..) => body.dropLast
  | _ => body

/-- The lines of a method. -/
def method (header : Header) (body : List Node) : List Line :=
  if header.name = "main" then
    ⟨1, "public static void main(String[] args) \x7b"⟩ ::
      ⟨2, "Scanner scanner = new Scanner(System.in);"⟩ ::
      statements true 2 (withoutFinalReturn body) ++ [⟨2, closeScanner⟩, ⟨1, "\x7d"⟩]
  else
    let params := String.intercalate ", " (header.params.map fun p => typeName p.type ++ " " ++ p.name)
    ⟨1, "public static " ++ typeName header.returnType ++ " " ++ header.name ++ "(" ++ params ++
        ") \x7b"⟩ ::
      statements false 2 body ++ [⟨1, "\x7d"⟩]

/-- The line of a static field. -/
def field (type name : String) (init : Option Node) : Line :=
  ⟨1, "static " ++ declaration type name init ++ ";"⟩

/-- The lines of a static initializer. -/
def initializer (body : List Node) : List Line :=
  ⟨1, "static \x7b"⟩ :: statements false 2 body ++ [⟨1, "\x7d"⟩]

/-- The kinds of members of the class. -/
inductive MemberKind where
  | field
  | method
  | initializer
  deriving DecidableEq

/-- A walk over the top level: what it has written, the kind of the member written last,
and the statements that wait for their initializer. -/
structure Pass where
  written : List Item
  last : Option MemberKind
  loose : List Node

namespace Pass

def start : Pass := ⟨[], none, []⟩

/-- Begins a member. A blank line comes before it, unless it is the first one or a
field behind a field. -/
def begin (p : Pass) (kind : MemberKind) : Pass :=
  let grouped := kind = .field && p.last = some .field
  { p with
    written := p.written ++ if p.last.isSome && !grouped then [.gap 1] else []
    last := some kind }

def write (p : Pass) (lines : List Line) : Pass := { p with written := p.written ++ lines.map .line }

/-- Writes the statements that wait, if any, as one initializer. -/
def flush (p : Pass) : Pass :=
  if p.loose.isEmpty then p
  else { (p.begin .initializer).write (initializer p.loose) with loose := [] }

/-- Goes over a node of the top level. Inclusions and prototypes make no member. -/
def step (p : Pass) : Node → Pass
  | .inclusion .. => p
  | .function header body _ =>
    if header.isPrototype then p else (p.flush.begin .method).write (method header body)
  | .declare name type init _ => (p.flush.begin .field).write [field type name init]
  | n => { p with loose := p.loose ++ [n] }

end Pass

/-- The items of a program. -/
def items (body : List Node) : List Item :=
  (if body.any Node.isMain then [.line ⟨0, "import java.util.Scanner;"⟩, .gap 1] else []) ++
    [.line ⟨0, "public class Main \x7b"⟩] ++ (body.foldl Pass.step .start).flush.written ++
    [.line ⟨0, "\x7d"⟩]

/-- The text of a program. -/
def program (body : List Node) : String := Layout.text (items body)

end Java
end MiniC
