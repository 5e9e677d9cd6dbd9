/-
# Programs in the indented language

Structure is indentation alone: blocks are flattened, a suite that would be empty
holds `pass`, and declared types only choose a default value. A `for` becomes a
range if it counts, and a placeholder otherwise. Formatted output becomes a
template whose replacement fields hold the arguments.

Key definitions: `Python.template`, `Python.statement`, `Python.program`.
-/
import MiniC.Emit.Arguments
import MiniC.Emit.Counting
import MiniC.Emit.Layout
import MiniC.Emit.Scope

namespace MiniC
namespace Python

/-- The initial value of a variable declared without one. -/
def defaultValue : String → String
  | "int" | "long" | "short" | "unsigned" | "signed" => "0"
  | "float" | "double" => "0.0"
  | "char" => "''"
  | "bool" => "False"
  | _ => "None"

variable [Renderer]

def expr (n : Node) : String := Renderer.render .indented n

/-- Literal text of a template: a brace is written twice. -/
def escapeBraces (cs : List Char) : List Char :=
  cs.flatMap fun c => if c = '\x7b' || c = '\x7d' then [c, c] else [c]

/-- Raw text as the literal part of a template. -/
def templateText (raw : List Char) : String :=
  String.ofList (escapeBraces (Text.escape '"' raw))

/-- The letter of a precision in a replacement field. -/
def fieldLetter (m : Marker) : String :=
  if m.letter = 'e' || m.letter = 'E' then "e"
  else if m.letter = 'g' || m.letter = 'G' then "g"
  else "f"

/-- The replacement field of an argument; only floats have a precision. -/
def field (m : Marker) (arg : Node) : String :=
  let spec :=
    match m.conversion?, m.precision with
    | some .float, some p => ":." ++ toString p ++ fieldLetter m
    | _, _ => ""
  "\x7b" ++ Renderer.render .field arg ++ spec ++ "\x7d"

/-- The body of a template: markers take the arguments in order, a string literal
standing for its text, and a marker without an argument stays. -/
def templateBody : List Segment → List Node → String
  | [], _ => ""
  | .text chars :: segments, args => templateText chars ++ templateBody segments args
  | .percent :: segments, args => "%" ++ templateBody segments args
  | .marker m :: segments, [] => String.ofList m.raw ++ templateBody segments []
  | .marker m :: segments, arg :: args =>
    (match arg.stringText? with
      | some text => templateText text.toList
      | none => field m arg) ++
    templateBody segments args

/-- The template of a format with its arguments. -/
def template (format : String) (args : List Node) : String :=
  "f\"" ++ templateBody (Format.segments format.toList) args ++ "\""

/-- The text before a newline escape at its end. -/
def beforeNewline? (text : String) : Option String :=
  match text.toList.reverse with
  | 'n' :: '\\' :: rest => some (String.ofList rest.reverse)
  | _ => none

/-- A print that ends no line. -/
def printOpen (value : String) : String := "print(" ++ value ++ ", end=\"\")"

/-- The line that a `printf` becomes; without arguments there is none. -/
def printLines : List Node → List String
  | [] => []
  | first :: rest =>
    match first.stringText?, rest with
    | none, _ => [printOpen (expr first)]
    | some format, [] =>
      let text := Format.plainText format
      match beforeNewline? text with
      | some line => ["print(" ++ Text.quote line ++ ")"]
      | none => [printOpen (Text.quote text)]
    | some format, args => [printOpen (template format args)]

/-- How a value is read from the input. -/
def readCall : Conversion → String
  | .integer => "int(input())"
  | .float => "float(input())"
  | .string => "input()"
  | .char => "input()[0]"

/-- The lines that a `scanf` becomes: one for each place it fills. -/
def scanLines (args : List Node) : List String :=
  match scanTargets args with
  | [] => ["input()"]
  | targets => targets.map fun (target, conversion) => expr target ++ " = " ++ readCall conversion

/-- The line of an assignment. -/
def assignment (target : String) (op : AssignOp) (value : Option Node) : String :=
  match op with
  | .increment => target ++ " += 1"
  | .decrement => target ++ " -= 1"
  | _ => target ++ " " ++ op.symbol ++ " " ++ (value.map expr).getD ""

/-- What stands for a loop that is no range. -/
def unsupportedLoop : String := "# unsupported for-loop: cannot be expressed as range()"

/-- The lines of a suite: `pass` if there are none. -/
def suite (depth : Nat) : List Line → List Line
  | [] => [⟨depth, "pass"⟩]
  | lines => lines

/-- The head of a function and the globals that it assigns. -/
def functionHead (globals : List String) (depth : Nat) (header : Header) (body : List Node) :
    List Line :=
  let head := "def " ++ header.name ++ "(" ++
    String.intercalate ", " (header.params.map Param.name) ++ "):"
  let assigned := assignedGlobals globals header.params body
  ⟨depth, head⟩ ::
    if assigned.isEmpty then [] else [⟨depth + 1, "global " ++ String.intercalate ", " assigned⟩]

mutual

/-- The lines of a statement. -/
def statement (globals : List String) (depth : Nat) : Node → List Line
  | .program body | .block body _ => statements globals depth body
  | .inclusion .. => []
  | .function header body _ =>
    if header.isPrototype then []
    else
      functionHead globals depth header body ++
        suite (depth + 1) (statements globals (depth + 1) body)
  | .declare name type init _ => [⟨depth, name ++ " = " ++ (init.map expr).getD (defaultValue type)⟩]
  | .assign target op value _ => [⟨depth, assignment target op value⟩]
  | .branch condition onTrue onFalse _ =>
    ⟨depth, "if " ++ expr condition ++ ":"⟩ ::
      suite (depth + 1) (statement globals (depth + 1) onTrue) ++ otherwise globals depth onFalse
  | .whileLoop condition body _ =>
    ⟨depth, "while " ++ expr condition ++ ":"⟩ ::
      suite (depth + 1) (statement globals (depth + 1) body)
  | .forLoop init condition update body _ =>
    match CountingLoop.of? init condition update with
    | some loop =>
      ⟨depth, "for " ++ loop.name ++ " in range(" ++ loop.rangeArguments ++ "):"⟩ ::
        suite (depth + 1) (statement globals (depth + 1) body)
    | none => [⟨depth, unsupportedLoop⟩, ⟨depth, "pass"⟩]
  | .ret value _ =>
    match value with
    | some value => [⟨depth, "return " ++ expr value⟩]
    | none => [⟨depth, "return"⟩]
  | .printf args _ => atDepth depth (printLines args)
  | .scanf args _ => atDepth depth (scanLines args)
  | n@(.call ..) | n@(.binary ..) | n@(.unary ..) | n@(.literal ..) | n@(.identifier ..) =>
    [⟨depth, expr n⟩]

/-- The lines of some statements, in order. -/
def statements (globals : List String) (depth : Nat) : List Node → List Line
  | [] => []
  | n :: ns => statement globals depth n ++ statements globals depth ns

/-- The lines of an else-branch. A branch inside it continues the chain. -/
def otherwise (globals : List String) (depth : Nat) : Option Node → List Line
  | none => []
  | some (.branch condition onTrue onFalse _) =>
    ⟨depth, "elif " ++ expr condition ++ ":"⟩ ::
      suite (depth + 1) (statement globals (depth + 1) onTrue) ++ otherwise globals depth onFalse
  | some n => ⟨depth, "else:"⟩ :: suite (depth + 1) (statement globals (depth + 1) n)

end

theorem statements_eq_flatMap (globals : List String) (depth : Nat) (ns : List Node) :
    statements globals depth ns = ns.flatMap (statement globals depth) := by
  induction ns with
  | nil => rw [statements, List.flatMap_nil]
  | cons n ns ih => rw [statements, List.flatMap_cons, ih]

theorem otherwise_else {n : Node} (h : ∀ test onTrue onFalse l, n ≠ .branch test onTrue onFalse l)
    (globals : List String) (depth : Nat) : otherwise globals depth (some n) =
      ⟨depth, "else:"⟩ :: suite (depth + 1) (statement globals (depth + 1) n) := by
  rw [otherwise]
  exact h

/-- The items of the top level. A function has two blank lines before it, and so has
the first statement after functions. -/
def topLevel (globals : List String) (afterFunction : Bool) : List Node → List Item
  | [] => []
  | .inclusion .. :: ns => topLevel globals afterFunction ns
  | n@(.function header _ _) :: ns =>
    if header.isPrototype then topLevel globals afterFunction ns
    else .gap 2 :: (statement globals 0 n).map .line ++ topLevel globals true ns
  | n :: ns =>
    (if afterFunction then [.gap 2] else []) ++ (statement globals 0 n).map .line ++
      topLevel globals false ns

/-- The variables declared at the top level. -/
def globalNames (body : List Node) : List String :=
  body.filterMap fun
    | .declare name _ _ _ => some name
    | _ => none

/-- The items of a program; a program with a `main` ends by calling it. -/
def items (body : List Node) : List Item :=
  topLevel (globalNames body) false body ++
    if body.any Node.isMain then
      [.gap 2, .line ⟨0, "if __name__ == \"__main__\":"⟩, .line ⟨1, "main()"⟩]
    else []

/-- The text of a program. -/
def program (body : List Node) : String := Layout.text (items body)

end Python
end MiniC
