/-
# Arguments of input and output statements

A `printf` or `scanf` starts with its format if the first argument is a string
literal. Each marker takes one of the arguments that follow, in order; an argument
without a marker is taken for an integer.

Key definitions: `scanTargets`.
-/
import MiniC.Emit.Expression
import MiniC.Format

namespace MiniC

/-- Pairs each item with the conversion at its place, if there is one. -/
def withConversions {α : Type} : List α → List Conversion → List (α × Option Conversion)
  | [], _ => []
  | a :: as, [] => (a, none) :: withConversions as []
  | a :: as, c :: cs => (a, some c) :: withConversions as cs

/-- The places that a `scanf` with these arguments fills, each with the kind of
value to read. Without a format all arguments are places. -/
def scanTargets (args : List Node) : List (Node × Conversion) :=
  let (conversions, targets) :=
    match args with
    | [] => ([], [])
    | first :: rest =>
      match first.stringText? with
      | some format => (Format.conversions format, rest)
      | none => ([], args)
  (withConversions targets conversions).map fun (target, conversion) =>
    (target, conversion.getD .integer)

end MiniC
