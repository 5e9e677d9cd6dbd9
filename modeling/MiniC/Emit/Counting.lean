/-
# Counting loops

A `for` loop that counts a variable from a start towards a bound, up or down by a
fixed step, is a range. The variable is set in the first clause, compared with the
bound in the second and stepped by a literal in the third, and the comparison looks
in the direction of the step.

Key definitions: `CountingLoop`, `CountingLoop.of?`, `CountingLoop.stop`,
`CountingLoop.rangeArguments`.
-/
import MiniC.Emit.Expression
import MiniC.Text.Numeral

namespace MiniC

/-- A loop over a range. The bound itself is reached if `inclusive` holds. -/
structure CountingLoop where
  name : String
  start : Node
  bound : Node
  inclusive : Bool
  step : Int

/-- The value of an integer literal, if it fits a 64-bit word. -/
def Node.intValue? : Node → Option Int
  | .literal value .int _ => Text.readInt64? value.toList
  | _ => none

namespace CountingLoop

/-- The variable that a first clause sets, and the value it sets it to. -/
def start? : Node → Option (String × Node)
  | .declare name _ (some value) _ => some (name, value)
  | .assign target .assign (some value) _ => some (target, value)
  | _ => none

/-- The step that a third clause makes with the variable `name`. -/
def step? (name : String) : Node → Option Int
  | .assign target op value _ =>
    let size := (value.bind Node.intValue?).filter fun k => 0 < k
    if target = name then
      match op with
      | .increment => some 1
      | .decrement => some (-1)
      | .addAssign => size
      | .subAssign => size.map fun k => -k
      | _ => none
    else none
  | _ => none

/-- Whether the bound is reached, for a comparison that fits the direction. -/
def inclusive? (op : BinOp) (step : Int) : Option Bool :=
  if 0 < step then
    match op with
    | .lt => some false
    | .le => some true
    | _ => none
  else
    match op with
    | .gt => some false
    | .ge => some true
    | _ => none

/-- The counting loop that three clauses make. -/
def of? (init condition update : Option Node) : Option CountingLoop := do
  let (name, start) ← start? (← init)
  match ← condition with
  | .binary op (.identifier tested _) bound _ =>
    if tested = name then
      let step ← step? name (← update)
      let inclusive ← inclusive? op step
      return ⟨name, start, bound, inclusive, step⟩
    else none
  | _ => none

variable [Renderer]

/-- The text of `bound + delta` for a `delta` of one up or down, computed where the
bound is a literal and the sum fits. -/
def shifted (bound : Node) (delta : Int) : String :=
  match (bound.intValue?.map (· + delta)).filter fun n => Text.fitsInt64 n with
  | some n => toString n
  | none =>
    grouped (Spelling.indented.groups .add bound false) (Renderer.render .indented bound) ++
      (if 0 < delta then " + " else " - ") ++ toString delta.natAbs

/-- The end of the range, which a range does not reach. -/
def stop (l : CountingLoop) : String :=
  if l.inclusive then shifted l.bound (if 0 < l.step then 1 else -1)
  else Renderer.render .indented l.bound

/-- Start, end and, unless it is 1, step of the range. -/
def rangeArguments (l : CountingLoop) : String :=
  Renderer.render .indented l.start ++ ", " ++ l.stop ++ if l.step = 1 then "" else ", " ++ toString l.step

end CountingLoop

end MiniC
