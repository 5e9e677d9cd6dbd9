/-
# Parsing expressions

Binary operators are read with one tier for each precedence, the tightest at the
bottom; a tier is a chain of operands of the tier below it, grouped from the left.
At the bottom stand operands: prefix operators, literals, names, calls and groups.
Each operand opens one level of nesting, and every way an expression can contain
another leads through an operand, so the recursion runs on the number of levels
that are left (`operand`).

A parser gives nothing if no operand starts at the cursor. An operator without its
right operand is skipped and the left operand kept.

Key definitions: `Parse.chain`, `Parse.tier`, `Parse.primary`, `Parse.operand`,
`Parse.expression`.
-/
import MiniC.Parse.Cursor

namespace MiniC
namespace Parse

/-- The binary operator of precedence `level` that the token is. -/
def operatorOf (level : Nat) (t : Token) : Option BinOp :=
  if t.kind = .operator then
    (BinOp.ofSymbol? t.spelling).filter fun op => op.precedence = level
  else none

/-- Extends `left` by operators of precedence `level` and their right operands. -/
def chain (level : Nat) (operand : Parse (Option Node)) (left : Node) : Parse Node :=
  fun c => go left c
where
  go (left : Node) (c : Cursor) : Node × Cursor :=
    match c.rest with
    | [] => (left, c)
    | t :: _ =>
      match operatorOf level t with
      | none => (left, c)
      | some op =>
        let found := operand c.advance
        match found.1 with
        | none => (left, found.2.report (.missingRightOperand op) t.location)
        | some right =>
          if found.2.rest.length < c.rest.length then
            go (.binary op left right t.location) found.2
          else (.binary op left right t.location, found.2)
  termination_by c.rest.length

/-- Operands joined by operators of precedence `level`. -/
def binaryLevel (level : Nat) (operand : Parse (Option Node)) : Parse (Option Node) := do
  match ← operand with
  | none => return none
  | some left => return some (← chain level operand left)

/-- The tiers above an operand: tier `k` reads the `k` tightest precedences. -/
def tier (operand : Parse (Option Node)) : Nat → Parse (Option Node)
  | 0 => operand
  | k + 1 => binaryLevel (6 - k) (tier operand k)

/-- All binary operators over an operand. -/
def expressionOver (operand : Parse (Option Node)) : Parse (Option Node) := tier operand 6

/-- Expressions with commas between them, up to the first that is missing. -/
def argumentsOver (expression : Parse (Option Node)) : Parse (List Node) :=
  fun c => go c
where
  go (c : Cursor) : List Node × Cursor :=
    let found := expression c
    match found.1 with
    | none => ([], found.2)
    | some arg =>
      if found.2.looksAt .delimiter "," then
        if found.2.advance.rest.length < c.rest.length then
          let more := go found.2.advance
          (arg :: more.1, more.2)
        else ([arg], found.2.advance)
      else ([arg], found.2)
  termination_by c.rest.length

/-- The arguments of a call with the parentheses around them. -/
def argumentList (expression : Parse (Option Node)) : Parse (List Node) := do
  let _ ← acceptDelimiter "("
  let args ← if ← looksAt .delimiter ")" then pure [] else argumentsOver expression
  closeGroup
  return args

/-- A number is a float if its text holds a point. -/
def numberKind (text : String) : LiteralKind :=
  if text.toList.contains '.' then .float else .int

/-- A literal, a name, a call or a group in parentheses. -/
def primary (expression : Parse (Option Node)) : Parse (Option Node) := do
  match ← peek with
  | none => return none
  | some t =>
    match t.kind with
    | .number =>
      advance
      return some (.literal t.spelling (numberKind t.spelling) t.location)
    | .string =>
      advance
      return some (.literal t.spelling .string t.location)
    | .identifier =>
      advance
      if ← looksAt .delimiter "(" then
        return some (.call t.spelling (← argumentList expression) t.location)
      else
        return some (.identifier t.spelling t.location)
    | .delimiter =>
      if t.is .delimiter "(" then
        advance
        let inner ← expression
        closeGroup
        return inner
      else
        return none
    | _ => return none

/-- A prefix operator with what it stands before, or a primary. The address-of
operator takes a primary, the others an operand one level further down. -/
def prefixed (operand : Parse (Option Node)) : Parse (Option Node) := do
  match ← peek with
  | none => return none
  | some t =>
    if t.kind = .operator then
      match UnaryOp.ofSymbol? t.spelling with
      | none => return none
      | some op =>
        advance
        let inner ← if op = .addressOf then primary (expressionOver operand) else operand
        match inner with
        | none =>
          report (.missingOperand op) t.location
          return none
        | some inner => return some (.unary op inner t.location)
    else
      primary (expressionOver operand)

/-- An operand, when `levels` more levels may be opened. -/
def operand : (levels : Nat) → Parse (Option Node)
  | 0 => tooDeep
  | levels + 1 => nested (prefixed (operand levels))

/-- An expression, when `levels` more levels may be opened. -/
def expression (levels : Nat) : Parse (Option Node) := expressionOver (operand levels)

end Parse
end MiniC
