/-
# Leaving out the address operator

Taking an address has no counterpart in the output languages, and the operator is
left out: its operand is written in its place. Whether an operand stands in
parentheses is decided by what it is, and an address is never put in any. So where an
address stands in the place of an operand and hides one that would need parentheses
there, they go missing, and the text is that of another expression or, behind a minus
sign, of another operator (`elision_regroups`).

Nothing else goes wrong. The text of the expression without its address operators
(`Node.bare`) has two more characters for each operand that is hidden like this
(`Node.lost`), and the two texts are the same just if there is none
(`elision_keeps_text_iff`). That is so where addresses are taken of names, literals and
calls only.

Key definitions: `Node.bare`, `Slot`, `Spelling.encloses`, `Node.lost`.
Key theorems: `encloses_bare`, `operandText_length`, `operandText_eq`, `render_bare_length`,
`render_bare_eq`, `elision_keeps_text_iff`, `elision_regroups`.
-/
import MiniC.Proofs.Emission.Statement

namespace MiniC

namespace Node

mutual

/-- The expression with the operand of each address operator in the operator's place. -/
def bare : Node → Node
  | .unary .addressOf operand _ => bare operand
  | .unary o operand l => .unary o (bare operand) l
  | .binary o left right l => .binary o (bare left) (bare right) l
  | .call x args l => .call x (bareAll args) l
  | n => n

def bareAll : List Node → List Node
  | [] => []
  | n :: ns => bare n :: bareAll ns

end

end Node

/-! ### Operands in their places -/

/-- The places of operands. -/
inductive Slot where
  | left (o : BinOp)
  | right (o : BinOp)
  | minus
  | not

/-- The operand is written in parentheses in this place. -/
def Spelling.encloses (s : Spelling) : Slot → Node → Bool
  | .left o, e => s.groups o e false
  | .right o, e => s.groups o e true
  | .minus, e => e.isBinary || e.isNegation
  | .not, e => e.isBinary

/-- The text of an operand in its place. -/
def Node.operandText (s : Spelling) (slot : Slot) (e : Node) : String :=
  grouped (s.encloses slot e) (e.render s)

/-- The pair of parentheses that an address in this place keeps from its operand. -/
def Node.lostAt (s : Spelling) (slot : Slot) (e : Node) : Nat :=
  if s.encloses slot e.bare && !s.encloses slot e then 1 else 0

namespace Node

mutual

/-- The pairs of parentheses that the text lacks. -/
def lost (s : Spelling) : Node → Nat
  | .unary .addressOf operand _ => lost s operand
  | .unary .neg operand _ => lost s operand + lostAt s .minus operand
  | .unary .not operand _ => lost s operand + lostAt s .not operand
  | .binary o left right _ => lost s left + lostAt s (.left o) left + (lost s right + lostAt s (.right o) right)
  | .call _ args _ => lostAll s args
  | _ => 0

def lostAll (s : Spelling) : List Node → Nat
  | [] => 0
  | n :: ns => lost s n + lostAll s ns

end

end Node

section

variable {s : Spelling} {e : Node}

/-- The node takes an address. -/
def Node.isAddress : Node → Bool
  | .unary .addressOf _ _ => true
  | _ => false

theorem encloses_address (h : e.isAddress) (slot : Slot) : s.encloses slot e = false := by
  unfold Node.isAddress at h
  split at h
  · cases slot <;> cases s <;> rfl
  · cases h

/-- Any other node keeps its kind and operator, which decide on the parentheses. -/
theorem encloses_bare (h : e.isAddress = false) (slot : Slot) : s.encloses slot e.bare = s.encloses slot e := by
  cases e with
  | binary | call => cases slot <;> cases s <;> rfl
  | unary o _ _ =>
    cases o with
    | addressOf => cases h
    | neg | not => cases slot <;> cases s <;> rfl
  | _ => rfl

/-- Parentheses go missing and none come in. -/
theorem enclosed_bare (s : Spelling) (slot : Slot) (e : Node) :
    (s.encloses slot e.bare).toNat = (s.encloses slot e).toNat + e.lostAt s slot := by
  by_cases address : e.isAddress
  · simp only [Node.lostAt, encloses_address address, Bool.not_false, Bool.and_true]
    cases s.encloses slot e.bare <;> rfl
  · have same := encloses_bare (s := s) (by simpa using address) slot
    simp [Node.lostAt, same]

/-! ### Texts of operands -/

theorem grouped_length (parenthesized : Bool) (text : String) :
    (grouped parenthesized text).length = text.length + 2 * parenthesized.toNat := by
  cases parenthesized with
  | false => rfl
  | true =>
    have opening : "(".length = 1 := rfl
    have closing : ")".length = 1 := rfl
    rw [grouped, if_pos rfl, String.length_append, String.length_append, opening, closing, Bool.toNat_true]
    omega

theorem operandText_length (slot : Slot) (h : (e.bare.render s).length = (e.render s).length + 2 * e.lost s) :
    (e.bare.operandText s slot).length = (e.operandText s slot).length + 2 * (e.lost s + e.lostAt s slot) := by
  have enclosed := enclosed_bare s slot e
  simp only [Node.operandText, grouped_length, h]
  omega

theorem operandText_eq (slot : Slot) (h : e.lost s = 0 → e.bare.render s = e.render s)
    (none : e.lost s + e.lostAt s slot = 0) : e.bare.operandText s slot = e.operandText s slot := by
  have enclosed := enclosed_bare s slot e
  have injective : ∀ a b : Bool, a.toNat = b.toNat → a = b := by decide
  have same : s.encloses slot e.bare = s.encloses slot e := injective _ _ (by omega)
  rw [Node.operandText, Node.operandText, same, h (by omega)]

end

/-! ### Texts of expressions -/

section

variable (s : Spelling)

theorem render_binary (o : BinOp) (left right : Node) (l : Location) :
    (Node.binary o left right l).render s =
      left.operandText s (.left o) ++ " " ++ s.symbol o ++ " " ++ right.operandText s (.right o) := by
  rw [Node.render]
  rfl

theorem render_minus (operand : Node) (l : Location) :
    (Node.unary .neg operand l).render s = "-" ++ operand.operandText s .minus := by
  rw [Node.render]
  rfl

theorem render_not (operand : Node) (l : Location) :
    (Node.unary .not operand l).render s = s.notMark ++ operand.operandText s .not := by
  rw [Node.render]
  rfl

theorem render_call (x : String) (args : List Node) (l : Location) :
    (Node.call x args l).render s = x ++ "(" ++ String.intercalate ", " (Node.renderAll s args) ++ ")" := by
  rw [Node.render]

mutual

/-- The text without address operators is longer by the parentheses that went missing. -/
theorem render_bare_length (e : Node) : (e.bare.render s).length = (e.render s).length + 2 * e.lost s := by
  cases e with
  | unary o operand l =>
    have inner := render_bare_length operand
    cases o with
    | addressOf => simpa only [Node.bare, Node.render, Node.lost] using inner
    | neg =>
      have text := operandText_length .minus inner
      simp only [Node.bare, render_minus, Node.lost, String.length_append]
      omega
    | not =>
      have text := operandText_length .not inner
      simp only [Node.bare, render_not, Node.lost, String.length_append]
      omega
  | binary o left right l =>
    have first := operandText_length (.left o) (render_bare_length left)
    have second := operandText_length (.right o) (render_bare_length right)
    simp only [Node.bare, render_binary, Node.lost, String.length_append]
    omega
  | call x args l =>
    have list := renderAll_bare_length args
    simp only [Node.bare, render_call, Node.lost, String.length_append]
    omega
  | _ => rfl

theorem renderAll_bare_length (args : List Node) :
    (String.intercalate ", " (Node.renderAll s (Node.bareAll args))).length =
      (String.intercalate ", " (Node.renderAll s args)).length + 2 * Node.lostAll s args := by
  cases args with
  | nil => rfl
  | cons a args =>
    have first := render_bare_length a
    have others := renderAll_bare_length args
    cases args with
    | nil => simpa [Node.bareAll, Node.renderAll, Node.lostAll] using first
    | cons b args =>
      simp only [Node.bareAll, Node.renderAll, Node.lostAll, String.intercalate_cons_cons,
        String.length_append] at others ⊢
      omega

end

mutual

/-- Where no parentheses went missing the texts are the same. -/
theorem render_bare_eq (e : Node) (none : e.lost s = 0) : e.bare.render s = e.render s := by
  cases e with
  | unary o operand l =>
    have inner := render_bare_eq operand
    cases o with
    | addressOf =>
      simp only [Node.lost] at none
      simpa only [Node.bare, Node.render] using inner none
    | neg =>
      simp only [Node.lost] at none
      simp only [Node.bare, render_minus, operandText_eq .minus inner none]
    | not =>
      simp only [Node.lost] at none
      simp only [Node.bare, render_not, operandText_eq .not inner none]
  | binary o left right l =>
    simp only [Node.lost] at none
    have first := operandText_eq (.left o) (render_bare_eq left) (by omega)
    have second := operandText_eq (.right o) (render_bare_eq right) (by omega)
    simp only [Node.bare, render_binary, first, second]
  | call x args l =>
    simp only [Node.lost] at none
    simp only [Node.bare, render_call, renderAll_bare_eq args none]
  | _ => rfl

theorem renderAll_bare_eq (args : List Node) (none : Node.lostAll s args = 0) :
    Node.renderAll s (Node.bareAll args) = Node.renderAll s args := by
  cases args with
  | nil => rfl
  | cons a args =>
    simp only [Node.lostAll] at none
    simp only [Node.bareAll, Node.renderAll, render_bare_eq a (by omega), renderAll_bare_eq args (by omega)]

end

end

/-! ### Where nothing goes missing -/

/-- An address is taken of a name, a literal or a call only. -/
def Node.AddressesPrimary : Node → Prop
  | .unary .addressOf operand _ => operand.bare.isPrimary
  | _ => True

/-- A name, literal or call needs parentheses in no place. -/
theorem encloses_isPrimary (s : Spelling) (slot : Slot) {e : Node} (h : e.isPrimary) : s.encloses slot e = false := by
  cases e with
  | literal | identifier | call => cases slot <;> cases s <;> rfl
  | _ => cases h

theorem lostAt_eq_zero (s : Spelling) (slot : Slot) {e : Node} (h : e.AddressesPrimary) : e.lostAt s slot = 0 := by
  by_cases address : e.isAddress
  · have hidden : s.encloses slot e.bare = false := by
      unfold Node.isAddress at address
      split at address
      · exact encloses_isPrimary s slot h
      · cases address
    simp [Node.lostAt, hidden]
  · simp [Node.lostAt, encloses_bare (s := s) (by simpa using address) slot]

theorem lostAll_eq_zero (s : Spelling) {args : List Node} (h : ∀ a ∈ args, a.lost s = 0) : Node.lostAll s args = 0 := by
  induction args with
  | nil => rfl
  | cons a args ih =>
    obtain ⟨first, others⟩ := List.forall_mem_cons.mp h
    rw [Node.lostAll, first, ih others]

theorem lost_eq_zero (s : Spelling) {e : Node} (h : e.Everywhere Node.AddressesPrimary) : e.lost s = 0 := by
  induction h with
  | @mk n _ below ih =>
    cases n with
    | unary o operand l =>
      have child : operand ∈ (Node.unary o operand l).children.map Prod.snd := by simp [Node.children]
      have inner := ih operand child
      have place := (below operand child).here
      cases o <;> simp [Node.lost, inner, lostAt_eq_zero, place]
    | binary o left right l =>
      have first : left ∈ (Node.binary o left right l).children.map Prod.snd := by simp [Node.children]
      have second : right ∈ (Node.binary o left right l).children.map Prod.snd := by simp [Node.children]
      simp [Node.lost, ih left first, ih right second, lostAt_eq_zero, (below left first).here,
        (below right second).here]
    | call x args l =>
      rw [Node.lost]
      exact lostAll_eq_zero s fun a ha => ih a (by simpa [Node.children] using ha)
    | _ => rfl

/-- **Leaving out the address operator changes the text just where it hides an operand
that needs parentheses.** Each of them costs the text its two characters; where there is
none, the text is that of the expression without its address operators. There is none if
addresses are taken of names, literals and calls only. -/
theorem elision_keeps_text_iff (s : Spelling) (e : Node) :
    (e.bare.render s).length = (e.render s).length + 2 * e.lost s ∧
      (e.render s = e.bare.render s ↔ e.lost s = 0) ∧
      (e.Everywhere Node.AddressesPrimary → e.render s = e.bare.render s) := by
  have length := render_bare_length s e
  refine ⟨length, ⟨fun same => ?_, fun none => (render_bare_eq s e none).symm⟩, fun primary => ?_⟩
  · rw [same] at length
    omega
  · exact (render_bare_eq s e (lost_eq_zero s primary)).symm

/-- The texts of the expression that a source text starts with, in both languages, as
they are and without address operators. -/
def bothTexts (source : String) : Option (List String) :=
  (Parse.expression maxNesting (.ofTokens (tokenize source).tokens [])).1.map fun e =>
    [e.render .typed, e.bare.render .typed, e.render .indented, e.bare.render .indented]

/-- An address hides a sum from a product, and a negative number from a minus sign, which
then reads as another operator. -/
theorem elision_regroups :
    bothTexts "&(a + b) * c" = some ["a + b * c", "(a + b) * c", "a + b * c", "(a + b) * c"] ∧
      bothTexts "-&(-a)" = some ["--a", "-(-a)", "--a", "-(-a)"] ∧
      (tokenize "--a").tokens.map Token.text = [some "--", some "a", none] := by
  refine ⟨?_, ?_, ?_⟩ <;> decide +kernel

end MiniC
