/-
# The indented text of an expression keeps its tree

The indented language reads comparisons and `not` in another order of precedence than
the parser does, and its spelling has parentheses for that
(`Spelling.groups`). They suffice: the words of an expression are derivable in the
grammar of the language at the tier of the expression's outermost operator
(`spell_formula`), and the tree of the derivation is the expression. Since the
grammar is unambiguous there is no other derivation, and no text of an expression
is ever taken for a chain of comparisons (`indented_text_derives`).

Key definitions: `Node.formula`, `Node.tier`, `Vocabulary.indented`, `Formula.hasChain`.
Key theorems: `tier_le_of_ungrouped`, `spell_formula`, `indented_text_derives`.
-/
import MiniC.Proofs.Formula
import MiniC.Proofs.Rendering

namespace MiniC

open Lexeme Formula

namespace Node

mutual

/-- The formula that an expression stands for, its strings escaped. As in its text,
an address is its operand and a statement is nothing. -/
def formula : Node → Formula
  | .literal text .string _ => .string (Text.escapeQuotes text)
  | .literal text _ _ => .number text
  | .identifier x _ => .name x
  | .call x args _ => .call x (formulaAll args)
  | .binary o left right _ => .binary o (formula left) (formula right)
  | .unary .neg operand _ => .minus (formula operand)
  | .unary .not operand _ => .not (formula operand)
  | .unary .addressOf operand _ => formula operand
  | .program .. | .inclusion .. | .function .. | .declare .. | .assign .. | .branch ..
  | .whileLoop .. | .forLoop .. | .ret .. | .printf .. | .scanf .. | .block .. => .name ""

def formulaAll : List Node → List Formula
  | [] => []
  | n :: ns => formula n :: formulaAll ns

end

/-- The tier of the outermost operator. -/
def tier : Node → Nat
  | .binary o _ _ _ => tierOf o
  | .unary .neg _ _ => 1
  | .unary .not _ _ => 5
  | _ => 0

end Node

/-- The words that the indented language reads back: names are not reserved. -/
def Vocabulary.indented : Vocabulary :=
  { Vocabulary.written with name := fun x => LexesAs x (ident x) ∧ x ∉ reserved }

theorem formulaAll_eq_map (ns : List Node) : Node.formulaAll ns = ns.map Node.formula := by
  induction ns with
  | nil => rfl
  | cons n ns ih => rw [Node.formulaAll, ih, List.map_cons]

/-! ### Parentheses suffice -/

theorem tierOf_spec (o : BinOp) :
    if o.isComparison then tierOf o = 4 ∧ (o.precedence = 3 ∨ o.precedence = 4)
    else tierOf o = 8 - o.precedence ∧ o.precedence ≠ 3 ∧ o.precedence ≠ 4 := by
  cases o <;> decide

theorem tierOf_bounds (o : BinOp) : 2 ≤ tierOf o ∧ tierOf o ≤ 7 := by
  cases o <;> decide

theorem tier_le (e : Node) : e.tier ≤ 7 := by
  cases e with
  | binary o _ _ _ => exact (tierOf_bounds o).2
  | unary o _ _ => cases o <;> simp [Node.tier]
  | _ => exact Nat.zero_le 7

/-- The tier that the grammar has to the left of an operator: comparisons do not group. -/
def leftTier (o : BinOp) : Nat := if o.isComparison then 3 else tierOf o

/-- An operand without parentheses has a tier that the grammar allows there. -/
theorem tier_le_of_ungrouped {o : BinOp} {e : Node} {right : Bool}
    (h : Spelling.indented.groups o e right = false) :
    e.tier ≤ if right then tierOf o - 1 else leftTier o := by
  have spec := tierOf_spec o
  have bounds := tierOf_bounds o
  have strong := o.precedence_bounds
  obtain ⟨tight, apart⟩ := Bool.or_eq_false_iff.mp h
  cases e with
  | binary o' _ _ _ =>
    have spec' := tierOf_spec o'
    have strong' := o'.precedence_bounds
    simp only [Spelling.bindsLooser, Bool.or_eq_false_iff, Bool.and_eq_false_iff,
      decide_eq_false_iff_not] at tight apart
    simp only [Node.tier, leftTier]
    cases right <;> cases hc : o.isComparison <;> cases hc' : o'.isComparison <;>
      simp [hc, hc'] at spec spec' tight apart ⊢ <;> omega
  | unary mark _ _ =>
    cases mark with
    | not =>
      have connective : o = .and ∨ o = .or := by
        simpa [or_iff_not_imp_left] using apart
      show 5 ≤ if right then tierOf o - 1 else leftTier o
      rcases connective with rfl | rfl <;> cases right <;> decide
    | neg =>
      simp only [Node.tier, leftTier]
      split <;> [skip; split] <;> omega
    | addressOf => exact Nat.zero_le _
  | _ => exact Nat.zero_le _

/-! ### Derivations -/

section

variable {Whole : Reading}

theorem rule_lift {P : Reading} {ls : List Lexeme} {f : Formula} (h : P ls f) : ∀ k, rule (k + 1) P ls f
  | 0 => .operand h
  | 1 => .operand h
  | 2 => .operand h
  | 3 => by
    have alone := Compared.links h .nil
    rwa [List.append_nil] at alone
  | 4 => .operand h
  | 5 => .operand h
  | 6 => .operand h
  | _ + 7 => h

theorem Formula.Tier.mono {k k' : Nat} {ls : List Lexeme} {f : Formula} (h : Tier Whole k ls f)
    (le : k ≤ k') : Tier Whole k' ls f := by
  induction le with
  | refl => exact h
  | step _ ih => exact rule_lift ih _

/-- An operator between operands of the tiers that it asks for. -/
theorem binary_tier (o : BinOp) {ls ms : List Lexeme} {left right : Formula}
    (hleft : Tier Whole (leftTier o) ls left) (hright : Tier Whole (tierOf o - 1) ms right) :
    Tier Whole (tierOf o) (ls ++ operator o :: ms) (.binary o left right) := by
  have compare (o : BinOp) (ho : o ∈ comparisons) (hleft : Tier Whole 3 ls left)
      (hright : Tier Whole 3 ms right) : Tier Whole 4 (ls ++ operator o :: ms) (.binary o left right) := by
    have pair := Compared.links hleft (.cons ho hright .nil)
    rwa [List.append_nil] at pair
  cases o with
  | or | and | add | sub | mul | div | mod => exact .join (by decide) hleft hright
  | eq | ne | lt | gt | le | ge => exact compare _ (by decide) hleft hright

/-- An operand in parentheses or without is a phrase of the tier that is asked for. -/
theorem parens_formula {f : Formula} {ls : List Lexeme} {depth levels k k' : Nat} {grouped : Bool}
    (h : ∀ levels, depth ≤ levels + 1 → Tier (Nested levels) k ls f) (pos : 0 < depth) (whole : k ≤ 7)
    (tight : grouped = false → k ≤ k') (hd : deepen grouped depth ≤ levels + 1) :
    Tier (Nested levels) k' (parens grouped ls) f := by
  cases grouped with
  | false => exact (h levels hd).mono (tight rfl)
  | true =>
    have room : depth ≤ levels := Nat.le_of_succ_le_succ hd
    cases levels with
    | zero => exact absurd pos (Nat.not_lt_of_le room)
    | succ n =>
      have inside : Nested (n + 1) ls f := (h n room).mono whole
      have group : Tier (Nested (n + 1)) 0 (parens true ls) f := .group inside
      exact group.mono (Nat.zero_le k')

end

theorem symbol_eq_operator (o : BinOp) : (Orthography.of .indented).symbol o = operator o := by
  cases o <;> rfl

theorem tier_le_of_nonbinary {e : Node} (h : e.isBinary = false) : e.tier ≤ 5 := by
  cases e with
  | binary => simp [Node.isBinary] at h
  | unary o _ _ => cases o <;> simp [Node.tier]
  | _ => exact Nat.zero_le 5

theorem tier_le_of_plain {e : Node} (h : (e.isBinary || e.isNegation) = false) : e.tier ≤ 1 := by
  cases e with
  | binary => simp [Node.isBinary] at h
  | unary o _ _ => cases o <;> simp [Node.isNegation, Node.tier] at h ⊢
  | _ => exact Nat.zero_le 1

/-- **The words of an expression are derivable**, at the tier of its outermost operator. -/
theorem spell_formula {e : Node} (he : e.BuiltFrom .indented) : ∀ levels, e.depth (.of .indented) ≤ levels + 1 →
    Tier (Nested levels) e.tier (e.spell (.of .indented)) e.formula := by
  induction he with
  | @number text kind l notString _ =>
    intro levels _
    cases kind with
    | string => exact absurd rfl notString
    | int | float => exact .number text
  | @string text l _ => exact fun levels _ => .string (Text.escapeQuotes text)
  | identifier l h => exact fun levels _ => .name h.2
  | @call x args l h hargs ih =>
    intro levels hd
    have whole : ∀ a ∈ args, Nested levels (a.spell (.of .indented)) a.formula := by
      intro a ha
      have pos := depth_pos (.of .indented) (hargs a ha)
      have deep : a.depth (.of .indented) ≤ levels :=
        Nat.le_trans (depth_le_of_mem ha) (Nat.le_of_succ_le_succ hd)
      cases levels with
      | zero => exact absurd pos (Nat.not_lt_of_le deep)
      | succ n => exact (ih a ha n deep).mono (tier_le a)
    rw [Node.spell, Node.formula, formulaAll_eq_map]
    exact .call h.2 (arguments_spell _ whole)
  | @binary left right o l hleft hright ihLeft ihRight =>
    intro levels hd
    rw [Node.depth, Nat.max_le] at hd
    rw [Node.spell, symbol_eq_operator]
    refine binary_tier o ?_ ?_
    · exact parens_formula ihLeft (depth_pos _ hleft) (tier_le left) tier_le_of_ungrouped hd.1
    · exact parens_formula ihRight (depth_pos _ hright) (tier_le right) tier_le_of_ungrouped hd.2
  | @unary o operand l hmark he ih =>
    intro levels hd
    have pos := depth_pos (.of .indented) he
    cases o with
    | addressOf => exact absurd rfl hmark
    | neg =>
      rw [depth_negation _ (by decide)] at hd
      have inside : Tier (Nested levels) 1 _ operand.formula :=
        parens_formula ih pos (tier_le operand) tier_le_of_plain (Nat.le_of_succ_le hd)
      exact .mark inside
    | not =>
      rw [depth_negation _ (by decide)] at hd
      have inside : Tier (Nested levels) 5 _ operand.formula :=
        parens_formula ih pos (tier_le operand) tier_le_of_nonbinary (Nat.le_of_succ_le hd)
      exact .mark inside

/-! ### No other derivation -/

mutual

/-- A chain of comparisons occurs in the formula. -/
def Formula.hasChain : Formula → Bool
  | .chain .. => true
  | .call _ args => anyChain args
  | .minus operand | .not operand => hasChain operand
  | .binary _ left right => hasChain left || hasChain right
  | .number _ | .string _ | .name _ => false

def Formula.anyChain : List Formula → Bool
  | [] => false
  | f :: fs => hasChain f || anyChain fs

end

theorem anyChain_map {ns : List Node} (h : ∀ n ∈ ns, n.formula.hasChain = false) :
    anyChain (ns.map Node.formula) = false := by
  induction ns with
  | nil => rfl
  | cons n ns ih =>
    rw [List.map_cons, anyChain, h n List.mem_cons_self,
      ih fun m hm => h m (List.mem_cons_of_mem n hm), Bool.or_false]

theorem formula_hasChain {v : Vocabulary} {e : Node} (he : e.BuiltFrom v) : e.formula.hasChain = false := by
  induction he with
  | @number _ kind _ _ _ => cases kind <;> rfl
  | string _ _ => rfl
  | identifier _ _ => rfl
  | call _ _ _ ih => rw [Node.formula, formulaAll_eq_map, hasChain, anyChain_map ih]
  | binary _ _ _ _ ihLeft ihRight => rw [Node.formula, hasChain, ihLeft, ihRight, Bool.or_false]
  | @unary o _ _ _ _ ih =>
    cases o with
    | neg | not => rw [Node.formula, hasChain, ih]
    | addressOf => rw [Node.formula, ih]

/-- **The indented text of an expression keeps its tree.** It is read without a report,
its words are derivable in the grammar of the language, the derivation tree is the
expression and no other, and it has no chain of comparisons. -/
theorem indented_text_derives {e : Node} (he : e.BuiltFrom .indented) :
    (tokenize (e.render .indented)).diagnostics = [] ∧
      (∀ f, Derives (wordsOf (tokenize (e.render .indented)).tokens) f ↔ f = e.formula) ∧
      e.formula.hasChain = false := by
  have written : e.BuiltFrom .written := he.mono (fun h => h.1) id id id
  obtain ⟨words, clean⟩ := render_tokens .indented written
  have derived : Derives (e.spell (.of .indented)) e.formula :=
    ⟨e.depth (.of .indented) + 1, (spell_formula he _ (Nat.le_succ _)).mono (tier_le e)⟩
  refine ⟨clean, fun f => ?_, formula_hasChain he⟩
  rw [words]
  constructor
  · exact fun other => derives_unique other derived
  · rintro rfl
    exact derived

/-- The expression `(!a == b) && ((a < b) == (b < -a))`. -/
def mixedComparison : Node :=
  let a : Node := .identifier "a" .nowhere
  let b : Node := .identifier "b" .nowhere
  .binary .and (.binary .eq (.unary .not a .nowhere) b .nowhere)
    (.binary .eq (.binary .lt a b .nowhere) (.binary .lt b (.unary .neg a .nowhere) .nowhere) .nowhere) .nowhere

theorem mixedComparison_builtFrom : mixedComparison.BuiltFrom .indented := by
  have name : ∀ x ∈ ["a", "b"], Vocabulary.indented.name x :=
    show ∀ x ∈ ["a", "b"], LexesAs x (ident x) ∧ x ∉ reserved by decide +kernel
  have a : (Node.identifier "a" .nowhere).BuiltFrom .indented := .identifier _ (name "a" (by decide))
  have b : (Node.identifier "b" .nowhere).BuiltFrom .indented := .identifier _ (name "b" (by decide))
  have neg : Vocabulary.indented.mark .neg := show UnaryOp.neg ≠ .addressOf by decide
  have not : Vocabulary.indented.mark .not := show UnaryOp.not ≠ .addressOf by decide
  exact .binary _ _ (.binary _ _ (.unary _ not a) b)
    (.binary _ _ (.binary _ _ a b) (.binary _ _ b (.unary _ neg a)))

theorem indented_text_derives_mixed :
    mixedComparison.BuiltFrom .indented ∧
      mixedComparison.render .indented = "(not a) == b and (a < b) == (b < -a)" ∧
      ∀ f, Derives (wordsOf (tokenize (mixedComparison.render .indented)).tokens) f ↔
        f = mixedComparison.formula :=
  ⟨mixedComparison_builtFrom, by decide +kernel, (indented_text_derives mixedComparison_builtFrom).2.1⟩

end MiniC
