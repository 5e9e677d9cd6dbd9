/-
# Writing an expression in words

An orthography is a way to write expressions as rows of words: how the operators are
spelled, which operands stand in parentheses, and what becomes of the text of a
string. The words of an expression follow its tree (`Node.spell`), and its depth is
the number of operands that are open at one time when the words are read
(`Node.depth`).

An orthography is faithful if it spells operators as the parser knows them and puts
parentheses at least where precedence asks for them. In a faithful one the words
of an expression are a phrase of the grammar, and it stands for the expression
(`spell_tier`, `spell_expression`).

Key definitions: `Vocabulary`, `Node.BuiltFrom`, `Orthography`, `Node.spell`, `Node.depth`,
`Node.mapStrings`, `Orthography.Faithful`.
Key theorems: `spell_tier`, `spell_expression`.
-/
import MiniC.Emit.Expression
import MiniC.Proofs.Grammar

namespace MiniC

open Lexeme

/-! ### Expressions over a vocabulary -/

/-- The words that may occur in an expression. -/
structure Vocabulary where
  name : String → Prop
  number : String → LiteralKind → Prop
  string : String → Prop
  mark : UnaryOp → Prop

namespace Node

/-- The tree is an expression, and its words are in the vocabulary. -/
inductive BuiltFrom (v : Vocabulary) : Node → Prop
  | number {text : String} {kind : LiteralKind} (l : Location) :
    kind ≠ .string → v.number text kind → BuiltFrom v (.literal text kind l)
  | string {text : String} (l : Location) : v.string text → BuiltFrom v (.literal text .string l)
  | identifier {x : String} (l : Location) : v.name x → BuiltFrom v (.identifier x l)
  | call {x : String} {args : List Node} (l : Location) :
    v.name x → (∀ a ∈ args, BuiltFrom v a) → BuiltFrom v (.call x args l)
  | binary {left right : Node} (o : BinOp) (l : Location) :
    BuiltFrom v left → BuiltFrom v right → BuiltFrom v (.binary o left right l)
  | unary {o : UnaryOp} {operand : Node} (l : Location) :
    v.mark o → BuiltFrom v operand → BuiltFrom v (.unary o operand l)

mutual

/-- The tree with the text of each string changed by `f`. -/
def mapStrings (f : String → String) : Node → Node
  | .program body => .program (mapStringsAll f body)
  | .inclusion library l => .inclusion library l
  | .function header body l => .function header (mapStringsAll f body) l
  | .declare name type init l => .declare name type (mapStrings? f init) l
  | .assign target o value l => .assign target o (mapStrings? f value) l
  | .branch condition onTrue onFalse l =>
    .branch (mapStrings f condition) (mapStrings f onTrue) (mapStrings? f onFalse) l
  | .whileLoop condition body l => .whileLoop (mapStrings f condition) (mapStrings f body) l
  | .forLoop init condition update body l =>
    .forLoop (mapStrings? f init) (mapStrings? f condition) (mapStrings? f update)
      (mapStrings f body) l
  | .ret value l => .ret (mapStrings? f value) l
  | .printf args l => .printf (mapStringsAll f args) l
  | .scanf args l => .scanf (mapStringsAll f args) l
  | .call name args l => .call name (mapStringsAll f args) l
  | .block body l => .block (mapStringsAll f body) l
  | .binary o left right l => .binary o (mapStrings f left) (mapStrings f right) l
  | .unary o operand l => .unary o (mapStrings f operand) l
  | .literal text .string l => .literal (f text) .string l
  | .literal text kind l => .literal text kind l
  | .identifier name l => .identifier name l

def mapStringsAll (f : String → String) : List Node → List Node
  | [] => []
  | n :: ns => mapStrings f n :: mapStringsAll f ns

def mapStrings? (f : String → String) : Option Node → Option Node
  | none => none
  | some n => some (mapStrings f n)

end

end Node

/-! ### Orthographies -/

/-- How expressions are written. -/
structure Orthography where
  symbol : BinOp → Lexeme
  mark : UnaryOp → List Lexeme
  /-- The operand of a binary operator, the right one or not, stands in parentheses. -/
  groups : BinOp → Node → Bool → Bool
  /-- The operand of a prefix operator stands in parentheses. -/
  groupsPrefixed : UnaryOp → Node → Bool
  text : String → String

/-- The words, in parentheses if asked for. -/
def parens (grouped : Bool) (ls : List Lexeme) : List Lexeme :=
  if grouped then punct "(" :: ls ++ [punct ")"] else ls

/-- The words of arguments with their commas and parentheses. -/
def argumentWords (args : List (List Lexeme)) : List Lexeme :=
  punct "(" :: List.intercalate [punct ","] args ++ [punct ")"]

/-- The depth of an operand of this depth, one more in parentheses. -/
def deepen (grouped : Bool) (depth : Nat) : Nat :=
  if grouped then depth + 1 else depth

namespace Node

mutual

/-- The words of an expression. -/
def spell (s : Orthography) : Node → List Lexeme
  | .literal text .string _ => [(.string, s.text text)]
  | .literal text _ _ => [(.number, text)]
  | .identifier x _ => [ident x]
  | .call x args _ => ident x :: argumentWords (spellAll s args)
  | .binary o left right _ =>
    parens (s.groups o left false) (spell s left) ++
      s.symbol o :: parens (s.groups o right true) (spell s right)
  | .unary o operand _ => s.mark o ++ parens (s.groupsPrefixed o operand) (spell s operand)
  | .program .. | .inclusion .. | .function .. | .declare .. | .assign .. | .branch ..
  | .whileLoop .. | .forLoop .. | .ret .. | .printf .. | .scanf .. | .block .. => []

def spellAll (s : Orthography) : List Node → List (List Lexeme)
  | [] => []
  | n :: ns => spell s n :: spellAll s ns

end

mutual

/-- The operands that are open at one time when the words are read. The address
operator stands before a primary and opens none of its own. -/
def depth (s : Orthography) : Node → Nat
  | .call _ args _ => depthAll s args + 1
  | .binary o left right _ =>
    max (deepen (s.groups o left false) (depth s left)) (deepen (s.groups o right true) (depth s right))
  | .unary .addressOf operand _ => deepen (s.groupsPrefixed .addressOf operand) (depth s operand)
  | .unary o operand _ => deepen (s.groupsPrefixed o operand) (depth s operand) + 1
  | _ => 1

def depthAll (s : Orthography) : List Node → Nat
  | [] => 0
  | n :: ns => max (depth s n) (depthAll s ns)

end

/-- The tier at which the tree is a phrase: one for each precedence, and the lowest
for what is no binary operation. -/
def rank : Node → Nat
  | .binary o _ _ _ => 7 - o.precedence
  | _ => 0

/-- The tree is a literal, a name or a call. -/
def isPrimary : Node → Bool
  | .literal .. | .identifier .. | .call .. => true
  | _ => false

end Node

/-- The orthography spells the expressions of a vocabulary as the parser reads them. -/
structure Orthography.Faithful (s : Orthography) (v : Vocabulary) : Prop where
  number : ∀ {text kind}, v.number text kind → kind = Parse.numberKind text
  symbol : ∀ o, s.symbol o = op o.symbol
  mark : ∀ {o}, v.mark o → s.mark o = [op o.symbol]
  groups : ∀ {o e right}, s.groups o e right = false → Spelling.bindsLooser o e right = false
  groupsPrefixed : ∀ {o e}, v.mark o → s.groupsPrefixed o e = false → e.isBinary = false
  groupsAddress : ∀ {e}, v.mark .addressOf → s.groupsPrefixed .addressOf e = false → e.isPrimary

/-! ### The words of an expression are a phrase -/

open Grammar

theorem Grammar.Tier.mono {P : Phrase} {k k' : Nat} {ls : List Lexeme} {e : Node}
    (h : Tier P k ls e) (le : k ≤ k') : Tier P k' ls e := by
  induction le with
  | refl => exact h
  | step _ ih => exact .lift ih

theorem Grammar.Tier.of_zero {P : Phrase} {ls : List Lexeme} {e : Node} (h : Tier P 0 ls e) : P ls e := by
  cases h with
  | operand h => exact h

theorem Grammar.Prefixed.of_primary {P : Phrase} {ls : List Lexeme} {e : Node} (h : Prefixed P ls e)
    (he : e.isPrimary) : Primary (Tier P 6) ls e := by
  cases h with
  | primary h => exact h
  | negation _ _ _ _ => simp [Node.isPrimary] at he
  | address _ _ => simp [Node.isPrimary] at he

theorem isPrimary_mapStrings (f : String → String) (e : Node) :
    (e.mapStrings f).isPrimary = e.isPrimary := by
  cases e with
  | literal text kind l => cases kind <;> rfl
  | _ => rfl

theorem rank_eq_zero {e : Node} (h : e.isBinary = false) : e.rank = 0 := by
  cases e with
  | binary => simp [Node.isBinary] at h
  | _ => rfl

theorem rank_le (e : Node) : e.rank ≤ 6 := by
  cases e with
  | binary o _ _ _ =>
    have := o.precedence_bounds
    simp only [Node.rank]
    omega
  | _ => exact Nat.zero_le 6

/-- An operand that does not bind looser than its operator has a tier within the
operator's on the left, and below it on the right. -/
theorem rank_le_of_tight {o : BinOp} {e : Node} {right : Bool}
    (h : Spelling.bindsLooser o e right = false) :
    e.rank ≤ if right then 6 - o.precedence else 7 - o.precedence := by
  cases e with
  | binary o' _ _ _ =>
    simp only [Spelling.bindsLooser, Bool.or_eq_false_iff, Bool.and_eq_false_iff,
      decide_eq_false_iff_not] at h
    simp only [Node.rank]
    cases right with
    | false =>
      rw [if_neg (by simp)]
      omega
    | true =>
      rw [if_pos rfl]
      have equal : ¬o'.precedence = o.precedence := h.2.resolve_left (by simp)
      omega
  | _ => exact Nat.zero_le _

/-- An operand in parentheses or without is a phrase of the tier that is asked for. -/
theorem parens_tier {e e' : Node} {ls : List Lexeme} {depth levels k : Nat} {grouped : Bool}
    (h : ∀ levels, depth ≤ levels → Tier (Operand levels) e.rank ls e')
    (tight : grouped = false → e.rank ≤ k) (hd : deepen grouped depth ≤ levels) :
    Tier (Operand levels) k (parens grouped ls) e' := by
  cases grouped with
  | false => exact (h levels hd).mono (tight rfl)
  | true =>
    cases levels with
    | zero => exact absurd hd (Nat.not_succ_le_zero depth)
    | succ n =>
      have inner : Tier (Operand n) 6 ls e' := (h n (Nat.le_of_succ_le_succ hd)).mono (rank_le e)
      have operand : Operand (n + 1) (parens true ls) e' := .primary (.group inner)
      exact Tier.mono (.operand operand) (Nat.zero_le k)

theorem items_spell (s : Orthography) {α : Type} {Expr : List Lexeme → α → Prop} {f : Node → α} :
    ∀ {a : Node} {args : List Node}, (∀ b ∈ a :: args, Expr (b.spell s) (f b)) →
      Items Expr (List.intercalate [punct ","] (Node.spellAll s (a :: args))) ((a :: args).map f)
  | a, [], h => by
    rw [Node.spellAll, Node.spellAll, List.intercalate_singleton]
    exact .one (h a List.mem_cons_self)
  | a, b :: args, h => by
    have more := items_spell s fun c hc => h c (List.mem_cons_of_mem a hc)
    have both := Items.cons (h a List.mem_cons_self) more
    rw [Node.spellAll, Node.spellAll, List.intercalate_cons_cons]
    simpa [Node.spellAll] using both

/-- The words of arguments are a phrase, if those of each argument are. -/
theorem arguments_spell (s : Orthography) {α : Type} {Expr : List Lexeme → α → Prop} {f : Node → α}
    {args : List Node} (h : ∀ b ∈ args, Expr (b.spell s) (f b)) :
    Arguments Expr (argumentWords (Node.spellAll s args)) (args.map f) := by
  cases args with
  | nil => exact .none
  | cons a args => exact .some (items_spell s h)

theorem mapStringsAll_eq_map (f : String → String) (ns : List Node) :
    Node.mapStringsAll f ns = ns.map (Node.mapStrings f) := by
  induction ns with
  | nil => rfl
  | cons n ns ih => rw [Node.mapStringsAll, ih, List.map_cons]

theorem depth_le_of_mem {s : Orthography} {a : Node} {args : List Node} (h : a ∈ args) :
    a.depth s ≤ Node.depthAll s args := by
  induction args with
  | nil => simp at h
  | cons b args ih =>
    rw [Node.depthAll]
    rcases List.mem_cons.mp h with rfl | h
    · exact Nat.le_max_left _ _
    · exact Nat.le_trans (ih h) (Nat.le_max_right _ _)

theorem depth_negation (s : Orthography) {o : UnaryOp} (h : o ≠ .addressOf) (e : Node) (l : Location) :
    (Node.unary o e l).depth s = deepen (s.groupsPrefixed o e) (e.depth s) + 1 := by
  cases o with
  | addressOf => exact absurd rfl h
  | neg => rw [Node.depth]; simp
  | not => rw [Node.depth]; simp

theorem le_deepen (grouped : Bool) (depth : Nat) : depth ≤ deepen grouped depth := by
  cases grouped with
  | false => exact Nat.le_refl depth
  | true => exact Nat.le_succ depth

theorem depth_pos (s : Orthography) {v : Vocabulary} {e : Node} (h : e.BuiltFrom v) : 0 < e.depth s := by
  induction h with
  | number _ _ _ => simp [Node.depth]
  | string _ _ => simp [Node.depth]
  | identifier _ _ => simp [Node.depth]
  | call _ _ _ _ => simp [Node.depth]
  | binary o l _ _ ih _ =>
    rw [Node.depth]
    exact Nat.lt_of_lt_of_le (Nat.lt_of_lt_of_le ih (le_deepen _ _)) (Nat.le_max_left _ _)
  | @unary o e l _ _ ih =>
    cases o with
    | addressOf =>
      rw [Node.depth]
      exact Nat.lt_of_lt_of_le ih (le_deepen _ _)
    | neg | not =>
      rw [depth_negation s (by decide)]
      exact Nat.succ_pos _

/-- The operand of the address operator is a primary. -/
theorem address_spell {s : Orthography} {v : Vocabulary} (hs : s.Faithful v) (hmark : v.mark .addressOf)
    {e : Node} {n : Nat}
    (h : ∀ levels, e.depth s ≤ levels →
      Tier (Operand levels) e.rank (e.spell s) (e.mapStrings s.text))
    (hd : deepen (s.groupsPrefixed .addressOf e) (e.depth s) ≤ n + 1) :
    Primary (Tier (Operand n) 6) (parens (s.groupsPrefixed .addressOf e) (e.spell s))
      (e.mapStrings s.text) := by
  cases grouped : s.groupsPrefixed .addressOf e with
  | true =>
    rw [grouped] at hd
    exact .group ((h n (Nat.le_of_succ_le_succ hd)).mono (rank_le e))
  | false =>
    rw [grouped] at hd
    have word := h (n + 1) hd
    rw [rank_eq_zero (hs.groupsPrefixed hmark grouped)] at word
    exact word.of_zero.of_primary (by rw [isPrimary_mapStrings]; exact hs.groupsAddress hmark grouped)

/-- **The words of an expression are a phrase for it**, at the tier of its loosest
operator, as soon as there are levels for its depth. -/
theorem spell_tier {s : Orthography} {v : Vocabulary} (hs : s.Faithful v) {e : Node}
    (he : e.BuiltFrom v) : ∀ levels, e.depth s ≤ levels →
      Tier (Operand levels) e.rank (e.spell s) (e.mapStrings s.text) := by
  induction he with
  | @number text kind l notString hword =>
    rintro (_ | n) hd
    · cases kind <;> simp [Node.depth] at hd
    · have word : Operand (n + 1) [(.number, text)] (.literal text kind l) := by
        rw [hs.number hword]
        exact .primary (.number text l)
      cases kind with
      | string => exact absurd rfl notString
      | int => exact .operand word
      | float => exact .operand word
  | @string text l _ =>
    rintro (_ | n) hd
    · simp [Node.depth] at hd
    · have word : Operand (n + 1) [(.string, s.text text)] (.literal (s.text text) .string l) :=
        .primary (.string _ l)
      exact .operand word
  | @identifier x l _ =>
    rintro (_ | n) hd
    · simp [Node.depth] at hd
    · have word : Operand (n + 1) [ident x] (.identifier x l) := .primary (.name x l)
      exact .operand word
  | @call x args l _ _ ih =>
    rintro (_ | n) hd
    · simp [Node.depth] at hd
    · have inner : ∀ a ∈ args, Tier (Operand n) 6 (a.spell s) (a.mapStrings s.text) := by
        intro a ha
        have deep := depth_le_of_mem (s := s) ha
        rw [Node.depth] at hd
        exact (ih a ha n (by omega)).mono (rank_le a)
      have word : Operand (n + 1) (ident x :: argumentWords (Node.spellAll s args))
          (.call x (args.map (Node.mapStrings s.text)) l) := .primary (.call x l (arguments_spell s inner))
      rw [Node.spell, Node.mapStrings, mapStringsAll_eq_map]
      exact .operand word
  | @binary left right o l _ _ ihLeft ihRight =>
    intro levels hd
    rw [Node.depth, Nat.max_le] at hd
    have bounds := o.precedence_bounds
    have hleft : Tier (Operand levels) (6 - o.precedence + 1) (parens (s.groups o left false) (left.spell s))
        (left.mapStrings s.text) := by
      refine parens_tier ihLeft (fun tight => ?_) hd.1
      have := rank_le_of_tight (hs.groups tight)
      rw [if_neg (by simp)] at this
      omega
    have hright : Tier (Operand levels) (6 - o.precedence) (parens (s.groups o right true) (right.spell s))
        (right.mapStrings s.text) := by
      refine parens_tier ihRight (fun tight => ?_) hd.2
      have := rank_le_of_tight (hs.groups tight)
      rwa [if_pos rfl] at this
    rw [Node.spell, Node.mapStrings, Node.rank, hs.symbol]
    have := Tier.binary o l hleft (by omega) hright
    rwa [show 7 - o.precedence = 6 - o.precedence + 1 by omega]
  | @unary o e l hmark he ih =>
    rintro (_ | n) hd
    · exact absurd (depth_pos s (.unary l hmark he)) (Nat.not_lt_of_le hd)
    · rw [Node.spell, Node.mapStrings, hs.mark hmark]
      refine .operand ?_
      by_cases address : o = .addressOf
      · subst address
        rw [Node.depth] at hd
        exact .address l (address_spell hs hmark ih hd)
      · rw [depth_negation s address] at hd
        have zero : s.groupsPrefixed o e = false → e.rank ≤ 0 := fun tight =>
          Nat.le_of_eq (rank_eq_zero (hs.groupsPrefixed hmark tight))
        exact .negation o l address (parens_tier ih zero (Nat.le_of_succ_le_succ hd)).of_zero

/-- An expression is a phrase of as many levels as it is deep. -/
theorem spell_expression {s : Orthography} {v : Vocabulary} (hs : s.Faithful v) {e : Node}
    (he : e.BuiltFrom v) {levels : Nat} (hd : e.depth s ≤ levels) :
    Expression levels (e.spell s) (e.mapStrings s.text) :=
  (spell_tier hs he levels hd).mono (rank_le e)

end MiniC
