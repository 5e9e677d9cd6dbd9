/-
# How high parsed trees are

The levels of nesting bound how far a tree goes down, with one exception: operators
are grouped from the left while the parser reads on, so a row of additions makes a tree
that is as high as the row is long, at one level of nesting. The height of parsed trees
has no bound (`height_unbounded`). If the steps from an operator to its left operand are
not counted there is one, and it depends on the levels alone
(`height_bounded_up_to_left_operands`).

The bound is read off the grammar, whose trees are the parsed ones: a level of an
expression has six tiers of operators and a call behind the address operator.

Key definitions: `Node.heightBy`, `Within`, `Node.sum`.
Key theorems: `operand_height`, `sentence_height`, `height_bounded_up_to_left_operands`,
`height_unbounded`.
-/
import MiniC.Proofs.Emission.Statement
import MiniC.Proofs.Soundness

namespace MiniC

open Lexeme Grammar

namespace Node

mutual

/-- The length of the longest way down, where a step from an operator to its left operand
counts `l` and any other node counts `s`. -/
def heightBy (s l : Nat) : Node → Nat
  | .program body => heightAll s l body + s
  | .inclusion .. => s
  | .function _ body _ => heightAll s l body + s
  | .declare _ _ init _ => height? s l init + s
  | .assign _ _ value _ => height? s l value + s
  | .branch test onTrue onFalse _ =>
    max (heightBy s l test) (max (heightBy s l onTrue) (height? s l onFalse)) + s
  | .whileLoop test body _ => max (heightBy s l test) (heightBy s l body) + s
  | .forLoop init test update body _ =>
    max (max (height? s l init) (height? s l test)) (max (height? s l update) (heightBy s l body)) + s
  | .ret value _ => height? s l value + s
  | .printf args _ => heightAll s l args + s
  | .scanf args _ => heightAll s l args + s
  | .call _ args _ => heightAll s l args + s
  | .block body _ => heightAll s l body + s
  | .binary _ left right _ => max (heightBy s l left + l) (heightBy s l right + s)
  | .unary _ operand _ => heightBy s l operand + s
  | .literal .. => s
  | .identifier .. => s

def heightAll (s l : Nat) : List Node → Nat
  | [] => 0
  | n :: ns => max (heightBy s l n) (heightAll s l ns)

def height? (s l : Nat) : Option Node → Nat
  | none => 0
  | some n => heightBy s l n

end

/-- The nodes on the longest way down. -/
abbrev height (n : Node) : Nat := n.heightBy 1 1

/-- The most left operands on one way down. -/
abbrev leftSteps (n : Node) : Nat := n.heightBy 0 1

mutual

/-- Places take no part in the height. -/
theorem heightBy_erase (s l : Nat) (n : Node) : n.erase.heightBy s l = n.heightBy s l := by
  cases n with
  | program body | function _ body _ | block body _ | printf body _ | scanf body _ | call _ body _ =>
    rw [erase, heightBy, heightBy, heightAll_erase s l body]
  | declare _ _ child _ | assign _ _ child _ | ret child _ =>
    rw [erase, heightBy, heightBy, height?_erase s l child]
  | branch test onTrue onFalse _ =>
    rw [erase, heightBy, heightBy, heightBy_erase s l test, heightBy_erase s l onTrue, height?_erase s l onFalse]
  | whileLoop test body _ => rw [erase, heightBy, heightBy, heightBy_erase s l test, heightBy_erase s l body]
  | forLoop init test update body _ =>
    rw [erase, heightBy, heightBy, height?_erase s l init, height?_erase s l test, height?_erase s l update,
      heightBy_erase s l body]
  | binary _ left right _ => rw [erase, heightBy, heightBy, heightBy_erase s l left, heightBy_erase s l right]
  | unary _ operand _ => rw [erase, heightBy, heightBy, heightBy_erase s l operand]
  | inclusion | literal | identifier => rfl

theorem heightAll_erase (s l : Nat) (ns : List Node) : heightAll s l (eraseAll ns) = heightAll s l ns := by
  cases ns with
  | nil => rfl
  | cons n ns => rw [eraseAll, heightAll, heightAll, heightBy_erase s l n, heightAll_erase s l ns]

theorem height?_erase (s l : Nat) (n : Option Node) : height? s l (erase? n) = height? s l n := by
  cases n with
  | none => rfl
  | some n => rw [erase?, height?, height?, heightBy_erase s l n]

end

theorem max_le_add {a b c d e f : Nat} (left : a ≤ b + c) (right : d ≤ e + f) :
    max a d ≤ max b e + max c f := by
  omega

mutual

/-- The longest way down is no longer than its two kinds of steps allow. -/
theorem height_le_add (n : Node) : n.heightBy 1 1 ≤ n.heightBy 1 0 + n.heightBy 0 1 := by
  cases n with
  | program body | function _ body _ | block body _ | printf body _ | scanf body _ | call _ body _ =>
    have := heightAll_le_add body
    simp only [heightBy]
    omega
  | declare _ _ child _ | assign _ _ child _ | ret child _ =>
    have := height?_le_add child
    simp only [heightBy]
    omega
  | branch test onTrue onFalse _ =>
    have := max_le_add (height_le_add test) (max_le_add (height_le_add onTrue) (height?_le_add onFalse))
    simp only [heightBy]
    omega
  | whileLoop test body _ =>
    have := max_le_add (height_le_add test) (height_le_add body)
    simp only [heightBy]
    omega
  | forLoop init test update body _ =>
    have := max_le_add (max_le_add (height?_le_add init) (height?_le_add test))
      (max_le_add (height?_le_add update) (height_le_add body))
    simp only [heightBy]
    omega
  | binary _ left right _ =>
    have := height_le_add left
    have := height_le_add right
    simp only [heightBy]
    omega
  | unary _ operand _ =>
    have := height_le_add operand
    simp only [heightBy]
    omega
  | inclusion | literal | identifier => exact Nat.le_refl 1

theorem heightAll_le_add (ns : List Node) : heightAll 1 1 ns ≤ heightAll 1 0 ns + heightAll 0 1 ns := by
  cases ns with
  | nil => exact Nat.le_refl 0
  | cons n ns =>
    simp only [heightAll]
    exact max_le_add (height_le_add n) (heightAll_le_add ns)

theorem height?_le_add (n : Option Node) : height? 1 1 n ≤ height? 1 0 n + height? 0 1 n := by
  cases n with
  | none => exact Nat.le_refl 0
  | some n => exact height_le_add n

end

end Node

/-! ### The bound without left operands -/

/-- All trees of the phrase are at most this high, left operands not counted. -/
def Within (bound : Nat) (P : Phrase) : Prop := ∀ ⦃ls : List Lexeme⦄ ⦃n : Node⦄, P ls n → n.heightBy 1 0 ≤ bound

section

variable {P Stmt Expr : Phrase} {bound : Nat} {ls : List Lexeme}

theorem many_height (h : Within bound P) {ns : List Node} (hns : Many P ls ns) : Node.heightAll 1 0 ns ≤ bound := by
  induction hns with
  | nil => exact Nat.zero_le bound
  | cons first _ ih => exact Nat.max_le.mpr ⟨h first, ih⟩

theorem items_height (h : Within bound P) {es : List Node} (hes : Items P ls es) :
    Node.heightAll 1 0 es ≤ bound := by
  induction hes with
  | one he => exact Nat.max_le.mpr ⟨h he, Nat.zero_le bound⟩
  | cons he _ ih => exact Nat.max_le.mpr ⟨h he, ih⟩

theorem arguments_height (h : Within bound P) {es : List Node} (hes : Arguments P ls es) :
    Node.heightAll 1 0 es ≤ bound := by
  cases hes with
  | none => exact Nat.zero_le bound
  | some items => exact items_height h items

theorem optional_height (h : Within bound P) {value : Option Node} (hvalue : Optional P ls value) :
    Node.height? 1 0 value ≤ bound := by
  cases hvalue with
  | none => exact Nat.zero_le bound
  | some he => exact h he

/-- The right operand of an operator is of a tier further down, so a tier adds one. -/
theorem tier_height (h : Within bound P) (k : Nat) : Within (bound + k) (Tier P k) := by
  intro ls n hn
  induction hn with
  | operand he => exact h he
  | lift _ ih => omega
  | binary o l _ _ _ ihLeft ihRight =>
    rw [Node.heightBy]
    omega

theorem primary_height (h : Within bound Expr) : Within (bound + 1) (Primary Expr) := by
  intro ls n hn
  cases hn with
  | number | string | name => exact Nat.le_add_left 1 bound
  | call x l args => exact Nat.succ_le_succ (arguments_height h args)
  | group he => exact Nat.le_succ_of_le (h he)

theorem operand_height (levels : Nat) : Within (8 * levels) (Operand levels) := by
  induction levels with
  | zero => exact fun _ _ h => h.elim
  | succ levels ih =>
    have primary := primary_height (tier_height ih 6)
    intro ls n hn
    cases hn with
    | primary he =>
      have := primary he
      omega
    | negation o l _ he =>
      have := ih he
      rw [Node.heightBy]
      omega
    | address l he =>
      have := primary he
      rw [Node.heightBy]
      omega

theorem declaration_height (hs : Within bound Stmt) (he : Within bound Expr) :
    Within (bound + 1) (Declaration Stmt Expr) := by
  intro ls n hn
  cases hn with
  | prototype | declared => exact Nat.le_add_left 1 bound
  | definition h l _ _ body => exact Nat.succ_le_succ (many_height hs body)
  | initialized name type l _ value => exact Nat.succ_le_succ (he value)

theorem nameClause_height (he : Within bound Expr) : Within (bound + 1) (NameClause Expr) := by
  intro ls n hn
  cases hn with
  | step => exact Nat.le_add_left 1 bound
  | assign target o l _ value => exact Nat.succ_le_succ (he value)
  | expression value => exact Nat.le_succ_of_le (he value)

theorem forInit_height (hs : Within bound Stmt) (he : Within bound Expr) {init : Option Node}
    (h : ForInit Stmt Expr ls init) : Node.height? 1 0 init ≤ bound + 1 := by
  cases h with
  | none => exact Nat.zero_le _
  | declaration declared _ => exact declaration_height hs he declared
  | definition declared _ => exact declaration_height hs he declared
  | clause clause => exact nameClause_height he clause

theorem forUpdate_height (he : Within bound Expr) {update : Option Node} (h : ForUpdate Expr ls update) :
    Node.height? 1 0 update ≤ bound + 1 := by
  cases h with
  | none => exact Nat.zero_le _
  | clause clause => exact nameClause_height he clause
  | expression value _ => exact Nat.le_succ_of_le (he value)

/-- A statement is two higher than its parts: a clause of a `for` may be a declaration. -/
theorem sentence_height (hs : Within bound Stmt) (he : Within bound Expr) :
    Within (bound + 2) (Sentence Stmt Expr) := by
  intro ls n hn
  cases hn with
  | inclusion => exact Nat.le_add_left 1 (bound + 1)
  | declaration declared => exact Nat.le_succ_of_le (declaration_height hs he declared)
  | branch l test body =>
    have := he test
    have := hs body
    simp only [Node.heightBy, Node.height?]
    omega
  | branchElse l test body _ other =>
    have := he test
    have := hs body
    have := hs other
    simp only [Node.heightBy, Node.height?]
    omega
  | whileLoop l test body =>
    have := he test
    have := hs body
    rw [Node.heightBy]
    omega
  | forLoop l init test update body =>
    have := forInit_height hs he init
    have := optional_height he test
    have := forUpdate_height he update
    have := hs body
    rw [Node.heightBy]
    omega
  | ret l value => exact Nat.le_succ_of_le (Nat.succ_le_succ (optional_height he value))
  | printf l args => exact Nat.le_succ_of_le (Nat.succ_le_succ (arguments_height he args))
  | scanf l args => exact Nat.le_succ_of_le (Nat.succ_le_succ (arguments_height he args))
  | block l body => exact Nat.le_succ_of_le (Nat.succ_le_succ (many_height hs body))
  | clause clause => exact Nat.le_succ_of_le (nameClause_height he clause)

theorem statement_height (levels : Nat) : Within (8 * levels) (Grammar.Statement levels) := by
  induction levels with
  | zero => exact fun _ _ h => h.elim
  | succ levels ih =>
    have expression : Within (8 * levels + 6) (Expression levels) := tier_height (operand_height levels) 6
    have statement : Within (8 * levels + 6) (Grammar.Statement levels) := fun _ _ h => Nat.le_add_right_of_le (ih h)
    exact fun _ _ h => sentence_height statement expression h

end

/-- **The levels of nesting bound the height up to left operands**: without them by a
number that does not depend on the source text, and with them by as many more nodes as
there are left operands on one way down. -/
theorem height_bounded_up_to_left_operands (source : String) :
    (parseSource source).tree.heightBy 1 0 ≤ 8 * (maxNesting + 1) + 1 ∧
      (parseSource source).tree.height ≤ 8 * (maxNesting + 1) + 1 + (parseSource source).tree.leftSteps := by
  obtain ⟨ls, ns, tree, phrases⟩ :=
    Parse.program_forms (.ofTokens (tokenize source).tokens (tokenize source).diagnostics)
  have same : (parseSource source).tree = .program ns := tree
  have bounded : (Node.program ns).heightBy 1 0 ≤ 8 * (maxNesting + 1) + 1 := by
    rw [Node.heightBy]
    exact Nat.succ_le_succ (many_height (statement_height (maxNesting + 1)) phrases)
  have split := Node.height_le_add (.program ns)
  rw [same]
  exact ⟨bounded, Nat.le_trans split (Nat.add_le_add_right bounded _)⟩

/-! ### Rows of operators -/

/-- The sum `a + a + … + a` with `count` signs. -/
def Node.sum : (count : Nat) → Node
  | 0 => .identifier "a" .nowhere
  | count + 1 => .binary .add (sum count) (.identifier "a" .nowhere) .nowhere

/-- The signs are one way down. -/
theorem sum_height (count : Nat) : count < (Node.sum count).heightBy 1 1 := by
  induction count with
  | zero => exact Nat.zero_lt_one
  | succ count ih =>
    rw [Node.sum, Node.heightBy]
    exact Nat.lt_of_lt_of_le (Nat.succ_lt_succ ih) (Nat.le_max_left _ _)

theorem sum_expression (count : Nat) : (Node.sum count).IsExpression := by
  induction count with
  | zero => exact .identifier _ trivial
  | succ count ih => exact .binary _ _ ih (.identifier _ trivial)

theorem sum_portable (count : Nat) : (Node.sum count).Everywhere Node.Portable := by
  have name : (Node.identifier "a" .nowhere).Everywhere Node.Portable :=
    .mk (.of_next 'a' [] rfl rfl rfl) (by simp [Node.children])
  induction count with
  | zero => exact name
  | succ count ih => exact .mk trivial (by simpa [Node.sum, Node.children] using ⟨ih, name⟩)

theorem sum_escaped (count : Nat) : (Node.sum count).escaped = Node.sum count := by
  induction count with
  | zero => rfl
  | succ count ih =>
    rw [Node.escaped] at ih
    rw [Node.sum, Node.escaped, Node.mapStrings, ih, Node.mapStrings]

/-- However long it is, a sum takes one level of nesting. -/
theorem sum_depth (count : Nat) : (Node.sum count).depth typedWords = 1 := by
  induction count with
  | zero => rfl
  | succ count ih =>
    have bare : typedWords.groups .add (Node.sum count) false = false := by
      cases count <;> rfl
    rw [Node.sum, Node.depth, ih, bare]
    rfl

/-- The statement `return a + a + … + a;`. -/
def returnedSum (count : Nat) : Node := .ret (some (.sum count)) .nowhere

theorem returnedSum_parsed (count : Nat) :
    (parseSource (Layout.text ((Java.statements false 0 [returnedSum count]).map .line))).tree.erase =
      (Node.program [returnedSum count]).erase := by
  have emits : ∀ n ∈ [returnedSum count], Emitted n := by
    refine List.forall_mem_singleton.mpr (.ret ?_ (.mk trivial ?_))
    · simpa using sum_expression count
    · simpa [Node.children, Node.inRole] using sum_portable count
  have normal : Node.normalAll [returnedSum count] = [returnedSum count] := by
    simp only [returnedSum, Node.normalAll, Node.normal, Option.map_some, sum_escaped]
  have shallow : Node.nestingAllIn typedWords (Node.normalAll [returnedSum count]) ≤ maxNesting := by
    rw [normal]
    simp only [returnedSum, Node.nestingAllIn, Node.nestingIn, Node.depthIn?, sum_depth]
    decide
  rw [(parseSource_emitted 0 emits shallow).2, normal]

/-- **The height of parsed trees has no bound**: the sum with `bound` signs is higher. -/
theorem height_unbounded : ¬∃ bound, ∀ source, (parseSource source).tree.height ≤ bound := by
  rintro ⟨bound, bounded⟩
  have high := sum_height bound
  have low := bounded (Layout.text ((Java.statements false 0 [returnedSum bound]).map .line))
  rw [Node.height, ← Node.heightBy_erase, returnedSum_parsed, Node.heightBy_erase] at low
  simp only [returnedSum, Node.heightBy, Node.heightAll, Node.height?] at low
  omega

end MiniC
