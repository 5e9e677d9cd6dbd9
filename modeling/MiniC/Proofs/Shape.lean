/-
# The shape of parsed trees

One type of node serves for statements and for expressions, so nothing in the type
keeps a loop out of a condition. The parser does. Whatever the tokens are and however
much of them is skipped, every node of a parsed tree is a phrase of the grammar
(`Node.Phrased`), and what stands below it in a place is a phrase of the kind that the
place is for (`Parts`). All that is said here of single nodes is read off the rules of
the grammar and holds everywhere in the tree (`Node.Phrased.everywhere`).

An `else` belongs to the nearest `if` that could take it: what stands before it in the
same branch cannot take it any more (`parse_else_nearest`).

Key definitions: `Node.isExpr`, `Node.valuePlaces`, `Node.statementPlaces`, `Node.leads`,
`Node.Shaped`, `Node.ElseBound`.
Key theorems: `Node.Phrased.child`, `Node.Phrased.everywhere`, `parse_shaped`, `parse_else_nearest`.
-/
import MiniC.Proofs.Emission.Statement
import MiniC.Proofs.Soundness

namespace MiniC

open Lexeme Grammar

namespace Node

/-! ### Places in a tree -/

/-- The node has a value: it is an operation, a literal, a name or a call. -/
def isExpr : Node → Bool
  | .binary .. | .unary .. | .literal .. | .identifier .. | .call .. => true
  | _ => false

def isProgram : Node → Bool
  | .program .. => true
  | _ => false

def isFunction : Node → Bool
  | .function .. => true
  | _ => false

def isDeclared : Node → Bool
  | .declare .. => true
  | _ => false

def isAssigned : Node → Bool
  | .assign .. => true
  | _ => false

/-- The conditions, arguments, operands, initializers, assigned and returned values
right below the node. -/
def valuePlaces : Node → List Node
  | .declare _ _ init _ => init.toList
  | .assign _ _ value _ | .ret value _ => value.toList
  | .branch condition _ _ _ | .whileLoop condition _ _ => [condition]
  | .forLoop _ condition _ _ _ => condition.toList
  | .printf args _ | .scanf args _ | .call _ args _ => args
  | .binary _ left right _ => [left, right]
  | .unary _ operand _ => [operand]
  | .program .. | .inclusion .. | .function .. | .block .. | .literal .. | .identifier .. => []

/-- The nodes right below that stand as statements. -/
def statementPlaces : Node → List Node
  | .program body | .function _ body _ | .block body _ => body
  | .branch _ onTrue onFalse _ => onTrue :: onFalse.toList
  | .whileLoop _ body _ | .forLoop _ _ _ body _ => [body]
  | _ => []

/-- The first and the last clause of a `for`. -/
def clausePlaces : Node → List Node
  | .forLoop init _ update _ _ => init.toList ++ update.toList
  | _ => []

theorem mem_inRole {role : String} {child : Option Node} {m : Node} :
    m ∈ (inRole role child).map Prod.snd ↔ m ∈ child.toList := by
  cases child <;> simp [inRole]

/-- The three kinds of places are all there are. -/
theorem mem_children {n m : Node} : m ∈ n.children.map Prod.snd ↔
    m ∈ n.valuePlaces ∨ m ∈ n.statementPlaces ∨ m ∈ n.clausePlaces := by
  cases n with
  | program | function | block | printf | scanf | call =>
    simp [children, valuePlaces, statementPlaces, clausePlaces]
  | declare | assign | ret =>
    simp only [children, mem_inRole, valuePlaces, statementPlaces, clausePlaces, List.not_mem_nil, or_false]
  | branch =>
    simp only [children, List.map_cons, List.mem_cons, mem_inRole, valuePlaces, statementPlaces, clausePlaces,
      List.not_mem_nil, or_false]
  | whileLoop | binary | unary | inclusion | literal | identifier =>
    simp [children, valuePlaces, statementPlaces, clausePlaces]
  | forLoop =>
    simp only [children, List.map_append, List.mem_append, mem_inRole, valuePlaces, statementPlaces, clausePlaces,
      List.map_cons, List.map_nil, List.mem_singleton]
    tauto

/-! ### What is asked of a node -/

/-- Down its left operands the expression has operators that bind ever tighter, from
`bound` on or as tight, and at the end a name or a call. -/
def leads (bound : Nat) : Node → Bool
  | .binary o left _ _ => bound ≤ o.precedence && leads o.precedence left
  | .identifier .. | .call .. => true
  | _ => false

/-- The node goes together with what it holds: a step has no value and every other
assignment has one, a prototype has no body, a number with a point is a float, and
the clauses of a `for` are such. -/
def WellMade : Node → Prop
  | .assign _ o value _ => value = none ↔ o = .increment ∨ o = .decrement
  | .function header body _ => header.isPrototype → body = []
  | .literal text kind _ => kind ≠ .string → (kind = .float ↔ '.' ∈ text.toList)
  | .forLoop init _ update _ _ =>
    (∀ m ∈ init, m.isDeclared ∨ m.isFunction ∨ m.isAssigned ∨ m.isExpr) ∧
      ∀ m ∈ update, m.isAssigned ∨ m.isExpr
  | _ => True

/-- The shape of a node in a parsed tree. -/
structure Shaped (n : Node) : Prop where
  values : ∀ e ∈ n.valuePlaces, e.isExpr
  made : n.WellMade
  below : ∀ m ∈ n.children.map Prod.snd, m.isProgram = false
  named : ∀ e ∈ n.statementPlaces, e.isExpr → e.leads 0

/-- The branch before an `else` cannot take the `else` for itself. -/
def ElseBound : Node → Prop
  | .branch _ onTrue (some _) _ => onTrue.isOpen = false
  | _ => True

end Node

/-! ### Phrases are made of phrases -/

/-- Some row of words stands for the expression. -/
def Node.Expressed (e : Node) : Prop := ∃ levels ls, Expression levels ls e

/-- Some row of words stands for the statement. -/
def Node.Stated (n : Node) : Prop := ∃ levels ls, Grammar.Statement levels ls n

/-- In each place below the node stands a phrase of the kind that the place is for, and
the node itself is as the grammar makes it. -/
structure Parts (n : Node) : Prop where
  values : ∀ e ∈ n.valuePlaces, e.Expressed
  statements : ∀ m ∈ n.statementPlaces, m.Stated
  clauses : ∀ m ∈ n.clausePlaces, m.Stated ∨ m.Expressed
  made : n.WellMade
  inner : n.isProgram = false
  elseBound : n.ElseBound

namespace Grammar

variable {P : Phrase} {ls : List Lexeme} {ns : List Node}

theorem Many.all (h : Many P ls ns) : ∀ n ∈ ns, ∃ ms, P ms n := by
  induction h with
  | nil => simp
  | cons first _ ih => exact List.forall_mem_cons.mpr ⟨⟨_, first⟩, ih⟩

theorem Items.all (h : Items P ls ns) : ∀ n ∈ ns, ∃ ms, P ms n := by
  induction h with
  | one only => simpa using ⟨_, only⟩
  | cons first _ ih => exact List.forall_mem_cons.mpr ⟨⟨_, first⟩, ih⟩

theorem Arguments.all (h : Arguments P ls ns) : ∀ n ∈ ns, ∃ ms, P ms n := by
  cases h with
  | none => simp
  | some items => exact items.all

theorem Optional.all {value : Option Node} (h : Optional P ls value) : ∀ n ∈ value.toList, ∃ ms, P ms n := by
  cases h with
  | none => simp
  | some only => simpa using ⟨_, only⟩

end Grammar

/-! ### Expressions -/

section

variable {levels : Nat} {ls : List Lexeme} {e : Node}

theorem numberKind_float (text : String) : Parse.numberKind text = .float ↔ '.' ∈ text.toList := by
  unfold Parse.numberKind
  split <;> simp_all

/-- An expression has no places but those of its operands. -/
theorem Parts.ofValues (isExpr : e.isExpr) (values : ∀ x ∈ e.valuePlaces, x.Expressed) (made : e.WellMade) :
    Parts e := by
  cases e with
  | binary | unary | literal | identifier | call =>
    exact ⟨values, List.forall_mem_nil _, List.forall_mem_nil _, made, rfl, trivial⟩
  | _ => simp [Node.isExpr] at isExpr

theorem expressed_of_operand (h : Operand levels ls e) : e.Expressed :=
  ⟨levels, ls, Tier.mono (.operand h) (Nat.zero_le 6)⟩

/-- The node is an expression made of expressions. -/
def IsFormula (e : Node) : Prop := e.isExpr ∧ Parts e

theorem tier_isFormula (operands : ∀ {ls e}, Operand levels ls e → IsFormula e) {k : Nat}
    (h : Tier (Operand levels) k ls e) (le : k ≤ 6) : IsFormula e := by
  induction h with
  | operand he => exact operands he
  | lift _ ih => exact ih (by omega)
  | @binary k ls ms left right o l hleft _ hright _ _ =>
    have first : left.Expressed := ⟨levels, ls, hleft.mono le⟩
    have second : right.Expressed := ⟨levels, ms, hright.mono (by omega)⟩
    exact ⟨rfl, .ofValues rfl (by simpa [Node.valuePlaces] using ⟨first, second⟩) trivial⟩

theorem primary_isFormula (operands : ∀ {ls e}, Operand levels ls e → IsFormula e)
    (h : Primary (Tier (Operand levels) 6) ls e) : IsFormula e := by
  cases h with
  | number text l => exact ⟨rfl, .ofValues rfl (List.forall_mem_nil _) fun _ => numberKind_float text⟩
  | string text l => exact ⟨rfl, .ofValues rfl (List.forall_mem_nil _) fun other => absurd rfl other⟩
  | name x l => exact ⟨rfl, .ofValues rfl (List.forall_mem_nil _) trivial⟩
  | call x l args => exact ⟨rfl, .ofValues rfl (fun a ha => ⟨levels, args.all a ha⟩) trivial⟩
  | group he => exact tier_isFormula operands he (Nat.le_refl 6)

theorem operand_isFormula (h : Operand levels ls e) : IsFormula e := by
  induction levels generalizing ls e with
  | zero => exact h.elim
  | succ levels ih =>
    cases h with
    | primary he => exact primary_isFormula ih he
    | negation o l _ he =>
      exact ⟨rfl, .ofValues rfl (List.forall_mem_singleton.mpr (expressed_of_operand he)) trivial⟩
    | address l he =>
      -- what the address is taken of is a primary, which is an operand one level further up
      have inner : Operand (levels + 1) _ _ := Prefixed.primary he
      exact ⟨rfl, .ofValues rfl (List.forall_mem_singleton.mpr (expressed_of_operand inner)) trivial⟩

theorem Node.Expressed.isFormula (h : e.Expressed) : IsFormula e := by
  obtain ⟨levels, ls, phrase⟩ := h
  exact tier_isFormula operand_isFormula phrase (Nat.le_refl 6)

theorem Node.leads_mono {bound bound' : Nat} (le : bound' ≤ bound) (h : e.leads bound) : e.leads bound' := by
  cases e with
  | binary o left _ _ =>
    simp only [leads, Bool.and_eq_true, decide_eq_true_eq] at h ⊢
    exact ⟨Nat.le_trans le h.1, h.2⟩
  | _ => exact h

theorem operand_leads (h : Operand levels ls e) (name : Node.startsWithName ls) (bound : Nat) : e.leads bound := by
  cases levels with
  | zero => exact h.elim
  | succ levels =>
    cases h with
    | primary he =>
      cases he with
      | name | call => rfl
      | number | string | group => cases name
    | negation | address => cases name

/-- The tier says how tight the operators bind on the way to the name that comes first. -/
theorem tier_leads {k : Nat} (h : Tier (Operand levels) k ls e) (name : Node.startsWithName ls) :
    e.leads (7 - k) := by
  induction h with
  | operand he => exact operand_leads he name _
  | lift _ ih => exact Node.leads_mono (by omega) (ih name)
  | @binary k ls ms left right o l _ precedence _ ih _ =>
    rw [Node.startsWithName_append_op] at name
    have further := ih name
    rw [show 7 - (k + 1) = o.precedence by omega] at further ⊢
    simp [Node.leads, further]

end

/-! ### Statements -/

section

variable {levels : Nat} {ls : List Lexeme} {n : Node}

/-- The node is a statement made of phrases, and if it is an expression it starts with a
name. -/
def IsSentence (n : Node) : Prop := Parts n ∧ (n.isExpr → n.leads 0)

theorem Parts.isSentence (h : Parts n) (other : n.isExpr = false) : IsSentence n :=
  ⟨h, by simp [other]⟩

theorem isStep_iff (o : AssignOp) : o.isStep = true ↔ o = .increment ∨ o = .decrement := by
  cases o <;> simp [AssignOp.isStep]

theorem assign_isSentence {target : String} {o : AssignOp} {value : Option Node} (l : Location)
    (values : ∀ e ∈ value, e.Expressed) (made : value = none ↔ o.isStep = true) :
    IsSentence (.assign target o value l) := by
  rw [isStep_iff] at made
  refine Parts.isSentence ⟨?_, List.forall_mem_nil _, List.forall_mem_nil _, made, rfl, trivial⟩ rfl
  simpa [Node.valuePlaces] using values

theorem nameClause_isSentence (h : NameClause (Expression levels) ls n) :
    IsSentence n ∧ (n.isAssigned ∨ n.isExpr) := by
  cases h with
  | step target o l isStep => exact ⟨assign_isSentence l (by simp) (by simp [isStep]), .inl rfl⟩
  | assign target o l isStep he =>
    exact ⟨assign_isSentence l (by simpa using ⟨levels, _, he⟩) (by simp [isStep]), .inl rfl⟩
  | expression he =>
    obtain ⟨isExpr, parts⟩ := Node.Expressed.isFormula ⟨levels, _, he⟩
    exact ⟨⟨parts, fun _ => Node.leads_mono (Nat.zero_le _) (tier_leads he rfl)⟩, .inr isExpr⟩

theorem function_isSentence {header : Header} {body : List Node} (l : Location)
    (statements : ∀ m ∈ body, m.Stated) (made : header.isPrototype → body = []) :
    IsSentence (.function header body l) :=
  Parts.isSentence ⟨List.forall_mem_nil _, statements, List.forall_mem_nil _, made, rfl, trivial⟩ rfl

theorem declare_isSentence {name type : String} {init : Option Node} (l : Location)
    (values : ∀ e ∈ init, e.Expressed) : IsSentence (.declare name type init l) := by
  refine Parts.isSentence ⟨?_, List.forall_mem_nil _, List.forall_mem_nil _, trivial, rfl, trivial⟩ rfl
  simpa [Node.valuePlaces] using values

theorem declaration_isSentence (h : Declaration (Grammar.Statement levels) (Expression levels) ls n) :
    IsSentence n ∧ (n.isDeclared ∨ n.isFunction) := by
  cases h with
  | prototype header l _ _ => exact ⟨function_isSentence l (by simp) fun _ => rfl, .inr rfl⟩
  | definition header l isPrototype _ items =>
    refine ⟨function_isSentence l (fun m hm => ⟨levels, items.all m hm⟩) fun prototype => ?_, .inr rfl⟩
    rw [isPrototype] at prototype
    cases prototype
  | declared name type l _ => exact ⟨declare_isSentence l (by simp), .inl rfl⟩
  | initialized name type l _ he => exact ⟨declare_isSentence l (by simpa using ⟨levels, _, he⟩), .inl rfl⟩

/-- The first clause of a `for` is a statement that could stand alone. -/
theorem forInit_stated {init : Option Node} (h : ForInit (Grammar.Statement levels) (Expression levels) ls init) :
    ∀ m ∈ init, m.Stated ∧ (m.isDeclared ∨ m.isFunction ∨ m.isAssigned ∨ m.isExpr) := by
  have declared {ms : List Lexeme} {m : Node} (h : Declaration (Grammar.Statement levels) (Expression levels) ms m) :
      m.Stated ∧ (m.isDeclared ∨ m.isFunction ∨ m.isAssigned ∨ m.isExpr) :=
    ⟨⟨levels + 1, ms, .declaration h⟩, (declaration_isSentence h).2.elim .inl fun function => .inr (.inl function)⟩
  cases h with
  | none => simp
  | declaration h _ => simpa using declared h
  | definition h _ => simpa using declared h
  | clause h =>
    have kind := (nameClause_isSentence h).2
    simpa using ⟨⟨levels + 1, _, .clause h⟩, .inr (.inr kind)⟩

theorem forUpdate_phrased {update : Option Node} (h : ForUpdate (Expression levels) ls update) :
    ∀ m ∈ update, (m.Stated ∨ m.Expressed) ∧ (m.isAssigned ∨ m.isExpr) := by
  cases h with
  | none => simp
  | clause h =>
    have kind := (nameClause_isSentence h).2
    simpa using ⟨.inl ⟨levels + 1, _, .clause h⟩, kind⟩
  | @expression _ e he _ =>
    have expressed : e.Expressed := ⟨levels, ls, he⟩
    simpa using ⟨.inr expressed, .inr expressed.isFormula.1⟩

theorem sentence_isSentence (h : Sentence (Grammar.Statement levels) (Expression levels) ls n) : IsSentence n := by
  cases h with
  | inclusion library l =>
    have nothing (P : Node → Prop) : ∀ m ∈ [], P m := List.forall_mem_nil P
    exact Parts.isSentence ⟨nothing _, nothing _, nothing _, trivial, rfl, trivial⟩ rfl
  | declaration h => exact (declaration_isSentence h).1
  | clause h => exact (nameClause_isSentence h).1
  | branch l test onTrue =>
    refine Parts.isSentence ⟨?_, ?_, List.forall_mem_nil _, trivial, rfl, trivial⟩ rfl
    · exact List.forall_mem_singleton.mpr ⟨levels, _, test⟩
    · simpa [Node.statementPlaces] using ⟨levels, _, onTrue⟩
  | @branchElse ks ms ns test onTrue onFalse l htest hTrue closed hFalse =>
    have first : onTrue.Stated := ⟨levels, ms, hTrue⟩
    have second : onFalse.Stated := ⟨levels, ns, hFalse⟩
    refine Parts.isSentence ⟨?_, ?_, List.forall_mem_nil _, trivial, rfl, closed⟩ rfl
    · exact List.forall_mem_singleton.mpr ⟨levels, _, htest⟩
    · simpa [Node.statementPlaces] using ⟨first, second⟩
  | whileLoop l test body =>
    refine Parts.isSentence ⟨?_, ?_, List.forall_mem_nil _, trivial, rfl, trivial⟩ rfl
    · exact List.forall_mem_singleton.mpr ⟨levels, _, test⟩
    · exact List.forall_mem_singleton.mpr ⟨levels, _, body⟩
  | forLoop l init test update body =>
    have first := forInit_stated init
    have last := forUpdate_phrased update
    refine Parts.isSentence ⟨fun e he => ⟨levels, test.all e he⟩, ?_, ?_, ?_, rfl, trivial⟩ rfl
    · exact List.forall_mem_singleton.mpr ⟨levels, _, body⟩
    · intro m hm
      rcases List.mem_append.mp hm with hm | hm
      · exact .inl (first m (Option.mem_toList.mp hm)).1
      · exact (last m (Option.mem_toList.mp hm)).1
    · exact ⟨fun m hm => (first m hm).2, fun m hm => (last m hm).2⟩
  | ret l value =>
    refine Parts.isSentence ⟨?_, List.forall_mem_nil _, List.forall_mem_nil _, trivial, rfl, trivial⟩ rfl
    exact fun e he => ⟨levels, value.all e he⟩
  | printf l args | scanf l args =>
    refine Parts.isSentence ⟨?_, List.forall_mem_nil _, List.forall_mem_nil _, trivial, rfl, trivial⟩ rfl
    exact fun e he => ⟨levels, args.all e he⟩
  | block l items =>
    refine Parts.isSentence ⟨List.forall_mem_nil _, ?_, List.forall_mem_nil _, trivial, rfl, trivial⟩ rfl
    exact fun m hm => ⟨levels, items.all m hm⟩

theorem Node.Stated.isSentence (h : n.Stated) : IsSentence n := by
  obtain ⟨levels, ls, phrase⟩ := h
  cases levels with
  | zero => exact phrase.elim
  | succ levels => exact sentence_isSentence phrase

end

/-! ### The whole tree -/

/-- The node is a statement or expression of the grammar. -/
def Node.Phrased (n : Node) : Prop := n.Stated ∨ n.Expressed

namespace Node.Phrased

variable {n : Node}

theorem parts (h : n.Phrased) : Parts n := by
  rcases h with stated | expressed
  · exact stated.isSentence.1
  · exact expressed.isFormula.2

/-- What stands below a phrase is a phrase. -/
theorem child (h : n.Phrased) {m : Node} (member : m ∈ n.children.map Prod.snd) : m.Phrased := by
  rcases mem_children.mp member with value | statement | clause
  · exact .inr (h.parts.values m value)
  · exact .inl (h.parts.statements m statement)
  · exact h.parts.clauses m clause

/-- What holds of all phrases holds everywhere in one. -/
theorem everywhere {P : Node → Prop} (each : ∀ {m : Node}, m.Phrased → P m) (h : n.Phrased) : n.Everywhere P :=
  (Everywhere.of_child (fun h member => h.child member) h).imp each

theorem shaped (h : n.Phrased) : n.Shaped where
  values e he := (h.parts.values e he).isFormula.1
  made := h.parts.made
  below _ hm := (h.child hm).parts.inner
  named e he := (h.parts.statements e he).isSentence.2

end Node.Phrased

/-- **All nodes of a parsed tree below its root are phrases.** -/
theorem parse_phrased (tokens : List Token) :
    ∃ body, (parseTokens tokens).tree = .program body ∧ ∀ n ∈ body, n.Stated := by
  obtain ⟨ls, body, tree, items⟩ := Parse.program_forms (Cursor.ofTokens tokens [])
  exact ⟨body, tree, fun n hn => ⟨maxNesting + 1, items.all n hn⟩⟩

/-- What holds of phrases and of a program made of statements holds everywhere in a
parsed tree. -/
theorem parse_everywhere {P : Node → Prop} (each : ∀ {n : Node}, n.Phrased → P n)
    (root : ∀ {body : List Node}, (∀ n ∈ body, n.Stated) → P (.program body)) (tokens : List Token) :
    (parseTokens tokens).tree.Everywhere P := by
  obtain ⟨body, tree, stated⟩ := parse_phrased tokens
  rw [tree]
  refine .mk (root stated) fun m member => ?_
  have inside : m ∈ body := by simpa [Node.children] using member
  exact Node.Phrased.everywhere each (.inl (stated m inside))

theorem parse_shaped (tokens : List Token) : (parseTokens tokens).tree.Everywhere Node.Shaped := by
  refine parse_everywhere Node.Phrased.shaped (fun {body} stated => ?_) tokens
  refine ⟨List.forall_mem_nil _, trivial, fun m hm => ?_, fun e he => (stated e he).isSentence.2⟩
  have inside : m ∈ body := by simpa [Node.children] using hm
  exact (stated m inside).isSentence.1.inner

/-- **An `else` belongs to the nearest `if` that could take it.** In a parsed tree the
branch before an `else` is never open, through all chains of branches and loops, and
whatever was skipped or dropped inside it. The parser sees to it, since a statement
that it leaves open has no `else` behind it. -/
theorem parse_else_nearest (tokens : List Token) :
    (parseTokens tokens).tree.Everywhere Node.ElseBound ∧
      ∀ levels c, Parse.Ensures (Parse.statement levels) c fun n c' =>
        ∀ m ∈ n, m.isOpen → ¬c'.looksAt .keyword "else" := by
  refine ⟨parse_everywhere (fun h => h.parts.elseBound) (fun _ => trivial) tokens, fun levels c => ?_⟩
  exact (Parse.statement_forms levels c).mono fun _ _ found m hm => (found m hm).2

end MiniC
