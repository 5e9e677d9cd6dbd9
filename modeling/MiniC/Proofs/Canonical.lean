/-
# The canonical spelling of a program

Every tree that the parser can build has one canonical spelling: parentheses only
where precedence asks for them, a semicolon behind every simple statement, branches
and blocks as they are (`Node.canonical`). The trees in question are those of
`Node.IsProgram`, and the levels that are open at one time while the words are read
are counted by `Node.nesting`.

Reading the canonical spelling gives the tree back, up to places, and reports
nothing (`parse_canonical_spelling`): the words are a program of the grammar
(`sentence_canonical`), and the parser reads every program of the grammar.

Key definitions: `Orthography.canonical`, `Node.IsStatement`, `Node.IsProgram`, `Node.canonical`,
`Node.nesting`.
Key theorems: `sentence_canonical`, `parse_canonical_spelling`.
-/
import MiniC.Proofs.Completeness.Statement
import MiniC.Proofs.Orthography

namespace MiniC

open Lexeme Grammar

/-! ### Expressions -/

/-- Parentheses only where the parser needs them, and the texts of strings as they are. -/
def Orthography.canonical : Orthography where
  symbol o := op o.symbol
  mark o := [op o.symbol]
  groups := Spelling.bindsLooser
  groupsPrefixed
    | .addressOf, e => !e.isPrimary
    | _, e => e.isBinary
  text := id

/-- All words; a number is a float if its text holds a dot. -/
def Vocabulary.all : Vocabulary where
  name _ := True
  number text kind := kind = Parse.numberKind text
  string _ := True
  mark _ := True

namespace Node

/-- The tree is an expression that the parser can build. -/
abbrev IsExpression (e : Node) : Prop := e.BuiltFrom .all

/-- The canonical words of an expression, none if there is no expression. -/
def spell? : Option Node → List Lexeme
  | none => []
  | some e => e.spell .canonical

/-- The levels that an expression needs, none if there is no expression. -/
def depth? : Option Node → Nat
  | none => 0
  | some e => e.depth .canonical

/-! ### Statements -/

/-- The words start with a name. -/
def startsWithName : List Lexeme → Bool
  | (.identifier, _) :: _ => true
  | _ => false

theorem startsWithName_append_op (ls : List Lexeme) (symbol : String) (ms : List Lexeme) :
    startsWithName (ls ++ op symbol :: ms) = startsWithName ls := by
  cases ls with
  | nil => rfl
  | cons l ls =>
    obtain ⟨kind, text⟩ := l
    cases kind <;> rfl

/-- The statement may be the first clause of a `for`. -/
def initializes : Node → Bool
  | .function .. | .declare .. | .assign .. | .call .. | .binary .. | .unary .. | .literal ..
  | .identifier .. => true
  | _ => false

/-- An assignment has a value unless its operator is a step. -/
inductive IsAssignment : Node → Prop
  | step (target : String) (o : AssignOp) (l : Location) : o.isStep = true →
    IsAssignment (.assign target o none l)
  | value {e : Node} (target : String) (o : AssignOp) (l : Location) : o.isStep = false →
    e.IsExpression → IsAssignment (.assign target o (some e) l)

/-- The tree is a statement that the parser can build. -/
inductive IsStatement : Node → Prop
  | inclusion (library : String) (l : Location) : IsStatement (.inclusion library l)
  | prototype (h : Header) (l : Location) : h.isPrototype = true → TypedHeader h →
    IsStatement (.function h [] l)
  | definition {body : List Node} (h : Header) (l : Location) : h.isPrototype = false →
    TypedHeader h → (∀ n ∈ body, IsStatement n) → IsStatement (.function h body l)
  | declare {init : Option Node} (name type : String) (l : Location) : isTypeKeyword type →
    (∀ e ∈ init, e.IsExpression) → IsStatement (.declare name type init l)
  | assign {n : Node} : n.IsAssignment → IsStatement n
  | branch {test onTrue : Node} {onFalse : Option Node} (l : Location) : test.IsExpression →
    IsStatement onTrue → (∀ n ∈ onFalse, IsStatement n) →
    (onFalse.isSome → onTrue.isOpen = false) → IsStatement (.branch test onTrue onFalse l)
  | whileLoop {test body : Node} (l : Location) : test.IsExpression → IsStatement body →
    IsStatement (.whileLoop test body l)
  | forLoop {init test update : Option Node} {body : Node} (l : Location) :
    (∀ n ∈ init, IsStatement n) → (∀ n ∈ init, n.initializes) → (∀ e ∈ test, e.IsExpression) →
    (∀ n ∈ update, n.IsAssignment ∨ n.IsExpression) → IsStatement body →
    IsStatement (.forLoop init test update body l)
  | ret {value : Option Node} (l : Location) : (∀ e ∈ value, e.IsExpression) →
    IsStatement (.ret value l)
  | printf {args : List Node} (l : Location) : (∀ e ∈ args, e.IsExpression) →
    IsStatement (.printf args l)
  | scanf {args : List Node} (l : Location) : (∀ e ∈ args, e.IsExpression) →
    IsStatement (.scanf args l)
  | block {body : List Node} (l : Location) : (∀ n ∈ body, IsStatement n) →
    IsStatement (.block body l)
  | expression {e : Node} : e.IsExpression → startsWithName (e.spell .canonical) → IsStatement e

/-- The tree is a program that the parser can build. -/
inductive IsProgram : Node → Prop
  | statements {body : List Node} : (∀ n ∈ body, IsStatement n) → IsProgram (.program body)

/-- The words of an assignment or expression without a semicolon. -/
def clause : Node → List Lexeme
  | .assign target o value _ => ident target :: op o.symbol :: spell? value
  | e => e.spell .canonical

/-- The words of a `for` update. -/
def clause? : Option Node → List Lexeme
  | none => []
  | some n => n.clause

/-- The statement ends in the brace of a function. -/
def isDefinition : Node → Bool
  | .function h _ _ => !h.isPrototype
  | _ => false

mutual

/-- The canonical words of a program or statement. -/
def canonical : Node → List Lexeme
  | .program body => canonicalAll body
  | .inclusion library _ => [punct "#", ident "include", (.string, library)]
  | .function h body _ =>
    headerWords h ++
      if h.isPrototype then [punct ";"] else punct openBrace :: canonicalAll body ++ [punct closeBrace]
  | .declare name type none _ => [keyword type, ident name, punct ";"]
  | .declare name type (some e) _ =>
    keyword type :: ident name :: op "=" :: e.spell .canonical ++ [punct ";"]
  | .branch test onTrue onFalse _ =>
    keyword "if" :: punct "(" :: test.spell .canonical ++ punct ")" :: canonical onTrue ++
      canonicalElse onFalse
  | .whileLoop test body _ =>
    keyword "while" :: punct "(" :: test.spell .canonical ++ punct ")" :: canonical body
  | .forLoop init test update body _ =>
    keyword "for" :: punct "(" :: canonicalInit init ++ spell? test ++ punct ";" :: clause? update ++
      punct ")" :: canonical body
  | .ret value _ => keyword "return" :: spell? value ++ [punct ";"]
  | .printf args _ => keyword "printf" :: argumentWords (spellAll .canonical args) ++ [punct ";"]
  | .scanf args _ => keyword "scanf" :: argumentWords (spellAll .canonical args) ++ [punct ";"]
  | .block body _ => punct openBrace :: canonicalAll body ++ [punct closeBrace]
  | n => n.clause ++ [punct ";"]

def canonicalAll : List Node → List Lexeme
  | [] => []
  | n :: ns => canonical n ++ canonicalAll ns

/-- The words of an `else`. -/
def canonicalElse : Option Node → List Lexeme
  | none => []
  | some n => keyword "else" :: canonical n

/-- The words of the first clause of a `for` with its semicolon. -/
def canonicalInit : Option Node → List Lexeme
  | none => [punct ";"]
  | some n => canonical n ++ if n.isDefinition then [punct ";"] else []

end

mutual

/-- The levels that are open at one time inside the statement while its words are read. -/
def nesting : Node → Nat
  | .program body => nestingAll body
  | .inclusion .. => 0
  | .function _ body _ => nestingAll body
  | .declare _ _ init _ => depth? init
  | .assign _ _ value _ => depth? value
  | .branch test onTrue onFalse _ =>
    max (test.depth .canonical) (max (nesting onTrue + 1) (nestingElse onFalse))
  | .whileLoop test body _ => max (test.depth .canonical) (nesting body + 1)
  | .forLoop init test update body _ =>
    max (max (nestingClause init) (depth? test)) (max (nestingClause update) (nesting body + 1))
  | .ret value _ => depth? value
  | .printf args _ => depthAll .canonical args
  | .scanf args _ => depthAll .canonical args
  | .block body _ => nestingAll body
  | e => e.depth .canonical

/-- Each statement of a body opens a level. -/
def nestingAll : List Node → Nat
  | [] => 0
  | n :: ns => max (nesting n + 1) (nestingAll ns)

def nestingElse : Option Node → Nat
  | none => 0
  | some n => nesting n + 1

/-- The clauses of a `for` open no level of their own. -/
def nestingClause : Option Node → Nat
  | none => 0
  | some n => nesting n

end

end Node

/-! ### The canonical words are phrases -/

theorem canonical_faithful : Orthography.canonical.Faithful .all where
  number h := h
  symbol _ := rfl
  mark _ := rfl
  groups h := h
  groupsPrefixed {o e} _ h := by
    cases o with
    | addressOf =>
      cases e with
      | binary => simp [Orthography.canonical, Node.isPrimary] at h
      | _ => rfl
    | neg | not => exact h
  groupsAddress _ h := by simpa [Orthography.canonical] using h

theorem mapStrings_id {v : Vocabulary} {e : Node} (h : e.BuiltFrom v) : e.mapStrings id = e := by
  induction h with
  | @number text kind _ _ _ => cases kind <;> rfl
  | string _ _ => rfl
  | identifier _ _ => rfl
  | call _ _ _ ih => rw [Node.mapStrings, mapStringsAll_eq_map, List.map_congr_left ih, List.map_id']
  | binary _ _ _ _ ihLeft ihRight => rw [Node.mapStrings, ihLeft, ihRight]
  | unary _ _ _ ih => rw [Node.mapStrings, ih]

section

variable {levels : Nat}

theorem expression_canonical {e : Node} (he : e.IsExpression) (hd : e.depth .canonical ≤ levels) :
    Expression levels (e.spell .canonical) e := by
  have phrase := spell_expression canonical_faithful he hd
  rwa [show Orthography.canonical.text = id from rfl, mapStrings_id he] at phrase

theorem optional_canonical {value : Option Node} (h : ∀ e ∈ value, e.IsExpression)
    (hd : Node.depth? value ≤ levels) : Optional (Expression levels) (Node.spell? value) value := by
  cases value with
  | none => exact .none
  | some e => exact .some (expression_canonical (h e rfl) hd)

theorem arguments_canonical {args : List Node} (h : ∀ e ∈ args, e.IsExpression)
    (hd : Node.depthAll .canonical args ≤ levels) :
    Arguments (Expression levels) (argumentWords (Node.spellAll .canonical args)) args := by
  have each : ∀ e ∈ args, Expression levels (e.spell .canonical) (id e) := fun e he =>
    expression_canonical (h e he) (Nat.le_trans (depth_le_of_mem he) hd)
  have words := arguments_spell Orthography.canonical each
  rwa [List.map_id] at words

theorem assignment_canonical {n : Node} (h : n.IsAssignment) (hd : n.nesting ≤ levels) :
    NameClause (Expression levels) n.clause n := by
  cases h with
  | step target o l isStep => exact .step target o l isStep
  | value target o l isStep he =>
    rw [Node.nesting] at hd
    exact .assign target o l isStep (expression_canonical he hd)

theorem clause_expression {v : Vocabulary} {e : Node} (he : e.BuiltFrom v) :
    e.clause = e.spell .canonical ∧ e.nesting = e.depth .canonical ∧
      e.canonical = e.spell .canonical ++ [punct ";"] ∧ e.isDefinition = false := by
  cases he with
  | _ => exact ⟨rfl, by rw [Node.nesting] <;> simp, by rw [Node.canonical] <;> simp [Node.clause], rfl⟩

theorem nameClause_of_expression {P : Phrase} {ls : List Lexeme} {e : Node} (he : P ls e)
    (name : Node.startsWithName ls) : NameClause P ls e := by
  unfold Node.startsWithName at name
  split at name
  · exact .expression he
  · simp at name

/-- Any expression may be the third clause of a `for`: the grammar tells those that start
with a name from the others. -/
theorem forUpdate_of_expression {P : Phrase} {ls : List Lexeme} {e : Node} (he : P ls e) :
    ForUpdate P ls (some e) := by
  by_cases name : Node.startsWithName ls
  · exact .clause (nameClause_of_expression he name)
  · refine .expression he fun x head => name ?_
    obtain ⟨more, rfl⟩ := List.head?_eq_some_iff.mp head
    rfl

theorem update_canonical {update : Option Node}
    (h : ∀ n ∈ update, n.IsAssignment ∨ n.IsExpression) (hd : Node.nestingClause update ≤ levels) :
    ForUpdate (Expression levels) (Node.clause? update) update := by
  cases update with
  | none => exact .none
  | some n =>
    rw [Node.nestingClause] at hd
    rcases h n rfl with assigned | he
    · exact .clause (assignment_canonical assigned hd)
    · obtain ⟨words, needs, -, -⟩ := clause_expression he
      have phrase := expression_canonical he (needs ▸ hd)
      rw [Node.clause?, words]
      exact forUpdate_of_expression phrase

/-- The words of a statement are a sentence for it and, where it may be the first
clause of a `for`, such a clause. -/
structure Fits (levels : Nat) (n : Node) : Prop where
  sentence : Sentence (Statement levels) (Expression levels) n.canonical n
  init : n.initializes → ForInit (Statement levels) (Expression levels) (Node.canonicalInit (some n)) (some n)

theorem Fits.clause {n : Node} (h : NameClause (Expression levels) n.clause n)
    (words : n.canonical = n.clause ++ [punct ";"]) (simple : n.isDefinition = false) : Fits levels n where
  sentence := by
    rw [words]
    exact .clause h
  init _ := by
    rw [Node.canonicalInit, simple, words]
    simpa using ForInit.clause h

theorem Fits.declared {n : Node} (h : Declaration (Statement levels) (Expression levels) n.canonical n)
    (ends : n.canonical.getLast? = some (punct ";")) (simple : n.isDefinition = false) : Fits levels n where
  sentence := .declaration h
  init _ := by
    rw [Node.canonicalInit, simple]
    simpa using ForInit.declaration h ends

theorem Fits.other {n : Node} (h : Sentence (Statement levels) (Expression levels) n.canonical n)
    (other : n.initializes = false) : Fits levels n where
  sentence := h
  init starts := by simp [other] at starts

/-- A statement below needs a level of its own. -/
theorem statement_of_fits {n : Node} (h : ∀ levels, n.nesting ≤ levels → Fits levels n)
    (hd : n.nesting + 1 ≤ levels) : Statement levels n.canonical n := by
  cases levels with
  | zero => exact absurd hd (Nat.not_succ_le_zero _)
  | succ m => exact (h m (Nat.le_of_succ_le_succ hd)).sentence

theorem many_canonical : ∀ {ns : List Node}, (∀ n ∈ ns, ∀ levels, n.nesting ≤ levels → Fits levels n) →
    Node.nestingAll ns ≤ levels → Many (Statement levels) (Node.canonicalAll ns) ns
  | [], _, _ => .nil
  | n :: ns, h, hd => by
    rw [Node.nestingAll, Nat.max_le] at hd
    exact .cons (statement_of_fits (h n List.mem_cons_self) hd.1)
      (many_canonical (fun m hm => h m (List.mem_cons_of_mem n hm)) hd.2)

end

/-- **The canonical words of a statement are a phrase for it**, as soon as there are
levels for its nesting. -/
theorem sentence_canonical {n : Node} (h : n.IsStatement) :
    ∀ levels, n.nesting ≤ levels → Fits levels n := by
  induction h with
  | inclusion library l => exact fun levels _ => .other (.inclusion library l) rfl
  | prototype h l proto typed =>
    intro levels _
    have words : (Node.function h [] l).canonical = headerWords h ++ [punct ";"] := by
      rw [Node.canonical, if_pos proto]
    refine .declared ?_ (by simp [words]) (by simp [Node.isDefinition, proto])
    rw [words]
    exact .prototype h l proto typed
  | @definition body h l proto typed _ ih =>
    intro levels hd
    rw [Node.nesting] at hd
    have words : (Node.function h body l).canonical =
        headerWords h ++ punct openBrace :: Node.canonicalAll body ++ [punct closeBrace] := by
      simp [Node.canonical, proto]
    have declaration : Declaration (Statement levels) (Expression levels)
        (Node.function h body l).canonical (.function h body l) := by
      rw [words]
      exact .definition h l proto typed (many_canonical ih hd)
    refine ⟨.declaration declaration, fun _ => ?_⟩
    rw [Node.canonicalInit, if_pos (by simp [Node.isDefinition, proto])]
    exact .definition declaration (by rw [words]; exact List.getLast?_concat)
  | @declare init name type l typed hinit =>
    intro levels hd
    rw [Node.nesting] at hd
    cases init with
    | none => exact .declared (.declared name type l typed) rfl rfl
    | some e =>
      refine .declared ?_ List.getLast?_concat rfl
      exact .initialized name type l typed (expression_canonical (hinit e rfl) hd)
  | @assign n h =>
    intro levels hd
    have clause := assignment_canonical h hd
    cases h with
    | step _ _ _ _ => exact .clause clause (by rw [Node.canonical] <;> simp) rfl
    | value _ _ _ _ _ => exact .clause clause (by rw [Node.canonical] <;> simp) rfl
  | @branch test onTrue onFalse l htest _ _ closed ih ihElse =>
    intro levels hd
    rw [Node.nesting, Nat.max_le, Nat.max_le] at hd
    have test := expression_canonical htest hd.1
    have body := statement_of_fits ih hd.2.1
    cases onFalse with
    | none =>
      refine .other ?_ rfl
      simpa [Node.canonical, Node.canonicalElse] using Sentence.branch l test body
    | some m =>
      refine .other ?_ rfl
      have other := statement_of_fits (ihElse m rfl) hd.2.2
      exact .branchElse l test body (closed rfl) other
  | whileLoop l htest _ ih =>
    intro levels hd
    rw [Node.nesting, Nat.max_le] at hd
    exact .other (.whileLoop l (expression_canonical htest hd.1) (statement_of_fits ih hd.2)) rfl
  | @forLoop init test update body l _ starts htest hupdate _ ihInit ih =>
    intro levels hd
    rw [Node.nesting, Nat.max_le, Nat.max_le, Nat.max_le] at hd
    have first : ForInit (Statement levels) (Expression levels) (Node.canonicalInit init) init := by
      cases init with
      | none => exact .none
      | some n => exact (ihInit n rfl levels hd.1.1).init (starts n rfl)
    exact .other (.forLoop l first (optional_canonical htest hd.1.2) (update_canonical hupdate hd.2.1)
      (statement_of_fits ih hd.2.2)) rfl
  | ret l hvalue => exact fun levels hd => .other (.ret l (optional_canonical hvalue hd)) rfl
  | printf l hargs => exact fun levels hd => .other (.printf l (arguments_canonical hargs hd)) rfl
  | scanf l hargs => exact fun levels hd => .other (.scanf l (arguments_canonical hargs hd)) rfl
  | block l _ ih => exact fun levels hd => .other (.block l (many_canonical ih hd)) rfl
  | @expression e he name =>
    intro levels hd
    obtain ⟨words, needs, written, simple⟩ := clause_expression he
    refine .clause ?_ (by rw [written, words]) simple
    rw [words]
    exact nameClause_of_expression (expression_canonical he (needs ▸ hd)) name

/-! ### Reading the canonical spelling -/

/-- **The canonical spelling of a program is read back as the program**, whatever
the places of its tokens, and nothing is reported. -/
theorem parse_canonical_spelling {tree : Node} (shape : tree.IsProgram)
    (shallow : tree.nesting ≤ maxNesting) {tokens : List Token}
    (spelled : wordsOf tokens = tree.canonical) :
    (parseTokens tokens).tree.erase = tree.erase ∧ (parseTokens tokens).diagnostics = [] := by
  cases shape with
  | @statements body hbody =>
    have start : (Cursor.ofTokens tokens []).words = Node.canonicalAll body := spelled
    have phrases : Many (Statement maxNesting) (Cursor.ofTokens tokens []).words body := by
      rw [start]
      exact many_canonical (fun n hn => sentence_canonical (hbody n hn)) shallow
    obtain ⟨alike, moved⟩ := Parse.program_completes phrases
    constructor
    · rw [parseTokens_tree, alike, Node.erase]
    · rw [parseTokens_diagnostics, Cursor.diagnostics, moved.log]
      rfl

/-- The statement `if ((i + 1) * 2 == 4) f(&i); else return;`. -/
def guardedCall : Node :=
  let i : Node := .identifier "i" .nowhere
  let number (text : String) : Node := .literal text .int .nowhere
  .branch
    (.binary .eq (.binary .mul (.binary .add i (number "1") .nowhere) (number "2") .nowhere)
      (number "4") .nowhere)
    (.call "f" [.unary .addressOf i .nowhere] .nowhere) (some (.ret none .nowhere)) .nowhere

theorem guardedCall_isStatement : guardedCall.IsStatement := by
  have name : (Node.identifier "i" .nowhere).IsExpression := .identifier .nowhere trivial
  have one : (Node.literal "1" .int .nowhere).IsExpression := .number .nowhere (by decide) rfl
  have two : (Node.literal "2" .int .nowhere).IsExpression := .number .nowhere (by decide) rfl
  have four : (Node.literal "4" .int .nowhere).IsExpression := .number .nowhere (by decide) rfl
  refine .branch .nowhere ?test ?call ?other fun _ => rfl
  case test => exact .binary _ _ (.binary _ _ (.binary _ _ name one) two) four
  case call => exact .expression (.call _ trivial (by simpa using .unary _ trivial name)) rfl
  case other => simpa using .ret _ (by simp)

/-- The program `int main() { for (int i = 0; i; i++) guardedCall }`. -/
def loopProgram : Node :=
  .program [.function ⟨"main", "int", [], false⟩
    [.forLoop (some (.declare "i" "int" (some (.literal "0" .int .nowhere)) .nowhere))
      (some (.identifier "i" .nowhere)) (some (.assign "i" .increment none .nowhere)) guardedCall
      .nowhere] .nowhere]

theorem loopProgram_isProgram : loopProgram.IsProgram := by
  have zero : (Node.literal "0" .int .nowhere).IsExpression := .number .nowhere (by decide) rfl
  refine .statements (List.forall_mem_singleton.mpr (.definition _ _ rfl ⟨by decide, by simp⟩ ?_))
  refine List.forall_mem_singleton.mpr (.forLoop _ ?init ?starts ?test ?update guardedCall_isStatement)
  case init => simpa using .declare _ _ _ (by decide) (by simpa using zero)
  case starts => simp [Node.initializes]
  case test => simpa using .identifier _ trivial
  case update => simpa using .inl (.step _ _ _ rfl)

/-- The words of the loop, all of them at one place. -/
def loopTokens : List Token :=
  [keyword "int", ident "main", punct "(", punct ")", punct openBrace, keyword "for", punct "(",
    keyword "int", ident "i", op "=", (.number, "0"), punct ";", ident "i", punct ";", ident "i",
    op "++", punct ")", keyword "if", punct "(", punct "(", ident "i", op "+", (.number, "1"),
    punct ")", op "*", (.number, "2"), op "==", (.number, "4"), punct ")", ident "f", punct "(",
    op "&", ident "i", punct ")", punct ";", keyword "else", keyword "return", punct ";",
    punct closeBrace].map fun l => ⟨l.1, some l.2, .nowhere⟩

theorem parse_canonical_spelling_loop :
    loopProgram.IsProgram ∧ loopProgram.nesting = 6 ∧ wordsOf loopTokens = loopProgram.canonical ∧
      (parseTokens loopTokens).tree.erase = loopProgram.erase ∧ (parseTokens loopTokens).diagnostics = [] := by
  have spelled : wordsOf loopTokens = loopProgram.canonical := by decide
  exact ⟨loopProgram_isProgram, by decide, spelled,
    parse_canonical_spelling loopProgram_isProgram (by decide) spelled⟩

end MiniC
