/-
# Statements in the typed language are read back

Statements that mean the same in both languages, with words that are one token each,
are written in the typed language and read again: nothing is reported, and the tree is
the one that was written, in normal form (`emit_then_parse`). In the normal form every
branch and loop body is a block, but for an `else if`, which stays a chain; variables
have an initial value; `float` is `double`; the quotes in strings are escaped.

The proof follows the tree. A statement has three ways to be written, as a statement,
as a body between the braces of its owner, and behind an `else` (`Emitted`). In each
way its lines are read as a phrase of the grammar, and the parser reads all phrases.

Key definitions: `Node.Everywhere`, `Node.Portable`, `Node.normal`, `Node.nestingIn`, `Emitted`.
Key theorems: `clause_emitted`, `emitted`, `emit_then_parse`.
-/
import MiniC.Emit.Java
import MiniC.Proofs.Canonical
import MiniC.Proofs.Emission.Lines

namespace MiniC

open Lexeme Grammar

namespace Node

/-! ### Statements that both languages have -/

/-- The condition holds at every node of the tree. -/
inductive Everywhere (P : Node → Prop) : Node → Prop
  | mk {n : Node} : P n → (∀ m ∈ n.children.map Prod.snd, Everywhere P m) → Everywhere P n

theorem Everywhere.here {P : Node → Prop} {n : Node} (h : n.Everywhere P) : P n := by
  cases h with
  | mk here _ => exact here

theorem Everywhere.child {P : Node → Prop} {n m : Node} (h : n.Everywhere P)
    (member : m ∈ n.children.map Prod.snd) : m.Everywhere P := by
  cases h with
  | mk _ inside => exact inside m member

/-- What is handed down to the children holds everywhere. -/
theorem Everywhere.of_child {Q : Node → Prop}
    (child : ∀ {n m : Node}, Q n → m ∈ n.children.map Prod.snd → Q m) {n : Node} (h : Q n) :
    n.Everywhere Q := by
  induction size : sizeOf n using Nat.strongRecOn generalizing n with
  | ind k ih =>
    subst size
    refine .mk h fun m member => ?_
    obtain ⟨⟨role, c⟩, below, rfl⟩ := List.mem_map.mp member
    exact ih (sizeOf c) (sizeOf_child below) (child h member) rfl

theorem Everywhere.imp {P Q : Node → Prop} (imp : ∀ {n : Node}, P n → Q n) {n : Node} (h : n.Everywhere P) :
    n.Everywhere Q := by
  induction h with
  | mk here _ ih => exact .mk (imp here) ih

theorem Everywhere.and {P Q : Node → Prop} {n : Node} (hP : n.Everywhere P) (hQ : n.Everywhere Q) :
    n.Everywhere fun m => P m ∧ Q m := by
  induction hP with
  | mk here _ ih => exact .mk ⟨here, hQ.here⟩ fun m member => ih m member (hQ.child member)

/-- The types whose values and literals both languages share. -/
def portableTypes : List String := ["int", "short", "float", "double"]

/-- The node means the same in both languages, and its words are one token each. -/
def Portable : Node → Prop
  | .declare name type _ _ => LexesAs name (ident name) ∧ type ∈ portableTypes
  | .assign target _ _ _ => LexesAs target (ident target)
  | .call name _ _ | .identifier name _ => LexesAs name (ident name)
  | .literal text .string _ => Text.paired text.toList
  | .literal text _ _ => LexesAs text (.number, text)
  | .unary o _ _ => o ≠ .addressOf
  | .program _ | .inclusion .. | .function .. | .printf .. | .scanf .. => False
  | .branch .. | .whileLoop .. | .forLoop .. | .ret .. | .block .. | .binary .. => True

/-! ### The normal form -/

/-- The expression with the quotes in its strings escaped. -/
def escaped (e : Node) : Node := e.mapStrings Text.escapeQuotes

/-- The type that takes the place of a type. -/
def widened (type : String) : String := if type = "float" then "double" else type

/-- The value of a variable that is declared without one. -/
def zero (type : String) (l : Location) : Node :=
  if type = "float" ∨ type = "double" then .literal "0.0" .float l else .literal "0" .int l

def isBlock : Node → Bool
  | .block .. => true
  | _ => false

def isBranch : Node → Bool
  | .branch .. => true
  | _ => false

/-- The statements between the braces of a body. -/
def contents : Node → List Node
  | .block body _ => body
  | n => [n]

/-- The statement as a block, which it may be already. -/
def inBlock (n : Node) : Node := .block n.contents n.location

/-- The statement behind an `else`. -/
def chained : Node → Node
  | .branch condition onTrue onFalse l => .branch condition onTrue onFalse l
  | n => n.inBlock

mutual

/-- The normal form of a statement or expression. -/
def normal : Node → Node
  | .declare name type init l => .declare name (widened type) (some ((init.map escaped).getD (zero type l))) l
  | .assign target o value l => .assign target o (value.map escaped) l
  | .branch condition onTrue onFalse l =>
    .branch condition.escaped (normal onTrue).inBlock (normalElse onFalse) l
  | .whileLoop condition body l => .whileLoop condition.escaped (normal body).inBlock l
  | .forLoop init condition update body l =>
    .forLoop (normalClause init) (condition.map escaped) (normalClause update) (normal body).inBlock l
  | .ret value l => .ret (value.map escaped) l
  | .block body l => .block (normalAll body) l
  | e => e.escaped

def normalAll : List Node → List Node
  | [] => []
  | n :: ns => normal n :: normalAll ns

def normalElse : Option Node → Option Node
  | none => none
  | some n => some (normal n).chained

def normalClause : Option Node → Option Node
  | none => none
  | some n => some (normal n)

end

/-! ### Levels -/

/-- The depth of an expression, none if there is no expression. -/
def depthIn? (s : Orthography) : Option Node → Nat
  | none => 0
  | some e => e.depth s

mutual

/-- The levels that are open at one time inside the statement while its words are read,
its expressions being written in `s`. -/
def nestingIn (s : Orthography) : Node → Nat
  | .program body => nestingAllIn s body
  | .inclusion .. => 0
  | .function _ body _ => nestingAllIn s body
  | .declare _ _ init _ => depthIn? s init
  | .assign _ _ value _ => depthIn? s value
  | .branch test onTrue onFalse _ =>
    max (test.depth s) (max (nestingIn s onTrue + 1) (nestingElseIn s onFalse))
  | .whileLoop test body _ => max (test.depth s) (nestingIn s body + 1)
  | .forLoop init test update body _ =>
    max (max (nestingClauseIn s init) (depthIn? s test)) (max (nestingClauseIn s update) (nestingIn s body + 1))
  | .ret value _ => depthIn? s value
  | .printf args _ => depthAll s args
  | .scanf args _ => depthAll s args
  | .block body _ => nestingAllIn s body
  | e => e.depth s

def nestingAllIn (s : Orthography) : List Node → Nat
  | [] => 0
  | n :: ns => max (nestingIn s n + 1) (nestingAllIn s ns)

def nestingElseIn (s : Orthography) : Option Node → Nat
  | none => 0
  | some n => nestingIn s n + 1

def nestingClauseIn (s : Orthography) : Option Node → Nat
  | none => 0
  | some n => nestingIn s n

end

end Node

/-! ### Expressions -/

/-- The orthography of the texts. -/
abbrev typedWords : Orthography := .of .typed

theorem builtFrom_typed {e : Node} (he : e.IsExpression) (portable : e.Everywhere Node.Portable) :
    e.BuiltFrom .typed := by
  have here := portable.here
  induction he with
  | @number text kind l notString h =>
    cases kind with
    | string => exact absurd rfl notString
    | int | float => exact .number l notString ⟨here, h⟩
  | string l _ => exact .string l here
  | identifier l _ => exact .identifier l here
  | @call x args l _ _ ih =>
    refine .call l here fun a ha => ?_
    have below : a.Everywhere Node.Portable := portable.child (by simpa [Node.children] using ha)
    exact ih a ha below below.here
  | @binary left right o l _ _ ihLeft ihRight =>
    have first : left.Everywhere Node.Portable := portable.child (by simp [Node.children])
    have second : right.Everywhere Node.Portable := portable.child (by simp [Node.children])
    exact .binary o l (ihLeft first first.here) (ihRight second second.here)
  | @unary o operand l _ _ ih =>
    have below : operand.Everywhere Node.Portable := portable.child (by simp [Node.children])
    exact .unary l here (ih below below.here)

theorem groups_mapStrings (f : String → String) (o : BinOp) (e : Node) (right : Bool) :
    typedWords.groups o (e.mapStrings f) right = typedWords.groups o e right := by
  cases e with
  | literal text kind l => cases kind <;> rfl
  | _ => rfl

theorem groupsPrefixed_mapStrings (f : String → String) (o : UnaryOp) (e : Node) :
    typedWords.groupsPrefixed o (e.mapStrings f) = typedWords.groupsPrefixed o e := by
  have same : (e.mapStrings f).isBinary = e.isBinary ∧ (e.mapStrings f).isNegation = e.isNegation := by
    cases e with
    | literal text kind l => cases kind <;> exact ⟨rfl, rfl⟩
    | unary o operand l => cases o <;> exact ⟨rfl, rfl⟩
    | _ => exact ⟨rfl, rfl⟩
  cases o with
  | neg => exact congrArg₂ (· || ·) same.1 same.2
  | not => exact same.1
  | addressOf => rfl

/-- The texts of strings take no part in the depth. -/
theorem depth_mapStrings (f : String → String) {e : Node} (he : e.BuiltFrom .typed) :
    (e.mapStrings f).depth typedWords = e.depth typedWords := by
  induction he with
  | @number text kind l _ _ => cases kind <;> rfl
  | string l _ => rfl
  | identifier l _ => rfl
  | @call x args l _ _ ih =>
    have all : ∀ {args : List Node}, (∀ a ∈ args, (a.mapStrings f).depth typedWords = a.depth typedWords) →
        Node.depthAll typedWords (Node.mapStringsAll f args) = Node.depthAll typedWords args := by
      intro args h
      induction args with
      | nil => rfl
      | cons a args ih =>
        obtain ⟨first, others⟩ := List.forall_mem_cons.mp h
        rw [Node.mapStringsAll, Node.depthAll, Node.depthAll, first, ih others]
    rw [Node.mapStrings, Node.depth, Node.depth, all ih]
  | @binary left right o l _ _ ihLeft ihRight =>
    rw [Node.mapStrings, Node.depth, Node.depth, ihLeft, ihRight, groups_mapStrings, groups_mapStrings]
  | @unary o operand l mark _ ih =>
    rw [Node.mapStrings, depth_negation _ mark, depth_negation _ mark, ih, groupsPrefixed_mapStrings]

/-- The text of an expression is read as a phrase for it. -/
theorem expression_emitted {e : Node} (he : e.BuiltFrom .typed) {levels : Nat}
    (hd : e.escaped.depth typedWords ≤ levels) :
    ReadsAs (Java.expr e) (e.spell typedWords) ∧ Expression levels (e.spell typedWords) e.escaped := by
  have written : e.BuiltFrom .written := he.mono id (fun h => h.1) id id
  rw [Node.escaped, depth_mapStrings _ he] at hd
  exact ⟨render_scans .typed written, spell_expression typed_faithful he hd⟩

/-- The first word is a name in both orthographies. -/
theorem startsWithName_typed {e : Node} (he : e.BuiltFrom .typed)
    (name : Node.startsWithName (e.spell .canonical)) : Node.startsWithName (e.spell typedWords) := by
  induction he with
  | @number text kind l notString _ => cases kind <;> cases name
  | string l _ => cases name
  | identifier l _ => rfl
  | call l _ _ _ => rfl
  | @binary left right o l _ _ ih _ =>
    have same : typedWords.groups o left false = Orthography.canonical.groups o left false := Bool.or_false _
    rw [Node.spell, typed_faithful.symbol, Node.startsWithName_append_op, same]
    rw [Node.spell, show Orthography.canonical.symbol o = op o.symbol from rfl, Node.startsWithName_append_op] at name
    cases grouped : Orthography.canonical.groups o left false with
    | true =>
      rw [grouped] at name
      cases name
    | false =>
      rw [grouped] at name
      exact ih name
  | unary l _ _ _ => cases name

/-! ### Clauses -/

theorem name_readsAs {x : String} (h : LexesAs x (ident x)) : ReadsAs x [ident x] := h.scans_name

theorem assignOp_scans (o : AssignOp) (rest : List Char) :
    Scans (o.symbol.toList ++ ' ' :: rest) [op o.symbol] (' ' :: rest) := by
  have two {c d : Char} (pair : (c, d) ∈ Piece.operatorPairs) :
      Scans (c :: d :: ' ' :: rest) [op (String.ofList [c, d])] (' ' :: rest) :=
    .piece (Piece.next_operatorPair pair) rfl (by simp)
  cases o with
  | assign =>
    have one : Piece.next '=' (' ' :: rest) = (.operator ['='], ' ' :: rest) := rfl
    exact .piece one rfl (by simp)
  | addAssign => exact two (c := '+') (d := '=') (by decide)
  | subAssign => exact two (c := '-') (d := '=') (by decide)
  | mulAssign => exact two (c := '*') (d := '=') (by decide)
  | divAssign => exact two (c := '/') (d := '=') (by decide)
  | modAssign => exact two (c := '%') (d := '=') (by decide)
  | increment => exact two (c := '+') (d := '+') (by decide)
  | decrement => exact two (c := '-') (d := '-') (by decide)

theorem assignOp_firm (o : AssignOp) : Firm (" " ++ (o.symbol ++ " ")) [op o.symbol] := by
  refine Firm.blank.append fun rest => ?_
  rw [String.toList_append, List.append_assoc]
  exact (assignOp_scans o rest).trans (blank_scans rest)

theorem stepOp_firm (o : AssignOp) (h : o.isStep = true) : Firm o.symbol [op o.symbol] := by
  intro rest
  cases o with
  | increment => exact .piece (Piece.next_operatorPair (c := '+') (d := '+') (by decide)) rfl (by simp)
  | decrement => exact .piece (Piece.next_operatorPair (c := '-') (d := '-') (by decide)) rfl (by simp)
  | _ => cases h

theorem stepOp_separates (o : AssignOp) (h : o.isStep = true) : Separates o.symbol := by
  cases o with
  | increment => exact ⟨'+', ['+'], rfl, by decide⟩
  | decrement => exact ⟨'-', ['-'], rfl, by decide⟩
  | _ => cases h

theorem blank_separates (text : String) : Separates (" " ++ text) :=
  ⟨' ', text.toList, by simp, by decide⟩

theorem assignment_emitted {n : Node} (h : n.IsAssignment) (portable : n.Everywhere Node.Portable) {levels : Nat}
    (hd : n.normal.nestingIn typedWords ≤ levels) :
    ∃ ls, ReadsAs (Java.clause n) ls ∧ NameClause (Expression levels) ls n.normal := by
  cases h with
  | step target o l isStep =>
    have name : ReadsAs target [ident target] := name_readsAs portable.here
    have words := name.firm (stepOp_firm o isStep) (stepOp_separates o isStep)
    refine ⟨_, ?_, .step target o l isStep⟩
    rw [Java.clause, Java.assignment, if_pos isStep]
    exact words.readsAs
  | @value e target o l isStep he =>
    have name : ReadsAs target [ident target] := name_readsAs portable.here
    have built := builtFrom_typed he (portable.child (by simp [Node.children, Node.inRole]))
    obtain ⟨text, phrase⟩ := expression_emitted built hd
    have sign := name.firm (assignOp_firm o) (blank_separates _)
    have words : ReadsAs (target ++ (" " ++ (o.symbol ++ " ")) ++ Java.expr e) _ := sign.before text
    have regroup : Java.clause (.assign target o (some e) l) =
        target ++ (" " ++ (o.symbol ++ " ")) ++ Java.expr e := by
      rw [Java.clause, Java.assignment, if_neg (by simp [isStep])]
      simp only [String.append_assoc, Option.map_some, Option.getD_some]
    refine ⟨_, ?_, .assign target o l isStep phrase⟩
    rw [regroup]
    exact words

/-- The type of a declaration as it is written. -/
theorem typeName_portable {type : String} (h : type ∈ Node.portableTypes) :
    Java.typeName type = Node.widened type ∧ Node.widened type ∈ keywords ∧
      isTypeKeyword (Node.widened type) ∧ Java.typeName type ≠ "char" := by
  simp only [Node.portableTypes, List.mem_cons, List.not_mem_nil, or_false] at h
  rcases h with rfl | rfl | rfl | rfl <;> decide

/-- The value that is written where there is none. -/
theorem defaultValue_portable {type : String} (h : type ∈ Node.portableTypes) (l : Location) :
    Java.defaultValue type = Java.expr (Node.zero type l) ∧ (Node.zero type l).BuiltFrom .typed ∧
      (Node.zero type l).escaped = Node.zero type l := by
  have int : (Node.literal "0" .int l).BuiltFrom .typed :=
    .number l (by decide) ⟨.of_next '0' [] rfl rfl rfl, by decide⟩
  have float : (Node.literal "0.0" .float l).BuiltFrom .typed :=
    .number l (by decide) ⟨.of_next '0' ['.', '0'] rfl rfl rfl, by decide⟩
  simp only [Node.portableTypes, List.mem_cons, List.not_mem_nil, or_false] at h
  rcases h with rfl | rfl | rfl | rfl
  · exact ⟨rfl, int, rfl⟩
  · exact ⟨rfl, int, rfl⟩
  · exact ⟨rfl, float, rfl⟩
  · exact ⟨rfl, float, rfl⟩

theorem declaration_emitted {name type : String} {init : Option Node} {l : Location}
    (expressions : ∀ e ∈ init, e.IsExpression) (portable : (Node.declare name type init l).Everywhere Node.Portable)
    {Statement : Phrase} {levels : Nat} (hd : (Node.declare name type init l).normal.nestingIn typedWords ≤ levels) :
    ∃ ls, ReadsAs (Java.declaration type name init) ls ∧
      Declaration Statement (Expression levels) (ls ++ [punct ";"]) (Node.declare name type init l).normal := by
  obtain ⟨lexes, typed⟩ := portable.here
  obtain ⟨written, reserved, known, notChar⟩ := typeName_portable typed
  obtain ⟨default, built, same⟩ := defaultValue_portable typed l
  -- the value that is written, given or not, as an expression
  obtain ⟨e, text, he, value⟩ : ∃ e, Java.declaration type name init =
      Java.typeName type ++ " " ++ name ++ " = " ++ Java.expr e ∧ e.BuiltFrom .typed ∧
        (init.map Node.escaped).getD (Node.zero type l) = e.escaped := by
    cases init with
    | none => exact ⟨Node.zero type l, by rw [Java.declaration, default], built, same.symm⟩
    | some e =>
      refine ⟨e, by rw [Java.declaration]; simp only [if_neg notChar], ?_, rfl⟩
      exact builtFrom_typed (expressions e rfl)
        (portable.child (by simp [Node.children, Node.inRole]))
  rw [Node.normal, Node.nestingIn, value] at hd
  obtain ⟨valueText, phrase⟩ := expression_emitted he hd
  have type' : ReadsAs (Node.widened type) [keyword (Node.widened type)] := keyword_readsAs reserved
  have head : ReadsAs (Node.widened type ++ " " ++ name) _ :=
    (type'.firm Firm.blank (blank_separates "")).before (name_readsAs lexes)
  have sign := head.firm (assignOp_firm .assign) (blank_separates _)
  have words : ReadsAs (Node.widened type ++ " " ++ name ++ " = " ++ Java.expr e) _ := sign.before valueText
  refine ⟨keyword (Node.widened type) :: ident name :: op "=" :: e.spell typedWords, ?_, ?_⟩
  · rw [text, written]
    exact words
  · rw [Node.normal, value]
    exact .initialized name (Node.widened type) l known phrase

theorem normal_expression {v : Vocabulary} {e : Node} (he : e.BuiltFrom v) :
    e.normal = e.escaped ∧ e.escaped.nestingIn typedWords = e.escaped.depth typedWords ∧
      Java.clause e = Java.expr e := by
  cases he with
  | @number text kind l _ _ => cases kind <;> exact ⟨rfl, rfl, rfl⟩
  | _ => exact ⟨rfl, rfl, rfl⟩

/-- What may be the first clause of a `for` is read as a declaration or a clause. -/
theorem clause_emitted {n : Node} (h : n.IsStatement) (starts : n.initializes)
    (portable : n.Everywhere Node.Portable) {Statement : Phrase} {levels : Nat}
    (hd : n.normal.nestingIn typedWords ≤ levels) :
    ∃ ls, ReadsAs (Java.clause n) ls ∧
      (Declaration Statement (Expression levels) (ls ++ [punct ";"]) n.normal ∨
        NameClause (Expression levels) ls n.normal) := by
  cases h with
  | prototype | definition => exact portable.here.elim
  | declare name type l _ expressions =>
    obtain ⟨ls, text, phrase⟩ := declaration_emitted expressions portable hd
    exact ⟨ls, text, .inl phrase⟩
  | assign assigned =>
    obtain ⟨ls, text, phrase⟩ := assignment_emitted assigned portable hd
    exact ⟨ls, text, .inr phrase⟩
  | expression he name =>
    have built := builtFrom_typed he portable
    obtain ⟨normal, needs, clause⟩ := normal_expression built
    rw [normal] at hd ⊢
    obtain ⟨text, phrase⟩ := expression_emitted built (needs ▸ hd)
    exact ⟨_, clause ▸ text, .inr (nameClause_of_expression phrase (startsWithName_typed built name))⟩
  | _ => cases starts

theorem update_emitted {update : Option Node} (h : ∀ n ∈ update, n.IsAssignment ∨ n.IsExpression)
    (portable : ∀ n ∈ update, n.Everywhere Node.Portable) {levels : Nat}
    (hd : Node.nestingClauseIn typedWords (Node.normalClause update) ≤ levels) :
    ∃ ls, ReadsAs ((update.map Java.clause).getD "") ls ∧
      ForUpdate (Expression levels) ls (Node.normalClause update) := by
  cases update with
  | none => exact ⟨[], Firm.empty.readsAs, .none⟩
  | some n =>
    rw [Node.normalClause, Node.nestingClauseIn] at hd
    rcases h n rfl with assigned | he
    · obtain ⟨ls, text, phrase⟩ := assignment_emitted assigned (portable n rfl) hd
      exact ⟨ls, text, .clause phrase⟩
    · have built := builtFrom_typed he (portable n rfl)
      obtain ⟨normal, needs, clause⟩ := normal_expression built
      rw [normal] at hd
      obtain ⟨text, phrase⟩ := expression_emitted built (needs ▸ hd)
      refine ⟨_, clause ▸ text, ?_⟩
      rw [Node.normalClause, normal]
      exact forUpdate_of_expression phrase

theorem optional_emitted {value : Option Node} (h : ∀ e ∈ value, e.IsExpression)
    (portable : ∀ e ∈ value, e.Everywhere Node.Portable) {levels : Nat}
    (hd : Node.depthIn? typedWords (value.map Node.escaped) ≤ levels) :
    ∃ ls, ReadsAs ((value.map Java.expr).getD "") ls ∧
      Optional (Expression levels) ls (value.map Node.escaped) := by
  cases value with
  | none => exact ⟨[], Firm.empty.readsAs, .none⟩
  | some e =>
    obtain ⟨text, phrase⟩ := expression_emitted (builtFrom_typed (h e rfl) (portable e rfl)) hd
    exact ⟨_, text, .some phrase⟩

/-! ### Fixed parts of lines -/

theorem semicolon_firm : Firm ";" [punct ";"] := Firm.delimiter (c := ';') (by decide)

theorem semicolon_separates (text : String) : Separates (";" ++ text) :=
  ⟨';', text.toList, by simp, by decide⟩

theorem opener_firm (word : String) (h : word ∈ keywords) : Firm (word ++ " (") [keyword word, punct "("] := by
  have text : ReadsAs word [keyword word] := keyword_readsAs h
  have opened := Firm.blank.append (Firm.delimiter (c := '(') (by decide))
  have whole := text.firm opened (blank_separates _)
  exact whole

theorem openBrace_firm : Firm "\x7b" [punct openBrace] := Firm.delimiter (c := '\x7b') (by decide)

theorem closeBrace_firm : Firm "\x7d" [punct closeBrace] := Firm.delimiter (c := '\x7d') (by decide)

theorem bodyOpens_firm : Firm ") \x7b" [punct ")", punct openBrace] := by
  have opened := Firm.blank.append openBrace_firm
  have whole := (Firm.delimiter (c := ')') (by decide)).append opened
  exact whole

theorem bodyOpens_separates : Separates ") \x7b" := ⟨')', _, rfl, by decide⟩

theorem else_firm : Firm "\x7d else " [punct closeBrace, keyword "else"] := by
  have word : ReadsAs "else" [keyword "else"] := keyword_readsAs (by decide)
  have closed := closeBrace_firm.append Firm.blank
  have whole := closed.append (word.firm Firm.blank (blank_separates ""))
  exact whole

theorem brace_read (depth : Nat) : LinesRead [⟨depth, "\x7d"⟩] [punct closeBrace] :=
  .line depth closeBrace_firm

/-- The head of a branch or loop with a condition. -/
theorem head_firm (word : String) (h : word ∈ keywords) {test : Node} (he : test.BuiltFrom .typed) :
    Firm (word ++ " (" ++ Java.expr test ++ ") \x7b")
      (keyword word :: punct "(" :: test.spell typedWords ++ [punct ")", punct openBrace]) := by
  have written : test.BuiltFrom .written := he.mono id (fun h => h.1) id id
  have condition : ReadsAs (word ++ " (" ++ Java.expr test) _ :=
    (opener_firm word h).before (render_scans .typed written)
  exact condition.firm bodyOpens_firm bodyOpens_separates

/-! ### Statements -/

/-- As a statement, the lines are read as a sentence for the normal form. -/
def EmitsStatement (n : Node) : Prop :=
  ∀ depth levels : Nat, n.normal.nestingIn typedWords ≤ levels →
    ∃ ls, LinesRead (Java.statement false depth false n) ls ∧
      Sentence (Statement levels) (Expression levels) ls n.normal

/-- Between the braces of a branch or loop, the lines are read as the items of a block. -/
def EmitsBody (n : Node) : Prop :=
  ∀ depth levels : Nat, Node.nestingAllIn typedWords n.normal.contents ≤ levels →
    ∃ ls, LinesRead (Java.statement false depth true n) ls ∧ Many (Statement levels) ls n.normal.contents

/-- Behind an `else`, the lines up to the last brace are read as a sentence. -/
def EmitsElse (n : Node) : Prop :=
  ∀ depth levels : Nat, n.normal.chained.nestingIn typedWords ≤ levels →
    ∃ ls, LinesRead (Java.otherwise false depth (some n) ++ [⟨depth, "\x7d"⟩])
        (punct closeBrace :: keyword "else" :: ls) ∧
      Sentence (Statement levels) (Expression levels) ls n.normal.chained

/-- The lines of a statement are read as phrases for its normal form, wherever it stands. -/
structure Emitted (n : Node) : Prop where
  statement : EmitsStatement n
  body : EmitsBody n
  otherwise : EmitsElse n

section

variable {n : Node} {levels : Nat}

/-- A statement below needs a level of its own. -/
theorem statement_of_sentence {needs : Nat} {P : List Lexeme → Prop}
    (h : ∀ levels, needs ≤ levels → ∃ ls, P ls ∧ Sentence (Statement levels) (Expression levels) ls n)
    (hd : needs + 1 ≤ levels) : ∃ ls, P ls ∧ Statement levels ls n := by
  cases levels with
  | zero => exact absurd hd (Nat.not_succ_le_zero _)
  | succ m => exact h m (Nat.le_of_succ_le_succ hd)

/-- A body with its braces is a statement. -/
theorem Emitted.braced (h : Emitted n) (depth : Nat)
    (hd : n.normal.inBlock.nestingIn typedWords + 1 ≤ levels) :
    ∃ ls, LinesRead (Java.statement false depth true n) ls ∧
      Statement levels (punct openBrace :: ls ++ [punct closeBrace]) n.normal.inBlock := by
  cases levels with
  | zero => exact absurd hd (Nat.not_succ_le_zero _)
  | succ m =>
    obtain ⟨ls, read, phrases⟩ := h.body depth m (Nat.le_of_succ_le_succ hd)
    exact ⟨ls, read, .block _ phrases⟩

/-- A statement other than a block is its own body. -/
theorem EmitsStatement.body (h : EmitsStatement n) (notBlock : n.isBlock = false) : EmitsBody n := by
  intro depth levels hd
  obtain ⟨single, same⟩ : n.normal.contents = [n.normal] ∧
      Java.statement false depth true n = Java.statement false depth false n := by
    cases n with
    | block => cases notBlock
    | literal text kind l => cases kind <;> exact ⟨rfl, rfl⟩
    | _ => exact ⟨rfl, rfl⟩
  rw [single, Node.nestingAllIn, Nat.max_le] at hd
  obtain ⟨ls, read, phrase⟩ := statement_of_sentence (h depth) hd.1
  refine ⟨ls, same ▸ read, ?_⟩
  rw [single]
  simpa using Many.cons phrase .nil

/-- A body behind an `else` has braces of its own. -/
theorem EmitsBody.otherwise (h : EmitsBody n) (notBranch : n.isBranch = false) : EmitsElse n := by
  intro depth levels hd
  obtain ⟨block, lines⟩ : n.normal.chained = n.normal.inBlock ∧
      Java.otherwise false depth (some n) =
        ⟨depth, "\x7d else \x7b"⟩ :: Java.statement false (depth + 1) true n := by
    cases n with
    | branch => cases notBranch
    | literal text kind l => cases kind <;> exact ⟨rfl, rfl⟩
    | _ => exact ⟨rfl, rfl⟩
  rw [block] at hd ⊢
  obtain ⟨ls, read, phrases⟩ := h (depth + 1) levels hd
  have head := else_firm.append openBrace_firm
  refine ⟨punct openBrace :: ls ++ [punct closeBrace], ?_, .block _ phrases⟩
  rw [lines]
  simpa using LinesRead.cons depth head (read.append (brace_read depth))

/-- What is neither a block nor a branch is written alike wherever it stands. -/
theorem EmitsStatement.emitted (h : EmitsStatement n) (notBlock : n.isBlock = false)
    (notBranch : n.isBranch = false) : Emitted n :=
  ⟨h, h.body notBlock, (h.body notBlock).otherwise notBranch⟩

/-- What may be the first clause of a `for` is one line as a statement. -/
theorem Emitted.simple (h : n.IsStatement) (starts : n.initializes) (portable : n.Everywhere Node.Portable) :
    Emitted n := by
  have here := portable.here
  obtain ⟨notBlock, notBranch, line⟩ : n.isBlock = false ∧ n.isBranch = false ∧
      ∀ depth, Java.statement false depth false n = [⟨depth, Java.clause n ++ ";"⟩] := by
    cases n with
    | function => exact here.elim
    | declare | assign | call | binary | unary | literal | identifier => exact ⟨rfl, rfl, fun _ => rfl⟩
    | _ => cases starts
  refine EmitsStatement.emitted (fun depth levels hd => ?_) notBlock notBranch
  obtain ⟨ls, text, phrase⟩ := clause_emitted h starts portable hd
  refine ⟨ls ++ [punct ";"], ?_, ?_⟩
  · rw [line]
    exact .line depth (text.firm semicolon_firm (semicolon_separates ""))
  · rcases phrase with declared | clause
    · exact .declaration declared
    · exact .clause clause

/-- A branch is written alike alone and behind an `else`, with another lead. -/
theorem branch_emitted {test onTrue : Node} {onFalse : Option Node} {l : Location} {lead : String}
    {leadWords : List Lexeme} (depth : Nat) (firm : Firm lead leadWords) (htest : test.BuiltFrom .typed)
    (ih : Emitted onTrue) (ihElse : ∀ n ∈ onFalse, Emitted n)
    (hd : (Node.branch test onTrue onFalse l).normal.nestingIn typedWords ≤ levels) :
    ∃ ls, LinesRead (⟨depth, lead ++ ("if" ++ " (" ++ Java.expr test ++ ") \x7b")⟩ ::
          Java.statement false (depth + 1) true onTrue ++ Java.otherwise false depth onFalse ++
            [⟨depth, "\x7d"⟩]) (leadWords ++ ls) ∧
      Sentence (Statement levels) (Expression levels) ls (Node.branch test onTrue onFalse l).normal := by
  rw [Node.normal, Node.nestingIn, Nat.max_le, Nat.max_le] at hd
  obtain ⟨-, condition⟩ := expression_emitted htest hd.1
  obtain ⟨body, read, block⟩ := ih.braced (depth + 1) hd.2.1
  have head := firm.append (head_firm "if" (by decide) htest)
  cases onFalse with
  | none =>
    refine ⟨_, ?_, .branch l condition block⟩
    simpa [Java.otherwise] using LinesRead.cons depth head (read.append (brace_read depth))
  | some m =>
    obtain ⟨other, readElse, phrase⟩ := statement_of_sentence ((ihElse m rfl).otherwise depth) hd.2.2
    refine ⟨_, ?_, .branchElse l condition block rfl phrase⟩
    simpa using LinesRead.cons depth head (read.append readElse)

theorem Emitted.branch {test onTrue : Node} {onFalse : Option Node} {l : Location}
    (htest : test.BuiltFrom .typed) (ih : Emitted onTrue) (ihElse : ∀ n ∈ onFalse, Emitted n) :
    Emitted (.branch test onTrue onFalse l) := by
  have alone : EmitsStatement (.branch test onTrue onFalse l) := by
    intro depth levels hd
    have written := branch_emitted depth Firm.empty htest ih ihElse hd
    rwa [String.empty_append] at written
  refine ⟨alone, alone.body rfl, fun depth levels hd => ?_⟩
  obtain ⟨ls, read, phrase⟩ := branch_emitted depth else_firm htest ih ihElse hd
  have text : "\x7d else if (" ++ Java.expr test ++ ") \x7b" =
      "\x7d else " ++ ("if" ++ " (" ++ Java.expr test ++ ") \x7b") := by
    rw [← String.append_assoc, ← String.append_assoc]
    rfl
  refine ⟨ls, ?_, phrase⟩
  rw [Java.otherwise, text]
  exact read

theorem Emitted.whileLoop {test body : Node} {l : Location} (htest : test.BuiltFrom .typed) (ih : Emitted body) :
    Emitted (.whileLoop test body l) := by
  refine EmitsStatement.emitted (fun depth levels hd => ?_) rfl rfl
  rw [Node.normal, Node.nestingIn, Nat.max_le] at hd
  obtain ⟨-, condition⟩ := expression_emitted htest hd.1
  obtain ⟨ls, read, block⟩ := ih.braced (depth + 1) hd.2
  have head : Firm ("while (" ++ Java.expr test ++ ") \x7b") _ := head_firm "while" (by decide) htest
  refine ⟨_, ?_, .whileLoop l condition block⟩
  simpa [Java.statement] using LinesRead.cons depth head (read.append (brace_read depth))

/-- The first clause of a `for` with its semicolon. -/
theorem init_emitted {init : Option Node} (h : ∀ n ∈ init, n.IsStatement) (starts : ∀ n ∈ init, n.initializes)
    (portable : ∀ n ∈ init, n.Everywhere Node.Portable)
    (hd : Node.nestingClauseIn typedWords (Node.normalClause init) ≤ levels) :
    ∃ ls, ReadsAs ((init.map Java.clause).getD "") ls ∧
      ForInit (Statement levels) (Expression levels) (ls ++ [punct ";"]) (Node.normalClause init) := by
  cases init with
  | none => exact ⟨[], Firm.empty.readsAs, .none⟩
  | some n =>
    obtain ⟨ls, text, declared | clause⟩ := clause_emitted (h n rfl) (starts n rfl) (portable n rfl) hd
    · exact ⟨ls, text, .declaration declared List.getLast?_concat⟩
    · exact ⟨ls, text, .clause clause⟩

/-- The head of a `for`. -/
theorem forHead_firm {init test update : String} {is ls us : List Lexeme} (hinit : ReadsAs init is)
    (htest : ReadsAs test ls) (hupdate : ReadsAs update us) :
    Firm ("for (" ++ init ++ "; " ++ test ++ "; " ++ update ++ ") \x7b")
      (keyword "for" :: punct "(" :: is ++ punct ";" :: ls ++ punct ";" :: us ++ [punct ")", punct openBrace]) := by
  have gap := semicolon_firm.append Firm.blank
  have semicolon : Firm "; " [punct ";"] := gap
  have separates : Separates "; " := semicolon_separates " "
  have opened : ReadsAs ("for (" ++ init) _ := (opener_firm "for" (by decide)).before hinit
  have tested : ReadsAs ("for (" ++ init ++ "; " ++ test) _ := (opened.firm semicolon separates).before htest
  have updated : ReadsAs ("for (" ++ init ++ "; " ++ test ++ "; " ++ update) _ :=
    (tested.firm semicolon separates).before hupdate
  simpa using updated.firm bodyOpens_firm bodyOpens_separates

theorem Emitted.forLoop {init test update : Option Node} {body : Node} {l : Location}
    (hinit : ∀ n ∈ init, n.IsStatement) (starts : ∀ n ∈ init, n.initializes)
    (htest : ∀ e ∈ test, e.IsExpression) (hupdate : ∀ n ∈ update, n.IsAssignment ∨ n.IsExpression)
    (portable : (Node.forLoop init test update body l).Everywhere Node.Portable) (ih : Emitted body) :
    Emitted (.forLoop init test update body l) := by
  refine EmitsStatement.emitted (fun depth levels hd => ?_) rfl rfl
  rw [Node.normal, Node.nestingIn, Nat.max_le, Nat.max_le, Nat.max_le] at hd
  have part : ∀ n : Node, n ∈ init ∨ n ∈ test ∨ n ∈ update → n.Everywhere Node.Portable := by
    intro n h
    refine portable.child ?_
    rcases h with h | h | h <;> simp [Node.children, Node.inRole, Option.mem_def.mp h]
  obtain ⟨first, firstText, firstPhrase⟩ := init_emitted hinit starts (fun n h => part n (.inl h)) hd.1.1
  obtain ⟨second, secondText, secondPhrase⟩ := optional_emitted htest (fun n h => part n (.inr (.inl h))) hd.1.2
  obtain ⟨third, thirdText, thirdPhrase⟩ := update_emitted hupdate (fun n h => part n (.inr (.inr h))) hd.2.1
  obtain ⟨ls, read, block⟩ := ih.braced (depth + 1) hd.2.2
  have head := forHead_firm firstText secondText thirdText
  refine ⟨_, ?_, .forLoop l firstPhrase secondPhrase thirdPhrase block⟩
  simpa [Java.statement] using LinesRead.cons depth head (read.append (brace_read depth))

theorem Emitted.ret {value : Option Node} {l : Location} (h : ∀ e ∈ value, e.IsExpression)
    (portable : (Node.ret value l).Everywhere Node.Portable) : Emitted (.ret value l) := by
  refine EmitsStatement.emitted (fun depth levels hd => ?_) rfl rfl
  have word : ReadsAs "return" [keyword "return"] := keyword_readsAs (by decide)
  cases value with
  | none =>
    have ended := word.firm semicolon_firm (semicolon_separates "")
    exact ⟨_, .line depth ended, .ret l .none⟩
  | some e =>
    have built := builtFrom_typed (h e rfl) (portable.child (by simp [Node.children, Node.inRole]))
    obtain ⟨text, phrase⟩ := expression_emitted built hd
    have blank := word.firm Firm.blank (blank_separates "")
    have value : ReadsAs ("return " ++ Java.expr e) _ := blank.before text
    have ended := value.firm semicolon_firm (semicolon_separates "")
    exact ⟨_, .line depth ended, .ret l (.some phrase)⟩

theorem statements_emitted {ns : List Node} (h : ∀ n ∈ ns, Emitted n) (depth : Nat)
    (hd : Node.nestingAllIn typedWords (Node.normalAll ns) ≤ levels) :
    ∃ ls, LinesRead (Java.statements false depth ns) ls ∧ Many (Statement levels) ls (Node.normalAll ns) := by
  induction ns with
  | nil => exact ⟨[], .nil, .nil⟩
  | cons n ns ih =>
    obtain ⟨first, others⟩ := List.forall_mem_cons.mp h
    rw [Node.normalAll, Node.nestingAllIn, Nat.max_le] at hd
    obtain ⟨ls, read, phrase⟩ := statement_of_sentence (first.statement depth) hd.1
    obtain ⟨ms, readMore, phrases⟩ := ih others hd.2
    exact ⟨ls ++ ms, read.append readMore, .cons phrase phrases⟩

theorem Emitted.block {body : List Node} {l : Location} (h : ∀ n ∈ body, Emitted n) :
    Emitted (.block body l) := by
  have inside : EmitsBody (.block body l) := fun depth levels hd => statements_emitted h depth hd
  refine ⟨fun depth levels hd => ?_, inside, inside.otherwise rfl⟩
  obtain ⟨ls, read, phrases⟩ := statements_emitted h (depth + 1) hd
  refine ⟨_, ?_, .block l phrases⟩
  simpa [Java.statement] using LinesRead.cons depth openBrace_firm (read.append (brace_read depth))

end

/-- **The lines of a statement are read as phrases for its normal form.** -/
theorem emitted {n : Node} (h : n.IsStatement) (portable : n.Everywhere Node.Portable) : Emitted n := by
  induction h with
  | inclusion | prototype | definition | printf | scanf => exact portable.here.elim
  | declare name type l typed hinit => exact .simple (.declare name type l typed hinit) rfl portable
  | @assign n assigned =>
    refine .simple (.assign assigned) ?_ portable
    cases assigned <;> rfl
  | @branch test onTrue onFalse l htest _ _ _ ih ihElse =>
    have condition := builtFrom_typed htest (portable.child (by simp [Node.children]))
    refine .branch condition (ih (portable.child (by simp [Node.children]))) fun n hn => ?_
    exact ihElse n hn (portable.child (by simp [Node.children, Node.inRole, Option.mem_def.mp hn]))
  | whileLoop l htest _ ih =>
    have condition := builtFrom_typed htest (portable.child (by simp [Node.children]))
    exact .whileLoop condition (ih (portable.child (by simp [Node.children])))
  | forLoop l hinit starts htest hupdate _ _ ih =>
    exact .forLoop hinit starts htest hupdate portable (ih (portable.child (by simp [Node.children])))
  | ret l hvalue => exact .ret hvalue portable
  | block l _ ih => exact .block fun n hn => ih n hn (portable.child (by simpa [Node.children] using hn))
  | @expression e he name =>
    refine .simple (.expression he name) ?_ portable
    cases he <;> rfl

/-- A text whose words are statements of the grammar is read as these statements. -/
theorem parseSource_phrases {source : String} {ls : List Lexeme} {ns : List Node}
    (words : wordsOf (tokenize source).tokens = ls) (clean : (tokenize source).diagnostics = [])
    (phrases : Many (Statement maxNesting) ls ns) :
    (parseSource source).diagnostics = [] ∧ (parseSource source).tree.erase = (Node.program ns).erase := by
  have same : parseSource source = parseTokens (tokenize source).tokens := by
    rw [parseSource, parseTokens, clean]
  rw [← words, ← Cursor.ofTokens_words _ []] at phrases
  obtain ⟨alike, moved⟩ := Parse.program_completes phrases
  rw [same]
  constructor
  · rw [parseTokens_diagnostics, Cursor.diagnostics, moved.log]
    rfl
  · rw [parseTokens_tree, alike, Node.erase]

theorem parseSource_emitted {ns : List Node} (depth : Nat) (each : ∀ n ∈ ns, Emitted n)
    (shallow : Node.nestingAllIn typedWords (Node.normalAll ns) ≤ maxNesting) :
    (parseSource (Layout.text ((Java.statements false depth ns).map .line))).diagnostics = [] ∧
      (parseSource (Layout.text ((Java.statements false depth ns).map .line))).tree.erase =
        (Node.program (Node.normalAll ns)).erase := by
  obtain ⟨ls, read, phrases⟩ := statements_emitted each depth shallow
  obtain ⟨words, clean⟩ := read.tokens
  exact parseSource_phrases words clean phrases

/-- **Statements in the typed language are read back in normal form.** Outside `main`,
at any indentation, neither lexer nor parser reports anything about the text of some
statements that does not nest too deep, and the tree is the statements in normal form. -/
theorem emit_then_parse {ns : List Node} (depth : Nat) (shape : ∀ n ∈ ns, n.IsStatement)
    (portable : ∀ n ∈ ns, n.Everywhere Node.Portable)
    (shallow : (Node.program (Node.normalAll ns)).nestingIn (.of .typed) ≤ maxNesting) :
    (parseSource (Layout.text ((Java.statements false depth ns).map .line))).diagnostics = [] ∧
      (parseSource (Layout.text ((Java.statements false depth ns).map .line))).tree.erase =
        (Node.program (Node.normalAll ns)).erase := by
  have each : ∀ n ∈ ns, Emitted n := fun n hn => emitted (shape n hn) (portable n hn)
  exact parseSource_emitted depth each shallow

/-- The statement `if (a) a = 1; else if (!b) { float b; }`. -/
def chainedBranch : Node :=
  .branch (.identifier "a" .nowhere)
    (.assign "a" .assign (some (.literal "1" .int .nowhere)) .nowhere)
    (some (.branch (.unary .not (.identifier "b" .nowhere) .nowhere)
      (.block [.declare "b" "float" none .nowhere] .nowhere) none .nowhere)) .nowhere

/-- The statement `for (short i = 0; ; i++) f("\"");`. -/
def callLoop : Node :=
  .forLoop (some (.declare "i" "short" (some (.literal "0" .int .nowhere)) .nowhere)) none
    (some (.assign "i" .increment none .nowhere))
    (.call "f" [.literal "\"" .string .nowhere] .nowhere) .nowhere

theorem chainedBranch_shape : chainedBranch.IsStatement ∧ chainedBranch.Everywhere Node.Portable := by
  have nameA : LexesAs "a" (ident "a") := .of_next 'a' [] rfl rfl rfl
  have nameB : LexesAs "b" (ident "b") := .of_next 'b' [] rfl rfl rfl
  have one : LexesAs "1" (.number, "1") := .of_next '1' [] rfl rfl rfl
  constructor
  · refine .branch _ (.identifier _ trivial) ?assign ?chain fun _ => rfl
    case assign => exact .assign (.value _ _ _ rfl (.number _ (by decide) rfl))
    case chain =>
      have body : (Node.block [.declare "b" "float" none .nowhere] .nowhere).IsStatement :=
        .block _ (List.forall_mem_singleton.mpr (.declare _ _ _ (by decide) (by simp)))
      simpa using .branch _ (.unary _ trivial (.identifier _ trivial)) body (by simp) (by simp)
  · have identifier (x : String) (h : LexesAs x (ident x)) :
        (Node.identifier x .nowhere).Everywhere Node.Portable := .mk h (by simp [Node.children])
    have value : (Node.literal "1" .int .nowhere).Everywhere Node.Portable := .mk one (by simp [Node.children])
    have a := identifier "a" nameA
    have b := identifier "b" nameB
    have declared : (Node.declare "b" "float" none .nowhere).Everywhere Node.Portable :=
      .mk ⟨nameB, by decide⟩ (by simp [Node.children, Node.inRole])
    have assigned : (Node.assign "a" .assign (some (.literal "1" .int .nowhere)) .nowhere).Everywhere Node.Portable :=
      .mk nameA (by simpa [Node.children, Node.inRole] using value)
    have negated : (Node.unary .not (.identifier "b" .nowhere) .nowhere).Everywhere Node.Portable :=
      .mk (show UnaryOp.not ≠ .addressOf by decide) (by simpa [Node.children] using b)
    have block : (Node.block [.declare "b" "float" none .nowhere] .nowhere).Everywhere Node.Portable :=
      .mk trivial (by simpa [Node.children] using declared)
    have chain : (Node.branch (.unary .not (.identifier "b" .nowhere) .nowhere)
        (.block [.declare "b" "float" none .nowhere] .nowhere) none .nowhere).Everywhere Node.Portable :=
      .mk trivial (by simpa [Node.children, Node.inRole] using ⟨negated, block⟩)
    exact .mk trivial (by simpa [chainedBranch, Node.children, Node.inRole] using ⟨a, assigned, chain⟩)

theorem callLoop_shape : callLoop.IsStatement ∧ callLoop.Everywhere Node.Portable := by
  have nameI : LexesAs "i" (ident "i") := .of_next 'i' [] rfl rfl rfl
  have nameF : LexesAs "f" (ident "f") := .of_next 'f' [] rfl rfl rfl
  have nought : LexesAs "0" (.number, "0") := .of_next '0' [] rfl rfl rfl
  constructor
  · refine .forLoop _ ?init (by simp [Node.initializes]) (by simp) ?update ?body
    case init =>
      have nought : (Node.literal "0" .int .nowhere).IsExpression := .number _ (by decide) rfl
      simpa using .declare _ _ _ (by decide) (by simpa using nought)
    case update => simpa using .inl (.step _ _ _ rfl)
    case body => exact .expression (.call _ trivial (List.forall_mem_singleton.mpr (.string _ trivial))) rfl
  · have value : (Node.literal "0" .int .nowhere).Everywhere Node.Portable := .mk nought (by simp [Node.children])
    have quote : (Node.literal "\"" .string .nowhere).Everywhere Node.Portable :=
      .mk (show Text.paired "\"".toList by decide) (by simp [Node.children])
    have init : (Node.declare "i" "short" (some (.literal "0" .int .nowhere)) .nowhere).Everywhere Node.Portable :=
      .mk ⟨nameI, by decide⟩ (by simpa [Node.children, Node.inRole] using value)
    have update : (Node.assign "i" .increment none .nowhere).Everywhere Node.Portable :=
      .mk nameI (by simp [Node.children, Node.inRole])
    have body : (Node.call "f" [.literal "\"" .string .nowhere] .nowhere).Everywhere Node.Portable :=
      .mk nameF (by simpa [Node.children] using quote)
    exact .mk trivial (by simpa [callLoop, Node.children, Node.inRole] using ⟨init, update, body⟩)

theorem emit_then_parse_mixed :
    (∀ n ∈ [chainedBranch, callLoop], n.IsStatement) ∧
      (∀ n ∈ [chainedBranch, callLoop], n.Everywhere Node.Portable) ∧
      (Node.program (Node.normalAll [chainedBranch, callLoop])).nestingIn (.of .typed) = 5 ∧
      (parseSource (Layout.text ((Java.statements false 2 [chainedBranch, callLoop]).map .line))).diagnostics = [] ∧
      (parseSource (Layout.text ((Java.statements false 2 [chainedBranch, callLoop]).map .line))).tree.erase =
        (Node.program (Node.normalAll [chainedBranch, callLoop])).erase := by
  have shape : ∀ n ∈ [chainedBranch, callLoop], n.IsStatement :=
    by simpa using ⟨chainedBranch_shape.1, callLoop_shape.1⟩
  have portable : ∀ n ∈ [chainedBranch, callLoop], n.Everywhere Node.Portable :=
    by simpa using ⟨chainedBranch_shape.2, callLoop_shape.2⟩
  exact ⟨shape, portable, by decide, emit_then_parse 2 shape portable (by decide)⟩

end MiniC
