/-
# The grammar of expressions and statements

What the parser is there to read: rows of words and the trees they stand for,
whatever the places of either. The rules follow the parser level by level. Each of
them has the phrases one level down as a parameter, so a level of nesting is a
step of a recursion on the number of levels left (`Grammar.Operand`,
`Grammar.Statement`). Parentheses may stand around any expression; what they are
needed for is left to those who write one.

A branch with an `else` must not have an open statement in front of it, one that
would take the `else` for itself (`Node.isOpen`).

Key definitions: `Phrase`, `Grammar.Tier`, `Grammar.Operand`, `Grammar.Expression`,
`Grammar.Sentence`, `Grammar.Statement`, `Node.isOpen`, `Node.erase`.
-/
import MiniC.Parse.Statement
import MiniC.Proofs.Lexeme

namespace MiniC

namespace Node

mutual

/-- The tree without its places. -/
def erase : Node → Node
  | .program body => .program (eraseAll body)
  | .inclusion library _ => .inclusion library .nowhere
  | .function header body _ => .function header (eraseAll body) .nowhere
  | .declare name type init _ => .declare name type (erase? init) .nowhere
  | .assign target o value _ => .assign target o (erase? value) .nowhere
  | .branch condition onTrue onFalse _ =>
    .branch (erase condition) (erase onTrue) (erase? onFalse) .nowhere
  | .whileLoop condition body _ => .whileLoop (erase condition) (erase body) .nowhere
  | .forLoop init condition update body _ =>
    .forLoop (erase? init) (erase? condition) (erase? update) (erase body) .nowhere
  | .ret value _ => .ret (erase? value) .nowhere
  | .printf args _ => .printf (eraseAll args) .nowhere
  | .scanf args _ => .scanf (eraseAll args) .nowhere
  | .call name args _ => .call name (eraseAll args) .nowhere
  | .block body _ => .block (eraseAll body) .nowhere
  | .binary o left right _ => .binary o (erase left) (erase right) .nowhere
  | .unary o operand _ => .unary o (erase operand) .nowhere
  | .literal value kind _ => .literal value kind .nowhere
  | .identifier name _ => .identifier name .nowhere

def eraseAll : List Node → List Node
  | [] => []
  | n :: ns => erase n :: eraseAll ns

def erase? : Option Node → Option Node
  | none => none
  | some n => some (erase n)

end

/-- The statement ends in an `if` that could still take an `else`. -/
def isOpen : Node → Bool
  | .branch _ _ none _ => true
  | .branch _ _ (some onFalse) _ => isOpen onFalse
  | .whileLoop _ body _ => isOpen body
  | .forLoop _ _ _ body _ => isOpen body
  | _ => false

end Node

/-- Rows of words with the trees they stand for. -/
abbrev Phrase := List Lexeme → Node → Prop

namespace Grammar

open Lexeme

/-! ### Expressions -/

/-- Expressions with commas between them, at least one. -/
inductive Items {α : Type} (Expr : List Lexeme → α → Prop) : List Lexeme → List α → Prop
  | one {ls : List Lexeme} {e : α} : Expr ls e → Items Expr ls [e]
  | cons {ls ms : List Lexeme} {e : α} {es : List α} :
    Expr ls e → Items Expr ms es → Items Expr (ls ++ punct "," :: ms) (e :: es)

/-- Arguments in their parentheses. -/
inductive Arguments {α : Type} (Expr : List Lexeme → α → Prop) : List Lexeme → List α → Prop
  | none : Arguments Expr [punct "(", punct ")"] []
  | some {ls : List Lexeme} {es : List α} :
    Items Expr ls es → Arguments Expr (punct "(" :: ls ++ [punct ")"]) es

/-- Literals, names, calls and groups. -/
inductive Primary (Expr : Phrase) : Phrase
  | number (text : String) (l : Location) :
    Primary Expr [(.number, text)] (.literal text (Parse.numberKind text) l)
  | string (text : String) (l : Location) :
    Primary Expr [(.string, text)] (.literal text .string l)
  | name (x : String) (l : Location) : Primary Expr [ident x] (.identifier x l)
  | call {ls : List Lexeme} {args : List Node} (x : String) (l : Location) :
    Arguments Expr ls args → Primary Expr (ident x :: ls) (.call x args l)
  | group {ls : List Lexeme} {e : Node} :
    Expr ls e → Primary Expr (punct "(" :: ls ++ [punct ")"]) e

/-- Operators over an operand: tier `k` has the `k` tightest precedences, each of
them grouped from the left. -/
inductive Tier (Operand : Phrase) : Nat → Phrase
  | operand {ls : List Lexeme} {e : Node} : Operand ls e → Tier Operand 0 ls e
  | lift {k : Nat} {ls : List Lexeme} {e : Node} : Tier Operand k ls e → Tier Operand (k + 1) ls e
  | binary {k : Nat} {ls ms : List Lexeme} {left right : Node} (o : BinOp) (l : Location) :
    Tier Operand (k + 1) ls left → o.precedence = 6 - k → Tier Operand k ms right →
      Tier Operand (k + 1) (ls ++ op o.symbol :: ms) (.binary o left right l)

/-- A primary, or a prefix operator before what it applies to. -/
inductive Prefixed (Operand : Phrase) : Phrase
  | primary {ls : List Lexeme} {e : Node} :
    Primary (Tier Operand 6) ls e → Prefixed Operand ls e
  | negation {ls : List Lexeme} {e : Node} (o : UnaryOp) (l : Location) :
    o ≠ .addressOf → Operand ls e → Prefixed Operand (op o.symbol :: ls) (.unary o e l)
  | address {ls : List Lexeme} {e : Node} (l : Location) :
    Primary (Tier Operand 6) ls e →
      Prefixed Operand (op UnaryOp.addressOf.symbol :: ls) (.unary .addressOf e l)

/-- Operands with at most `levels` levels of nesting. -/
def Operand : (levels : Nat) → Phrase
  | 0 => fun _ _ => False
  | levels + 1 => Prefixed (Operand levels)

/-- Expressions with at most `levels` levels of nesting. -/
def Expression (levels : Nat) : Phrase := Tier (Operand levels) 6

/-- The word can be the first of an operand. -/
def opensOperand : Lexeme → Bool
  | (.number, _) | (.string, _) | (.identifier, _) | (.operator, _) => true
  | (.delimiter, text) => text = "("
  | _ => false

/-- The row of words starts with a word that can open an operand. -/
def StartsOperand (ls : List Lexeme) : Prop := ∃ l more, ls = l :: more ∧ opensOperand l

/-- All phrases start with a word that can open an operand. -/
def Opens (P : Phrase) : Prop := ∀ {ls : List Lexeme} {e : Node}, P ls e → StartsOperand ls

theorem StartsOperand.append {ls : List Lexeme} (h : StartsOperand ls) (more : List Lexeme) :
    StartsOperand (ls ++ more) := by
  obtain ⟨l, rest, rfl, hl⟩ := h
  exact ⟨l, rest ++ more, rfl, hl⟩

theorem items_start {P : Phrase} (h : Opens P) {ls : List Lexeme} {es : List Node}
    (hes : Items P ls es) : StartsOperand ls := by
  cases hes with
  | one he => exact h he
  | cons he _ => exact (h he).append _

theorem arguments_start {α : Type} {P : List Lexeme → α → Prop} {ls : List Lexeme} {es : List α}
    (hes : Arguments P ls es) :
    ∃ more, ls = punct "(" :: more := by
  cases hes with
  | none => exact ⟨_, rfl⟩
  | some _ => exact ⟨_, List.cons_append⟩

theorem primary_opens (Expr : Phrase) : Opens (Primary Expr) := by
  intro ls e h
  cases h with
  | group _ => exact ⟨_, _, List.cons_append, rfl⟩
  | _ => exact ⟨_, _, rfl, rfl⟩

/-- A primary starts with no operator. -/
theorem primary_start {Expr : Phrase} {ls : List Lexeme} {e : Node} (h : Primary Expr ls e) :
    ∃ kind text more, ls = (kind, text) :: more ∧ kind ≠ .operator := by
  cases h with
  | group _ => exact ⟨_, _, _, List.cons_append, by decide⟩
  | _ => exact ⟨_, _, _, rfl, by decide⟩

theorem tier_opens {P : Phrase} (h : Opens P) (k : Nat) : Opens (Tier P k) := by
  intro ls e he
  induction he with
  | operand he => exact h he
  | lift _ ih => exact ih
  | binary o l _ _ _ ih _ => exact ih.append _

theorem operand_opens : ∀ levels, Opens (Operand levels)
  | 0, _, _, h => h.elim
  | levels + 1, _, _, h => by
    cases h with
    | primary he => exact primary_opens _ he
    | negation _ _ _ _ => exact ⟨_, _, rfl, rfl⟩
    | address _ _ => exact ⟨_, _, rfl, rfl⟩

theorem expression_opens (levels : Nat) : Opens (Expression levels) :=
  tier_opens (operand_opens levels) 6

/-- A name that starts an expression stands alone, or a call or an operator follows. -/
def NamesStart (P : Phrase) : Prop :=
  ∀ {x : String} {ls : List Lexeme} {e : Node}, P (ident x :: ls) e →
    ∀ l ∈ ls.head?, l = punct "(" ∨ ∃ o : BinOp, l = op o.symbol

theorem primary_namesStart (Expr : Phrase) : NamesStart (Primary Expr) := by
  intro x ls e h l hl
  cases h with
  | name _ _ => simp at hl
  | call _ _ hargs =>
    obtain ⟨more, rfl⟩ := arguments_start hargs
    exact .inl (by simpa using hl.symm)

theorem tier_namesStart {P : Phrase} (opens : Opens P) (h : NamesStart P) (k : Nat) :
    NamesStart (Tier P k) := by
  intro x ls e he
  generalize hrow : ident x :: ls = row at he
  induction he generalizing ls with
  | operand he =>
    subst hrow
    exact h he
  | lift _ ih => exact ih hrow
  | @binary k left _ _ _ o _ hleft _ _ ih _ =>
    obtain ⟨first, more, rfl, -⟩ := tier_opens opens (k + 1) hleft
    rw [List.cons_append, List.cons.injEq] at hrow
    obtain ⟨rfl, rfl⟩ := hrow
    intro l hl
    cases more with
    | nil => exact .inr ⟨o, by simpa using hl.symm⟩
    | cons second more => exact ih rfl l (by simpa using hl)

theorem operand_namesStart : ∀ levels, NamesStart (Operand levels)
  | 0, _, _, _, h => h.elim
  | levels + 1, _, _, _, h => by
    cases h with
    | primary he => exact primary_namesStart _ he

theorem expression_namesStart (levels : Nat) : NamesStart (Expression levels) :=
  tier_namesStart (operand_opens levels) (operand_namesStart levels) 6

/-! ### Statements -/

/-- A phrase that may be missing. -/
inductive Optional (P : Phrase) : List Lexeme → Option Node → Prop
  | none : Optional P [] none
  | some {ls : List Lexeme} {e : Node} : P ls e → Optional P ls (some e)

/-- Phrases one after the other. -/
inductive Many (P : Phrase) : List Lexeme → List Node → Prop
  | nil : Many P [] []
  | cons {ls ms : List Lexeme} {n : Node} {ns : List Node} :
    P ls n → Many P ms ns → Many P (ls ++ ms) (n :: ns)

/-- Parameters with commas between them. -/
def paramWords : List Param → List Lexeme
  | [] => []
  | [p] => [keyword p.type, ident p.name]
  | p :: ps => keyword p.type :: ident p.name :: punct "," :: paramWords ps

/-- A function up to the parenthesis that closes its parameters. -/
def headerWords (h : Header) : List Lexeme :=
  keyword h.returnType :: ident h.name :: punct "(" :: paramWords h.params ++ [punct ")"]

/-- The types of a function and its parameters are type keywords. -/
def TypedHeader (h : Header) : Prop :=
  isTypeKeyword h.returnType ∧ ∀ p ∈ h.params, isTypeKeyword p.type

/-- Declarations of functions and variables. -/
inductive Declaration (Statement Expr : Phrase) : Phrase
  | prototype (h : Header) (l : Location) : h.isPrototype = true → TypedHeader h →
    Declaration Statement Expr (headerWords h ++ [punct ";"]) (.function h [] l)
  | definition {ls : List Lexeme} {body : List Node} (h : Header) (l : Location) :
    h.isPrototype = false → TypedHeader h → Many Statement ls body →
      Declaration Statement Expr (headerWords h ++ punct openBrace :: ls ++ [punct closeBrace])
        (.function h body l)
  | declared (name type : String) (l : Location) : isTypeKeyword type →
    Declaration Statement Expr [keyword type, ident name, punct ";"] (.declare name type none l)
  | initialized {ls : List Lexeme} {e : Node} (name type : String) (l : Location) :
    isTypeKeyword type → Expr ls e →
      Declaration Statement Expr (keyword type :: ident name :: op "=" :: ls ++ [punct ";"])
        (.declare name type (some e) l)

/-- Assignments and the expressions that start with a name, without a semicolon. -/
inductive NameClause (Expr : Phrase) : Phrase
  | step (target : String) (o : AssignOp) (l : Location) : o.isStep = true →
    NameClause Expr [ident target, op o.symbol] (.assign target o none l)
  | assign {ls : List Lexeme} {e : Node} (target : String) (o : AssignOp) (l : Location) :
    o.isStep = false → Expr ls e →
      NameClause Expr (ident target :: op o.symbol :: ls) (.assign target o (some e) l)
  | expression {x : String} {ls : List Lexeme} {e : Node} :
    Expr (ident x :: ls) e → NameClause Expr (ident x :: ls) e

/-- The first clause of a `for` with its semicolon, which most declarations bring. -/
inductive ForInit (Statement Expr : Phrase) : List Lexeme → Option Node → Prop
  | none : ForInit Statement Expr [punct ";"] none
  | declaration {ls : List Lexeme} {n : Node} : Declaration Statement Expr ls n →
    ls.getLast? = some (punct ";") → ForInit Statement Expr ls (some n)
  | definition {ls : List Lexeme} {n : Node} : Declaration Statement Expr ls n →
    ls.getLast? = some (punct closeBrace) → ForInit Statement Expr (ls ++ [punct ";"]) (some n)
  | clause {ls : List Lexeme} {n : Node} : NameClause Expr ls n →
    ForInit Statement Expr (ls ++ [punct ";"]) (some n)

/-- The last clause of a `for`. -/
inductive ForUpdate (Expr : Phrase) : List Lexeme → Option Node → Prop
  | none : ForUpdate Expr [] none
  | clause {ls : List Lexeme} {n : Node} : NameClause Expr ls n → ForUpdate Expr ls (some n)
  | expression {ls : List Lexeme} {e : Node} : Expr ls e → (∀ x, ls.head? ≠ some (ident x)) →
    ForUpdate Expr ls (some e)

/-- Statements whose parts are those of the two phrases. -/
inductive Sentence (Statement Expr : Phrase) : Phrase
  | inclusion (library : String) (l : Location) :
    Sentence Statement Expr [punct "#", ident "include", (.string, library)] (.inclusion library l)
  | declaration {ls : List Lexeme} {n : Node} :
    Declaration Statement Expr ls n → Sentence Statement Expr ls n
  | branch {ls ms : List Lexeme} {test onTrue : Node} (l : Location) :
    Expr ls test → Statement ms onTrue →
      Sentence Statement Expr (keyword "if" :: punct "(" :: ls ++ punct ")" :: ms)
        (.branch test onTrue none l)
  | branchElse {ls ms ns : List Lexeme} {test onTrue onFalse : Node} (l : Location) :
    Expr ls test → Statement ms onTrue → onTrue.isOpen = false → Statement ns onFalse →
      Sentence Statement Expr
        (keyword "if" :: punct "(" :: ls ++ punct ")" :: ms ++ keyword "else" :: ns)
        (.branch test onTrue (some onFalse) l)
  | whileLoop {ls ms : List Lexeme} {test body : Node} (l : Location) :
    Expr ls test → Statement ms body →
      Sentence Statement Expr (keyword "while" :: punct "(" :: ls ++ punct ")" :: ms)
        (.whileLoop test body l)
  | forLoop {is ls us ms : List Lexeme} {init test update : Option Node} {body : Node}
      (l : Location) :
    ForInit Statement Expr is init → Optional Expr ls test → ForUpdate Expr us update →
      Statement ms body →
      Sentence Statement Expr
        (keyword "for" :: punct "(" :: is ++ ls ++ punct ";" :: us ++ punct ")" :: ms)
        (.forLoop init test update body l)
  | ret {ls : List Lexeme} {value : Option Node} (l : Location) : Optional Expr ls value →
    Sentence Statement Expr (keyword "return" :: ls ++ [punct ";"]) (.ret value l)
  | printf {ls : List Lexeme} {args : List Node} (l : Location) : Arguments Expr ls args →
    Sentence Statement Expr (keyword "printf" :: ls ++ [punct ";"]) (.printf args l)
  | scanf {ls : List Lexeme} {args : List Node} (l : Location) : Arguments Expr ls args →
    Sentence Statement Expr (keyword "scanf" :: ls ++ [punct ";"]) (.scanf args l)
  | block {ls : List Lexeme} {body : List Node} (l : Location) : Many Statement ls body →
    Sentence Statement Expr (punct openBrace :: ls ++ [punct closeBrace]) (.block body l)
  | clause {ls : List Lexeme} {n : Node} : NameClause Expr ls n →
    Sentence Statement Expr (ls ++ [punct ";"]) n

/-- Statements with at most `levels` levels of nesting. -/
def Statement : (levels : Nat) → Phrase
  | 0 => fun _ _ => False
  | levels + 1 => Sentence (Statement levels) (Expression levels)

end Grammar
end MiniC
