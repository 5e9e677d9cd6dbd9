/-
# Where the scanner is in scope

Each `scanf` is written as rows that read from a scanner, wherever it stands, and only the
methods `main` have one: it is declared in their first row. So the rows that read stand
inside of a method `main` and behind its declaration exactly if no `scanf` stands outside
of the functions `main` (`transpile_scanner_scope`).

A row reads if it ends in one of the calls that read (`isRead`). No other row does so by
chance: the point in such a call stands behind an `r`, and in what is written for an
expression a point stands behind a digit or inside of a string, before its closing quote
(`Silent`). Rows are put together by pieces: what stands behind a method that is ended does
not come into its scope (`inScope_append`).

Key definitions: `Node.scans`, `Node.scansOnTop`, `Braces.isRead`, `Braces.Silent`, `Braces.InScope`,
`Braces.Scoped`.
Key theorems: `Braces.expr_silent`, `Braces.statement_reads`, `Braces.inScope_append`,
`Braces.member_scoped`, `Braces.transpile_scanner_scope`.
-/
import MiniC.Proofs.Braces.Exits

namespace MiniC

/-! ### Where something is read -/

mutual

/-- A `scanf` stands in the statement, at any depth of blocks, branches and loops. A function
inside of it is not looked at, as it is not written. -/
def Node.scans : Node → Bool
  | .program body | .block body _ => Node.scansAny body
  | .branch _ onTrue onFalse _ => onTrue.scans || Node.scansElse onFalse
  | .whileLoop _ body _ | .forLoop _ _ _ body _ => body.scans
  | .scanf .. => true
  | .inclusion .. | .function .. | .declare .. | .assign .. | .ret .. | .printf .. | .call .. | .binary ..
  | .unary .. | .literal .. | .identifier .. => false

/-- A `scanf` stands in one of the statements. -/
def Node.scansAny : List Node → Bool
  | [] => false
  | n :: ns => n.scans || Node.scansAny ns

/-- A `scanf` stands in the else-branch. -/
def Node.scansElse : Option Node → Bool
  | none => false
  | some n => n.scans

end

/-- A `scanf` stands in the item of a program. -/
def Node.scansOnTop : Node → Bool
  | .function header body _ => !header.isPrototype && Node.scansAny body
  | n => n.scans

namespace Braces

open Row (indent)

/-! ### Rows that read -/

/-- How the rows end that read from the scanner. -/
def readEndings : List String :=
  "scanner.nextLine();" :: [.integer, .float, .string, .char].map fun c => Java.readCall c ++ ";"

/-- The row reads from the scanner. -/
def isRead (row : List Char) : Bool := readEndings.any fun call => call.toList.isSuffixOf row

theorem isRead_iff {row : List Char} : isRead row ↔ ∃ call ∈ readEndings, call.toList <:+ row := by
  simp [isRead]

theorem isRead_readCall (conversion : Conversion) (before : String) :
    isRead (before ++ Java.readCall conversion ++ ";").toList := by
  refine isRead_iff.mpr ⟨Java.readCall conversion ++ ";", ?_, ?_⟩
  · cases conversion <;> decide
  · have split : (before ++ (Java.readCall conversion ++ ";")).toList =
        before.toList ++ (Java.readCall conversion ++ ";").toList := String.toList_append
    rw [String.append_assoc, split]
    exact List.suffix_append _ _

/-- What a row ends in that reads. -/
theorem last_of_isRead {row : List Char} (h : isRead row) : row.getLast? = some ';' := by
  obtain ⟨call, member, before, rfl⟩ := isRead_iff.mp h
  have ends : readEndings.all fun call => call.toList.getLast? = some ';' := by decide
  have last : call.toList.getLast? = some ';' := by simpa using List.all_eq_true.mp ends call member
  rw [List.getLast?_append, last]
  rfl

/-- Only rows that end in a semicolon read. -/
theorem not_isRead_of_last {row : List Char} (last : row.getLast?.any (· ≠ ';')) : isRead row = false := by
  refine Bool.eq_false_iff.mpr fun read => ?_
  rw [last_of_isRead read] at last
  exact absurd last (by decide)

/-- The indentation of a row does not matter. -/
theorem isRead_rowOf (l : Line) : isRead (rowOf l) = isRead l.text.toList := by
  have noBlank : readEndings.all fun call => !call.toList.contains ' ' := by decide
  rw [Bool.eq_iff_iff, isRead_iff, isRead_iff]
  constructor
  · rintro ⟨call, member, before, split⟩
    refine ⟨call, member, ?_⟩
    rw [rowOf] at split
    rcases List.append_eq_append_iff.mp split with ⟨blanks, indentation, behind⟩ | ⟨front, -, behind⟩
    · -- the call would start in the indentation
      cases blanks with
      | nil => exact behind ▸ List.suffix_refl _
      | cons c blanks =>
        have blank : c = ' ' := List.eq_of_mem_replicate (indentation ▸ by simp : c ∈ List.replicate (4 * l.depth) ' ')
        have absent := List.all_eq_true.mp noBlank call member
        simp [behind, blank] at absent
    · exact ⟨front, behind.symm⟩
  · rintro ⟨call, member, suffix⟩
    exact ⟨call, member, suffix.trans (List.suffix_append _ _)⟩

/-! ### Silent texts -/

/-- Behind each `r` with a point behind it stands a quote, somewhere. -/
def silent : List Char → Bool
  | [] => true
  | c :: cs => (!(c = 'r' && cs.head? = some '.') || cs.contains '"') && silent cs

def Silent (text : String) : Prop := silent text.toList

instance (text : String) : Decidable (Silent text) := inferInstanceAs (Decidable (_ = _))

theorem silent_split (before : List Char) {after : List Char} (h : silent (before ++ 'r' :: '.' :: after)) :
    '"' ∈ after := by
  induction before with
  | nil => simpa [silent] using (Bool.and_eq_true_iff.mp h).1
  | cons c before ih => exact ih (Bool.and_eq_true_iff.mp h).2

/-- A silent text does not read. -/
theorem Silent.not_isRead {text : String} (h : Silent text) : isRead text.toList = false := by
  refine Bool.eq_false_iff.mpr fun read => ?_
  obtain ⟨call, member, before, split⟩ := isRead_iff.mp read
  have shape : readEndings.all fun call => (call.toList.take 8 = "scanner.".toList) &&
      !(call.toList.drop 8).contains '"' := by decide
  obtain ⟨start, noQuote⟩ := Bool.and_eq_true_iff.mp (List.all_eq_true.mp shape call member)
  have parts : call.toList = "scanne".toList ++ 'r' :: '.' :: call.toList.drop 8 := by
    have start := of_decide_eq_true start
    rw [← List.take_append_drop 8 call.toList, start]
    simp
  rw [parts, ← List.append_assoc] at split
  rw [Silent, ← split] at h
  have quote := silent_split _ h
  simp [quote] at noQuote

/-- Without a point there is nothing to look at. -/
theorem silent_of_noPoint {cs : List Char} (h : '.' ∉ cs) : silent cs := by
  induction cs with
  | nil => rfl
  | cons c cs ih =>
    have later : '.' ∉ cs := fun member => h (List.mem_cons_of_mem c member)
    have next : cs.head? ≠ some '.' := fun first => later (List.mem_of_mem_head? first)
    simp [silent, next, ih later]

/-- Nor is there without an `r`. -/
theorem silent_of_noLetter {cs : List Char} (h : 'r' ∉ cs) : silent cs := by
  induction cs with
  | nil => rfl
  | cons c cs ih =>
    obtain ⟨here, later⟩ := not_or.mp (mt List.mem_cons.mpr h)
    simp [silent, Ne.symm here, ih later]

/-- In front of a quote all is silent. -/
theorem silent_quoted (cs : List Char) : silent (cs ++ ['"']) := by
  induction cs with
  | nil => rfl
  | cons c cs ih => simp [silent, ih]

theorem silent_append {as bs : List Char} (ha : silent as) (hb : silent bs)
    (apart : as.getLast? ≠ some 'r' ∨ bs.head? ≠ some '.') : silent (as ++ bs) := by
  induction as with
  | nil => exact hb
  | cons c as ih =>
    obtain ⟨here, later⟩ := Bool.and_eq_true_iff.mp ha
    rw [List.cons_append, silent, Bool.and_eq_true_iff]
    cases as with
    | nil => exact ⟨by rcases apart with apart | apart <;> simp_all, hb⟩
    | cons d as =>
      refine ⟨?_, ih later (by simpa using apart)⟩
      simp only [List.cons_append, List.head?_cons, List.contains_cons, Bool.or_eq_true, List.contains_append] at here ⊢
      exact here.imp_right (Or.imp_right Or.inl)

/-- The text may stand between any two silent ones. -/
def isJoint (text : String) : Bool :=
  silent text.toList && !text.toList.isEmpty && text.toList.head? ≠ some '.' && text.toList.getLast? ≠ some 'r'

namespace Silent

variable {a b mid text : String}

theorem empty : Silent "" := rfl

theorem join (ha : Silent a) (hb : Silent b) (joint : isJoint mid) : Silent (a ++ mid ++ b) := by
  simp only [isJoint, Bool.and_eq_true, decide_eq_true_eq, Bool.not_eq_true', List.isEmpty_eq_false_iff] at joint
  obtain ⟨⟨⟨hmid, nonempty⟩, first⟩, last⟩ := joint
  have front : silent (a.toList ++ mid.toList) := silent_append ha hmid (.inr first)
  have ends : (a.toList ++ mid.toList).getLast? = mid.toList.getLast? := by
    rw [List.getLast?_append, List.getLast?_eq_some_getLast nonempty, Option.some_or]
  rw [Silent, String.toList_append, String.toList_append]
  exact silent_append front hb (.inl (ends ▸ last))

theorem before (h : Silent text) (joint : isJoint mid) : Silent (text ++ mid) := by
  simpa using h.join empty joint

theorem behind (h : Silent text) (joint : isJoint mid) : Silent (mid ++ text) := by
  simpa using empty.join h joint

theorem grouped (h : Silent text) (parenthesized : Bool) : Silent (grouped parenthesized text) := by
  cases parenthesized with
  | false => exact h
  | true => exact (h.behind (by decide)).before (by decide)

theorem intercalate {texts : List String} (h : ∀ text ∈ texts, Silent text) :
    Silent (String.intercalate ", " texts) :=
  intercalate_of_join (fun _ _ ha hb => ha.join hb (by decide)) (fun _ => empty) h

end Silent

theorem name_silent {x : String} (h : IsName x) : Silent x := by
  obtain ⟨c, cs, chars, letter, more⟩ := h
  refine silent_of_noPoint fun member => ?_
  rw [chars] at member
  rcases List.mem_cons.mp member with rfl | later
  · exact absurd letter (by decide)
  · exact absurd (more '.' later) (by decide)

theorem numeral_silent {text : String} (h : IsNumeral text) : Silent text := by
  obtain ⟨c, cs, chars, digit, more⟩ := h
  refine silent_of_noLetter fun member => ?_
  rw [chars] at member
  rcases List.mem_cons.mp member with rfl | later
  · exact absurd digit (by decide)
  · exact absurd (more 'r' later) (by decide)

theorem quote_silent (raw : String) : Silent (Text.quote raw) := by
  rw [Silent, Text.toList_quote, ← List.cons_append]
  exact silent_quoted _

/-! ### Texts of expressions -/

theorem symbol_joint (o : BinOp) : isJoint (" " ++ Spelling.typed.symbol o ++ " ") := by
  cases o <;> decide

theorem expr_silent {e : Node} (h : e.BuiltFrom .inline) : Silent (Java.expr e) := by
  induction h with
  | @number text kind l notString numeral =>
    cases kind with
    | string => exact absurd rfl notString
    | int | float => exact numeral_silent numeral
  | @string raw l _ => exact quote_silent raw
  | identifier l name => exact name_silent name
  | @call x args l name _ ih =>
    have all : ∀ text ∈ Node.renderAll .typed args, Silent text := by
      rw [renderAll_eq_map]
      exact List.forall_mem_map.mpr ih
    have whole := ((name_silent name).join (Silent.intercalate all) (by decide : isJoint "(")).before
      (by decide : isJoint ")")
    simpa [Java.expr, Node.render] using whole
  | @binary left right o l _ _ ihLeft ihRight =>
    have whole := (ihLeft.grouped (Spelling.typed.groups o left false)).join
      (ihRight.grouped (Spelling.typed.groups o right true)) (symbol_joint o)
    simpa [Java.expr, Node.render, String.append_assoc] using whole
  | @unary o operand l _ _ ih =>
    cases o with
    | neg =>
      rw [Java.expr, Renderer.render_eq, Node.render]
      exact (ih.grouped _).behind (by decide)
    | not =>
      rw [Java.expr, Renderer.render_eq, Node.render]
      exact (ih.grouped _).behind (by decide)
    | addressOf => rwa [Java.expr, Renderer.render_eq, Node.render]

theorem charExpr_silent {e : Node} (h : e.BuiltFrom .inline) : Silent (Java.charExpr e) := by
  unfold Java.charExpr Java.charLiteral?
  cases e.stringText? with
  | none => exact expr_silent h
  | some raw =>
    rw [Option.bind_some]
    split
    · rw [Option.getD_some]
      split
      · decide
      · simp [Silent, silent]
    · split
      · next mark => simp [Silent, silent, mark]
      · exact expr_silent h
    · exact expr_silent h

theorem declaration_silent (type : String) {name : String} (h : IsName name) {init : Option Node}
    (built : ∀ e ∈ init, e.BuiltFrom .inline) : Silent (Java.declaration type name init) := by
  have typed : Silent (Java.typeName type) := by
    unfold Java.typeName
    split <;> decide
  unfold Java.declaration
  refine (typed.join (name_silent h) (by decide)).join ?_ (by decide)
  cases init with
  | none =>
    show Silent (Java.defaultValue type)
    unfold Java.defaultValue
    split <;> decide
  | some e =>
    dsimp only
    split
    · exact charExpr_silent (built e rfl)
    · exact expr_silent (built e rfl)

theorem assignment_silent {target : String} (h : IsName target) (o : AssignOp) {value : Option Node}
    (built : ∀ e ∈ value, e.BuiltFrom .inline) : Silent (Java.assignment target o value) := by
  have symbol : Silent o.symbol ∧ (o.isStep → isJoint o.symbol) := by cases o <;> decide
  have written : Silent ((value.map Java.expr).getD "") := by
    cases value with
    | none => exact .empty
    | some e => exact expr_silent (built e rfl)
  unfold Java.assignment
  split
  · next step => exact (name_silent h).before (symbol.2 step)
  · exact ((name_silent h).join symbol.1 (by decide)).join written (by decide)

theorem formatArguments_silent (text : String) {args : List Node} (h : ∀ e ∈ args, e.BuiltFrom .inline) :
    Silent (Java.formatArguments text args) :=
  formatArguments_of_join .empty (fun _ _ ha hb => ha.join hb (by decide)) text (fun e he => charExpr_silent (h e he))
    fun e he => expr_silent (h e he)

theorem printLines_silent {args : List Node} (h : ∀ e ∈ args, e.BuiltFrom .inline) :
    ∀ text ∈ Java.printLines args, Silent text := by
  have printed {text : String} (inside : Silent text) : Silent ("System.out.print(" ++ text ++ ");") :=
    (inside.behind (by decide)).before (by decide)
  unfold Java.printLines
  split
  · exact List.forall_mem_nil _
  · obtain ⟨first, rest⟩ := List.forall_mem_cons.mp h
    split
    · exact List.forall_mem_singleton.mpr (printed (expr_silent first))
    · exact List.forall_mem_singleton.mpr (printed (quote_silent _))
    · next text _ _ =>
      have call := (quote_silent (Java.format text)).behind (by decide : isJoint "System.out.printf(")
      have whole := call.join (formatArguments_silent text rest) (by decide : isJoint ", ")
      exact List.forall_mem_singleton.mpr (whole.before (by decide))

/-! ### Statements -/

/-- One of the lines reads. -/
def reads (ls : List Line) : Bool := ls.any fun l => isRead l.text.toList

section

variable {depth : Nat} {ls ms : List Line} {text : String}

theorem reads_append : reads (ls ++ ms) = (reads ls || reads ms) := List.any_append

theorem reads_cons (quiet : isRead text.toList = false) : reads (⟨depth, text⟩ :: ls) = reads ls := by
  rw [reads, List.any_cons, quiet, Bool.false_or, reads]

theorem reads_single (h : Silent text) : reads [⟨depth, text⟩] = false := reads_cons h.not_isRead

theorem reads_texts {texts : List String} (h : ∀ text ∈ texts, Silent text) :
    reads (atDepth depth texts) = false := by
  rw [reads, atDepth, List.any_map, List.any_eq_false]
  intro text member
  simpa using (h text member).not_isRead

/-- Lines between a header and its closing brace. -/
theorem reads_enclosed (head : isRead text.toList = false) :
    reads (⟨depth, text⟩ :: ls ++ [⟨depth, "\x7d"⟩]) = reads ls := by
  have last : reads [⟨depth, "\x7d"⟩] = false := reads_cons (not_isRead_of_last (by decide))
  rw [List.cons_append, reads_cons head, reads_append, last, Bool.or_false]

end

theorem scanLines_read (args : List Node) : (Java.scanLines args).any fun text => isRead text.toList := by
  unfold Java.scanLines
  split
  · decide
  · next found =>
    obtain ⟨⟨target, conversion⟩, more, targets⟩ := List.exists_cons_of_ne_nil found
    rw [targets, List.map_cons, List.any_cons, isRead_readCall, Bool.true_or]

theorem returnLines_reads (inMain : Bool) (depth : Nat) {value : Option Node} (h : ∀ e ∈ value, e.BuiltFrom .inline) :
    reads (atDepth depth (Java.returnLines inMain value)) = false := by
  unfold Java.returnLines
  split
  · exact (reads_cons (by decide)).trans (reads_single (by decide))
  · cases value with
    | none => exact reads_single (by decide)
    | some e => exact reads_single (((expr_silent (h e rfl)).behind (by decide)).before (by decide))

theorem statements_reads {inMain : Bool} {depth : Nat} {body : List Node}
    (h : ∀ n ∈ body, reads (Java.statement inMain depth false n) = n.scans) :
    reads (Java.statements inMain depth body) = Node.scansAny body := by
  induction body with
  | nil =>
    rw [Java.statements, Node.scansAny]
    rfl
  | cons n body ih =>
    obtain ⟨here, later⟩ := List.forall_mem_cons.mp h
    rw [Java.statements, reads_append, here, ih later, Node.scansAny]

/-- **A statement is written as lines that read exactly if a `scanf` stands in it.** -/
theorem statement_reads (inMain : Bool) {n : Node} (h : n.MadeFrom .inline) :
    (∀ depth isBody, reads (Java.statement inMain depth isBody n) = n.scans) ∧
      ∀ depth, reads (Java.otherwise inMain depth (some n)) = n.scans := by
  have behindElse {m : Node} (notBranch : ∀ test onTrue onFalse l, m ≠ .branch test onTrue onFalse l)
      (same : ∀ depth isBody, reads (Java.statement inMain depth isBody m) = m.scans) :
      (∀ depth isBody, reads (Java.statement inMain depth isBody m) = m.scans) ∧
        ∀ depth, reads (Java.otherwise inMain depth (some m)) = m.scans := by
    refine ⟨same, fun depth => ?_⟩
    rw [Java.otherwise_else notBranch, reads_cons (not_isRead_of_last (by decide)), same]
  induction h with
  | inclusion library l => exact behindElse (by simp) fun depth isBody => by rw [Java.statement, Node.scans]; rfl
  | @function header body l _ _ _ _ =>
    refine behindElse (by simp) fun depth isBody => ?_
    rw [Java.statement, Node.scans]
    split
    · rfl
    · exact reads_cons (not_isRead_of_last (ends_append (by decide) _))
  | declare type l name built =>
    refine behindElse (by simp) fun depth isBody => ?_
    rw [Java.statement, Node.scans]
    exact reads_single ((declaration_silent type name built).before (by decide))
  | assign o l name built =>
    refine behindElse (by simp) fun depth isBody => ?_
    rw [Java.statement, Node.scans]
    exact reads_single ((assignment_silent name o built).before (by decide))
  | @branch test onTrue onFalse l _ _ _ ihTrue ihFalse =>
    have chain (depth : Nat) : reads (Java.otherwise inMain depth onFalse) = Node.scansElse onFalse := by
      cases onFalse with
      | none => rw [Java.otherwise, Node.scansElse]; rfl
      | some n => rw [(ihFalse n rfl).2 depth, Node.scansElse]
    have inside (depth : Nat) :
        reads (Java.statement inMain (depth + 1) true onTrue ++ Java.otherwise inMain depth onFalse) =
          (Node.branch test onTrue onFalse l).scans := by
      rw [reads_append, ihTrue.1, chain, Node.scans]
    constructor
    · intro depth isBody
      rw [Java.statement]
      exact (reads_enclosed (not_isRead_of_last (ends_append (by decide) _))).trans (inside depth)
    · intro depth
      rw [Java.otherwise]
      exact (reads_cons (not_isRead_of_last (ends_append (by decide) _))).trans (inside depth)
  | whileLoop l _ _ ih =>
    refine behindElse (by simp) fun depth isBody => ?_
    rw [Java.statement, Node.scans, reads_enclosed (not_isRead_of_last (ends_append (by decide) _)), ih.1]
  | forLoop l _ _ _ _ _ _ ih =>
    refine behindElse (by simp) fun depth isBody => ?_
    rw [Java.statement, Node.scans, reads_enclosed (not_isRead_of_last (ends_append (by decide) _)), ih.1]
  | ret l built =>
    refine behindElse (by simp) fun depth isBody => ?_
    rw [Java.statement, Node.scans, returnLines_reads inMain depth built]
  | printf l built =>
    refine behindElse (by simp) fun depth isBody => ?_
    rw [Java.statement, Node.scans, reads_texts (printLines_silent built)]
  | @scanf args l _ =>
    refine behindElse (by simp) fun depth isBody => ?_
    rw [Java.statement, Node.scans, reads, atDepth, List.any_map]
    exact scanLines_read args
  | block l _ ih =>
    refine behindElse (by simp) fun depth isBody => ?_
    rw [Java.statement, Node.scans]
    split
    · exact statements_reads fun n hn => (ih n hn).1 depth false
    · have inside := statements_reads fun n hn => (ih n hn).1 (depth + 1) false
      exact (reads_enclosed (not_isRead_of_last (by decide))).trans inside
  | @expression e built =>
    refine behindElse (by rintro _ _ _ _ rfl; cases built) fun depth isBody => ?_
    have other : e.scans = false := by cases built <;> rw [Node.scans]
    rw [statement_expression built, other]
    exact reads_single ((expr_silent built).before (by decide))

theorem body_reads (inMain : Bool) (depth : Nat) {body : List Node} (h : ∀ n ∈ body, n.MadeFrom .inline) :
    reads (Java.statements inMain depth body) = Node.scansAny body :=
  statements_reads fun n hn => (statement_reads inMain (h n hn)).1 depth false

/-! ### The scope of a scanner -/

/-- The row that declares the scanner. -/
def scannerRow : List Char := rowOf ⟨2, "Scanner scanner = new Scanner(System.in);"⟩

/-- Where a row reads, a method `main` is open and its scanner is declared. -/
def InScope (rows : List (List Char)) : Prop :=
  ∀ before row after, rows = before ++ row :: after → isRead row →
    ∃ outside inside, before = outside ++ mainRow :: scannerRow :: inside ∧ endRow ∉ inside

/-- Each method `main` is ended. -/
def Ended (rows : List (List Char)) : Prop := ∀ before after, rows = before ++ mainRow :: after → endRow ∈ after

section

variable {rows more : List (List Char)}

/-- A row of the whole stands in the first part or in the second. -/
theorem row_of_append {before after : List (List Char)} {row : List Char} (h : rows ++ more = before ++ row :: after) :
    (∃ back, rows = before ++ row :: back ∧ after = back ++ more) ∨
      ∃ front, before = rows ++ front ∧ more = front ++ row :: after := by
  rcases List.append_eq_append_iff.mp h with ⟨front, whole, behind⟩ | ⟨back, rfl, behind⟩
  · exact .inr ⟨front, whole, behind⟩
  · cases back with
    | nil => exact .inr ⟨[], by simp, behind.symm⟩
    | cons first back =>
      obtain ⟨rfl, rfl⟩ := List.cons.inj behind
      exact .inl ⟨back, rfl, rfl⟩

theorem Ended.append (h : Ended rows) (h' : Ended more) : Ended (rows ++ more) := by
  intro before after split
  rcases row_of_append split with ⟨back, inside, rfl⟩ | ⟨front, -, inside⟩
  · exact List.mem_append_left more (h before back inside)
  · exact h' front after inside

/-- Behind methods that are ended, rows are in scope if they are alone. -/
theorem inScope_append (ended : Ended rows) : InScope (rows ++ more) ↔ InScope rows ∧ InScope more := by
  constructor
  · intro h
    refine ⟨fun before row after split read => ?_, fun before row after split read => ?_⟩
    · exact h before row (after ++ more) (by rw [split, List.append_assoc, List.cons_append]) read
    · obtain ⟨outside, inside, place, open_⟩ := h (rows ++ before) row after (by rw [split, List.append_assoc]) read
      rcases row_of_append place with ⟨back, opened, rest⟩ | ⟨front, -, opened⟩
      · -- the method would stand in `rows`, where it is ended
        have within : endRow ∈ scannerRow :: inside := rest ▸ List.mem_append_left before (ended outside back opened)
        exact absurd ((List.mem_cons.mp within).resolve_left (by decide)) open_
      · exact ⟨front, inside, opened, open_⟩
  · rintro ⟨first, second⟩ before row after split read
    rcases row_of_append split with ⟨back, here, -⟩ | ⟨front, rfl, here⟩
    · exact first before row back here read
    · obtain ⟨outside, inside, rfl, open_⟩ := second front row after here read
      exact ⟨rows ++ outside, inside, by rw [List.append_assoc], open_⟩

/-- A row that reads stands behind the opening of some `main`. -/
theorem InScope.opened (h : InScope rows) {before : List (List Char)} {row : List Char} {count : Nat}
    (front : rows.take count = before ++ [row]) (read : isRead row) : mainRow ∈ before := by
  have split : rows = before ++ row :: rows.drop count := by
    rw [← List.singleton_append, ← List.append_assoc, ← front, List.take_append_drop]
  obtain ⟨outside, inside, rfl, -⟩ := h before row _ split read
  simp

end

/-- Each `main` among the rows is ended, and they are in scope exactly if `clear` holds. -/
def Scoped (rows : List (List Char)) (clear : Prop) : Prop := Ended rows ∧ (InScope rows ↔ clear)

namespace Scoped

variable {rows more : List (List Char)} {p q : Prop}

theorem append (h : Scoped rows p) (h' : Scoped more q) : Scoped (rows ++ more) (p ∧ q) :=
  ⟨h.1.append h'.1, (inScope_append h.1).trans (and_congr h.2 h'.2)⟩

theorem congr (h : Scoped rows p) (same : p ↔ q) : Scoped rows q := ⟨h.1, h.2.trans same⟩

/-- Where there is no `main`, no row may read. -/
theorem ofOther (other : mainRow ∉ rows) : Scoped rows (rows.any isRead = false) := by
  refine ⟨fun before after split => absurd (by simp [split]) other, ?_, ?_⟩
  · refine fun h => List.any_eq_false.mpr fun row member read => ?_
    obtain ⟨before, after, split⟩ := List.append_of_mem member
    obtain ⟨outside, inside, rfl, -⟩ := h before row after split read
    exact other (by simp [split])
  · intro quiet before row after split read
    have here := List.any_eq_false.mp quiet row (by simp [split])
    exact absurd read here

theorem nil : Scoped [] True := (ofOther List.not_mem_nil).congr (by simp)

theorem single {row : List Char} (other : mainRow ≠ row) (quiet : isRead row = false) : Scoped [row] True :=
  (ofOther (by simpa using other)).congr (by simp [quiet])

/-- In `main` every row is in scope. -/
theorem ofMain {inside : List (List Char)} (inner : endRow ∉ inside) :
    Scoped (mainRow :: scannerRow :: inside ++ [endRow]) True := by
  refine ⟨fun before after split => ?_, iff_true_intro fun before row after split read => ?_⟩
  · have last : (before ++ mainRow :: after).getLast? = some endRow := by
      rw [← split]
      exact List.getLast?_concat
    rw [List.getLast?_append, List.getLast?_cons, Option.some_or, Option.some.injEq] at last
    cases found : after.getLast? with
    | none =>
      rw [found] at last
      exact absurd last (by decide)
    | some row =>
      rw [found] at last
      exact List.mem_of_getLast? (last ▸ found)
  · rcases before with _ | ⟨first, _ | ⟨second, part⟩⟩
    · obtain ⟨rfl, -⟩ := List.cons.inj split
      exact absurd (last_of_isRead read) (by decide)
    · obtain ⟨rfl, -⟩ := List.cons.inj (List.cons.inj split).2
      exact absurd read (by decide)
    · obtain ⟨rfl, tail⟩ := List.cons.inj split
      obtain ⟨rfl, rest⟩ := List.cons.inj tail
      refine ⟨[], part, rfl, fun member => ?_⟩
      rcases row_of_append rest with ⟨back, rfl, -⟩ | ⟨front, -, last⟩
      · exact inner (List.mem_append_left _ member)
      · obtain rfl : row = endRow := List.mem_singleton.mp (last ▸ by simp : row ∈ [endRow])
        exact absurd (last_of_isRead read) (by decide)

end Scoped

/-! ### Members -/

/-- A `scanf` stands in the member. -/
def memberScans : Java.Member → Bool
  | .field .. => false
  | .method _ body | .initializer body => Node.scansAny body

theorem rows_read (ls : List Line) : (ls.map rowOf).any isRead = reads ls := by
  rw [List.any_map, reads]
  exact congrArg ls.any (funext isRead_rowOf)

section

variable {k k' : Nat} {ls : List Line}

/-- Rows further in neither open nor end a block of the class. -/
theorem deep_ne (steps : Steps 2 k ls k') {row : List Char} (flat : indent row = 4) : row ∉ ls.map rowOf := by
  intro member
  obtain ⟨l, hl, rfl⟩ := List.mem_map.mp member
  obtain ⟨_, _, here⟩ := steps.edges l hl
  have deep := steps.low_le l hl
  rw [here.indent] at flat
  omega

/-- A block of the class that is no method `main`. -/
theorem Scoped.block {head : String} (other : mainRow ≠ rowOf ⟨1, head⟩) (quiet : isRead head.toList = false)
    (steps : Steps 2 k ls k') :
    Scoped ((Line.mk 1 head :: ls ++ [Line.mk 1 "\x7d"]).map rowOf) (reads ls = false) := by
  refine (Scoped.ofOther ?_).congr ?_
  · rw [List.cons_append, List.map_cons, List.map_append]
    refine List.not_mem_cons_of_ne_of_not_mem other fun member => ?_
    rcases List.mem_append.mp member with inside | last
    · exact deep_ne steps (by decide) inside
    · exact absurd (List.mem_singleton.mp last) (by decide)
  · rw [rows_read, reads_enclosed quiet]

end

theorem method_scoped {header : Header} {body : List Node} (h : MemberFrom .inline (.method header body))
    (h' : MemberFrom .lexed (.method header body)) :
    Scoped ((Java.method header body).map rowOf) (header.name = "main" ∨ Node.scansAny body = false) := by
  unfold Java.method
  by_cases main : header.name = "main"
  · have kept {n : Node} (hn : n ∈ Java.withoutFinalReturn body) := withoutFinalReturn_subset body hn
    have steps := (body_steps true 2 fun n hn => h.2.2 n (kept hn)).append (.plain closeEdges)
    have whole := Scoped.ofMain (deep_ne steps (by decide))
    rw [if_pos main]
    refine Scoped.congr ?_ (iff_of_true trivial (.inl main))
    simpa [mainRow, scannerRow, endRow] using whole
  · have other := methodHead_ne h'.1 main
      (String.intercalate ", " (header.params.map fun p => Java.typeName p.type ++ " " ++ p.name))
    have block := Scoped.block other.symm (not_isRead_of_last (ends_append (by decide) _)) (body_steps false 2 h.2.2)
    rw [if_neg main]
    exact block.congr (by simp [main, body_reads false 2 h.2.2])

/-- The rows of a member are in scope if it is a method `main` or nothing is read in it. -/
theorem member_scoped {m : Java.Member} (h : MemberFrom .inline m) (h' : MemberFrom .lexed m) :
    Scoped (m.lines.map rowOf) (isMainMember m = false → memberScans m = false) := by
  cases m with
  | field type name init =>
    have silent : Silent ("static " ++ Java.declaration type name init ++ ";") :=
      ((declaration_silent type h.1 h.2).behind (by decide)).before (by decide)
    have edges : Edges false false ("static " ++ Java.declaration type name init ++ ";") :=
      .enclose ⟨by decide, rfl⟩ (declaration_oneRow type h.1 h.2) ⟨by decide, rfl⟩
    have other : mainRow ≠ rowOf ⟨1, "static " ++ Java.declaration type name init ++ ";"⟩ := by
      intro same
      have shut := edges.opens 1
      rw [← same] at shut
      exact absurd shut (by decide)
    refine (Scoped.single other ?_).congr (iff_of_true trivial fun _ => rfl)
    rw [isRead_rowOf, silent.not_isRead]
  | method header body =>
    refine (method_scoped h h').congr ?_
    simp [isMainMember, memberScans, or_iff_not_imp_left]
  | initializer body =>
    refine (Scoped.block (by decide) (not_isRead_of_last (by decide)) (body_steps false 2 h)).congr ?_
    simp [isMainMember, memberScans, body_reads false 2 h]

theorem memberItems_scoped {ms : List Java.Member} (h : ∀ m ∈ ms, MemberFrom .inline m)
    (h' : ∀ m ∈ ms, MemberFrom .lexed m) :
    Scoped (itemRows (Java.memberItems ms)) (∀ m ∈ ms, isMainMember m = false → memberScans m = false) := by
  have member {m : Java.Member} (h : MemberFrom .inline m) (h' : MemberFrom .lexed m) :
      Scoped (itemRows (m.lines.map .line)) (isMainMember m = false → memberScans m = false) := by
    rw [(member_steps h).itemRows_lines]
    exact member_scoped h h'
  fun_induction Java.memberItems ms with
  | case1 => exact Scoped.nil.congr (by simp)
  | case2 m =>
    have here := member (List.forall_mem_singleton.mp h) (List.forall_mem_singleton.mp h')
    exact here.congr (by simp)
  | case3 m next more ih =>
    obtain ⟨here, later⟩ := List.forall_mem_cons.mp h
    obtain ⟨here', later'⟩ := List.forall_mem_cons.mp h'
    have gap : Scoped (itemRows (if m.isField && next.isField then [] else [.gap 1])) True := by
      split
      · exact .nil
      · exact .single (by decide) (by decide)
    have whole := ((member here here').append gap).append (ih later later')
    rw [itemRows_append, itemRows_append]
    exact whole.congr (by simp)

/-- Outside of `main` the members read as the items of the program do. -/
theorem members_scan (body : List Node) :
    (∀ m ∈ Java.members body, isMainMember m = false → memberScans m = false) ↔
      ∀ n ∈ body, Node.isMain n = false → n.scansOnTop = false := by
  have loose (n : Node) (ms : List Java.Member) :
      (∀ m ∈ Java.addLoose n ms, isMainMember m = false → memberScans m = false) ↔
        n.scans = false ∧ ∀ m ∈ ms, isMainMember m = false → memberScans m = false := by
    unfold Java.addLoose
    split <;> simp [isMainMember, memberScans, Node.scansAny, and_assoc]
  fun_induction Java.members body with
  | case1 => simp
  | case2 _ _ _ ih =>
    rw [List.forall_mem_cons]
    exact ih.trans (and_iff_right fun _ => by simp [Node.scansOnTop, Node.scans]).symm
  | case3 _ _ _ _ prototype ih =>
    rw [List.forall_mem_cons]
    exact ih.trans (and_iff_right fun _ => by simp [Node.scansOnTop, prototype]).symm
  | case4 header _ _ _ prototype ih =>
    rw [List.forall_mem_cons, List.forall_mem_cons]
    exact and_congr (by simp [Node.isMain, isMainMember, memberScans, Node.scansOnTop, prototype]) ih
  | case5 _ _ _ _ _ ih =>
    rw [List.forall_mem_cons, List.forall_mem_cons]
    exact and_congr (iff_of_true (fun _ => rfl) fun _ => by simp [Node.scansOnTop, Node.scans]) ih
  | case6 n ns _ notFunction _ ih =>
    have other : Node.isMain n = false ∧ n.scansOnTop = n.scans := by
      cases n with
      | function header body l => exact absurd rfl (notFunction header body l)
      | _ => exact ⟨rfl, rfl⟩
    rw [List.forall_mem_cons, other.1, other.2]
    exact (loose n _).trans (and_congr (by simp) ih)

/-! ### Programs -/

theorem headerItems_scoped (body : List Node) : Scoped (itemRows (headerItems body)) True := by
  unfold headerItems
  split
  · have import_ : Scoped ["import java.util.Scanner;".toList] True := .single (by decide) (by decide)
    have blank : Scoped [[]] True := .single (by decide) (by decide)
    exact (import_.append blank).congr and_self_iff
  · exact .nil

/-- **The scanner is in scope exactly if nothing is read outside of `main`.** If no string of
the source text holds a newline, then each row of the program in the typed language that
reads stands in a method `main` and behind the declaration of its scanner, if and only if
no `scanf` stands at the top level or in another function of the source text. -/
theorem transpile_scanner_scope (source : String)
    (oneRow : ∀ t ∈ (tokenize source).tokens, t.kind = .string → '\n' ∉ t.spelling.toList) :
    InScope ((Text.lines (transpile source .java)).map String.toList) ↔
      ∀ n ∈ (parseTokens (tokenize source).tokens).tree.items, Node.isMain n = false → n.scansOnTop = false := by
  obtain ⟨body, tree, made⟩ := parseTokens_madeFrom (fun _ => trivial) (admits_inline oneRow)
  obtain ⟨body', tree', lexed⟩ := @parseTokens_madeFrom .lexed (fun _ => trivial) _ fun t => @lexed_admits source t
  obtain rfl : body = body' := Node.program.inj (tree.symm.trans tree')
  have output : transpile source .java = Java.program body := by
    show emit .java (parseTokens (tokenize source).tokens).tree = _
    rw [tree]
    rfl
  have members := memberItems_scoped (members_from made) (members_from lexed)
  have opening : Scoped [classRow] True := .single (by decide) (not_isRead_of_last (by decide))
  have closing : Scoped [closingRow] True := .single (by decide) (not_isRead_of_last (by decide))
  have whole := ((headerItems_scoped body).append (opening.append members)).append closing
  rw [output, program_rows made, tree, Node.items, ← members_scan]
  simpa using whole.2

/-- Something is read in a branch inside of a loop of `main`, and another function only has the
text of a row that reads. -/
def readingSource : String :=
  "void ask() \x7b printf(\"scanner.next();\"); \x7d " ++
    "int main() \x7b int n; while (1) \x7b if (n) scanf(\"%d\", &n); \x7d return 0; \x7d"

theorem transpile_scanner_scope_reading :
    (∀ t ∈ (tokenize readingSource).tokens, t.kind = .string → '\n' ∉ t.spelling.toList) ∧
      InScope ((Text.lines (transpile readingSource .java)).map String.toList) := by
  have oneRow : ∀ t ∈ (tokenize readingSource).tokens, t.kind = .string → '\n' ∉ t.spelling.toList := by
    decide +kernel
  have owned : ∀ n ∈ (parseTokens (tokenize readingSource).tokens).tree.items,
      Node.isMain n = false → n.scansOnTop = false := by decide +kernel
  exact ⟨oneRow, (transpile_scanner_scope readingSource oneRow).mpr owned⟩

/-- Another function than `main` reads. -/
def straySource : String :=
  "int n; void ask() \x7b scanf(\"%d\", &n); \x7d int main() \x7b ask(); return 0; \x7d"

/-- The function `ask` reads from a scanner that is declared in `main`, further down. -/
theorem transpile_scanner_stray : ¬InScope ((Text.lines (transpile straySource .java)).map String.toList) := by
  have front : ((Text.lines (transpile straySource .java)).map String.toList).take 7 =
      ["import java.util.Scanner;", "", "public class Main \x7b", "    static int n = 0;", "",
        "    public static void ask() \x7b"].map String.toList ++ ["        n = scanner.nextInt();".toList] := by
    decide +kernel
  exact fun h => absurd (h.opened front (by decide)) (by decide)

end Braces
end MiniC
