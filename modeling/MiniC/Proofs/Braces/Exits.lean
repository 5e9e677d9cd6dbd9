/-
# The scanner is closed on every way out

The method `main` opens a scanner and has to close it once, wherever it is left. A
`return` of the source is written as two lines there, the closing of the scanner and the
bare return, and at the end of the method the scanner is closed once more. Other methods
and the initializers never close it.

A statement is written as lines of which only these two need attention (`Exits`). No
other line is one of them by chance: a name is no keyword, and the dot in the closing
line stands behind no word that an expression starts with (`expr_quiet`). The text of
the class is read back into its blocks (`blocks`), from a row that opens at the first
level up to the next one that closes there, and these are the methods and initializers
of the program (`Reads.blocks_eq`).

Key definitions: `Braces.Exits`, `Braces.Follows`, `Braces.blocks`, `Braces.Reads`, `Braces.Leaves`,
`Braces.ClosesScanner`.
Key theorems: `Braces.statement_exits`, `Braces.Exits.chain`, `Braces.Reads.blocks_eq`,
`Braces.member_accounted`, `Braces.transpile_closes_scanner`.
-/
import MiniC.Proofs.Braces.Program
import MiniC.Proofs.Words

namespace MiniC
namespace Braces

open Lexeme (ident)
open Row (indent)

/-! ### Lines that leave -/

/-- The line that leaves a function without a value. -/
def bareReturn : String := "return;"

/-- The text neither leaves nor closes. -/
def Quiet (text : String) : Prop := text ≠ bareReturn ∧ text ≠ Java.closeScanner

/-- Among the lines `return;` stands in `main` behind the closing of the scanner at its
level, which stands nowhere else, and alone in other functions. -/
inductive Exits (inMain : Bool) : List Line → Prop
  | nil : Exits inMain []
  | quiet {l : Line} {rest : List Line} : Quiet l.text → Exits inMain rest → Exits inMain (l :: rest)
  | closed {depth : Nat} {rest : List Line} : inMain = true → Exits inMain rest →
    Exits inMain (⟨depth, Java.closeScanner⟩ :: ⟨depth, bareReturn⟩ :: rest)
  | bare {depth : Nat} {rest : List Line} : inMain = false → Exits inMain rest →
    Exits inMain (⟨depth, bareReturn⟩ :: rest)

namespace Exits

variable {inMain : Bool} {ls ms : List Line}

theorem append (h : Exits inMain ls) (h' : Exits inMain ms) : Exits inMain (ls ++ ms) := by
  induction h with
  | nil => exact h'
  | quiet text _ ih => exact .quiet text ih
  | closed main _ ih => exact .closed main ih
  | bare other _ ih => exact .bare other ih

theorem single {depth : Nat} {text : String} (h : Quiet text) : Exits inMain [⟨depth, text⟩] := .quiet h .nil

theorem texts {depth : Nat} {texts : List String} (h : ∀ text ∈ texts, Quiet text) :
    Exits inMain (atDepth depth texts) := by
  induction texts with
  | nil => exact .nil
  | cons text texts ih =>
    obtain ⟨here, later⟩ := List.forall_mem_cons.mp h
    exact .quiet here (ih later)

/-- Lines between a header and its closing brace. -/
theorem enclosed {depth : Nat} {head : String} (h : Quiet head) (inside : Exits inMain ls) :
    Exits inMain (⟨depth, head⟩ :: ls ++ [⟨depth, "\x7d"⟩]) :=
  .quiet h (inside.append (single ⟨by decide, by decide⟩))

end Exits

/-! ### Quiet texts -/

/-- A character that neither line holds. -/
theorem quiet_of_mem {text : String} {c : Char} (h : c ∈ text.toList)
    (odd : c ∉ bareReturn.toList ∧ c ∉ Java.closeScanner.toList) : Quiet text := by
  refine ⟨?_, ?_⟩ <;> rintro rfl
  · exact odd.1 h
  · exact odd.2 h

theorem quiet_of_space {text : String} (h : ' ' ∈ text.toList) : Quiet text := quiet_of_mem h (by decide)

theorem name_wordChars {x : String} (h : LexesAs x (ident x)) : ∀ c ∈ x.toList, Piece.isWordChar c := by
  obtain ⟨c, cs, chars, letter, more, -⟩ := h.name_chars
  rw [chars]
  refine List.forall_mem_cons.mpr ⟨?_, more⟩
  rw [Piece.isWordChar_eq, letter, Bool.true_or]

/-- A name is no keyword. -/
theorem quiet_name {x : String} (h : LexesAs x (ident x)) : Quiet (x ++ ";") := by
  constructor
  · intro same
    obtain rfl : x = "return" := (String.append_left_inj ";").mp same
    obtain ⟨_, _, -, -, -, word⟩ := h.name_chars
    exact absurd word (by decide)
  · intro same
    have dot : '.' ∈ (x ++ ";").toList := same ▸ (by decide : '.' ∈ Java.closeScanner.toList)
    rw [String.toList_append, List.mem_append] at dot
    rcases dot with inside | last
    · exact absurd (name_wordChars h '.' inside) (by decide)
    · exact absurd last (by decide)

/-- Behind the name of a call stands no dot. -/
theorem quiet_call {x text : String} {rest : List Char} (h : LexesAs x (ident x))
    (chars : text.toList = x.toList ++ '(' :: rest) : Quiet text := by
  have behind : text.toList.dropWhile Piece.isWordChar = '(' :: rest := by
    rw [chars, List.dropWhile_append_of_pos (name_wordChars h)]
    rfl
  constructor <;> intro same <;> rw [same] at behind
  · have nothing : bareReturn.toList.dropWhile Piece.isWordChar = [';'] := by decide
    simp [nothing] at behind
  · have method : Java.closeScanner.toList.dropWhile Piece.isWordChar = ".close();".toList := by decide
    simp [method] at behind

theorem expr_quiet {e : Node} (h : e.BuiltFrom .lexed) : Quiet (Java.expr e ++ ";") := by
  induction h with
  | @number text kind l notString lexes =>
    obtain ⟨c, cs, chars, digit, -⟩ := LexesAs.number_chars lexes
    have first : c ∈ (Java.expr (.literal text kind l) ++ ";").toList := by
      cases kind with
      | string => exact absurd rfl notString
      | int | float => simp [Java.expr, Node.render, chars]
    have noDigit : (bareReturn.toList ++ Java.closeScanner.toList).all fun c => !c.isDigit := by decide
    have odd : c ∉ bareReturn.toList ++ Java.closeScanner.toList := by
      intro member
      simpa [digit] using List.all_eq_true.mp noDigit c member
    exact quiet_of_mem first (by simpa using odd)
  | @string raw l _ =>
    refine @quiet_of_mem _ '"' ?_ (by decide)
    simp [Java.expr, Node.render, quote_toList, Spelling.delimiter]
  | identifier l name => exact quiet_name name
  | @call x args l name _ _ =>
    have chars : (Java.expr (.call x args l) ++ ";").toList =
        x.toList ++ '(' :: ((String.intercalate ", " (Node.renderAll .typed args)).toList ++ [')', ';']) := by
      simp [Java.expr, Node.render]
    exact quiet_call name chars
  | @binary left right o l _ _ _ _ =>
    refine quiet_of_space ?_
    simp [Java.expr, Node.render]
  | @unary o operand l _ _ ih =>
    cases o with
    | neg => exact @quiet_of_mem _ '-' (by simp [Java.expr, Node.render]) (by decide)
    | not => exact @quiet_of_mem _ '!' (by simp [Java.expr, Node.render, Spelling.notMark]) (by decide)
    | addressOf => rwa [Java.expr, Renderer.render_eq, Node.render]

theorem assignment_quiet (target : String) (o : AssignOp) (value : Option Node) :
    Quiet (Java.assignment target o value ++ ";") := by
  unfold Java.assignment
  by_cases step : o.isStep
  · rw [if_pos step]
    rcases (isStep_iff o).mp step with rfl | rfl
    · exact @quiet_of_mem _ '+' (by simp [AssignOp.symbol]) (by decide)
    · exact @quiet_of_mem _ '-' (by simp [AssignOp.symbol]) (by decide)
  · rw [if_neg step]
    exact quiet_of_space (by simp)

theorem printLines_quiet (args : List Node) : ∀ text ∈ Java.printLines args, Quiet text := by
  have printed {call rest : String} (h : 'S' ∈ call.toList) : Quiet (call ++ rest) :=
    @quiet_of_mem _ 'S' (by simp [h]) (by decide)
  unfold Java.printLines
  split
  · exact List.forall_mem_nil _
  · split
    all_goals
      refine List.forall_mem_singleton.mpr ?_
      simp only [String.append_assoc]
      exact printed (by decide)

theorem scanLines_quiet (args : List Node) : ∀ text ∈ Java.scanLines args, Quiet text := by
  unfold Java.scanLines
  split
  · exact List.forall_mem_singleton.mpr ⟨by decide, by decide⟩
  · intro text member
    obtain ⟨p, -, rfl⟩ := List.mem_map.mp member
    exact quiet_of_space (by simp)

theorem returnLines_exits (inMain : Bool) (depth : Nat) (value : Option Node) :
    Exits inMain (atDepth depth (Java.returnLines inMain value)) := by
  unfold Java.returnLines
  by_cases main : inMain
  · rw [if_pos main]
    exact .closed main .nil
  · rw [if_neg main]
    cases value with
    | none => exact .bare (Bool.eq_false_iff.mpr main) .nil
    | some e => exact .single (quiet_of_space (by simp))

/-! ### Statements -/

theorem statements_exits {inMain : Bool} {depth : Nat} {body : List Node}
    (h : ∀ n ∈ body, Exits inMain (Java.statement inMain depth false n)) :
    Exits inMain (Java.statements inMain depth body) := by
  induction body with
  | nil =>
    rw [Java.statements]
    exact .nil
  | cons n body ih =>
    obtain ⟨here, later⟩ := List.forall_mem_cons.mp h
    rw [Java.statements]
    exact here.append (ih later)

/-- **How the lines of a statement leave**, at any depth of blocks, branches and loops. -/
theorem statement_exits (inMain : Bool) {n : Node} (h : n.MadeFrom .lexed) :
    (∀ depth isBody, Exits inMain (Java.statement inMain depth isBody n)) ∧
      ∀ depth, Exits inMain (Java.otherwise inMain depth (some n)) := by
  have behindElse {m : Node} (notBranch : ∀ test onTrue onFalse l, m ≠ .branch test onTrue onFalse l)
      (exits : ∀ depth isBody, Exits inMain (Java.statement inMain depth isBody m)) :
      (∀ depth isBody, Exits inMain (Java.statement inMain depth isBody m)) ∧
        ∀ depth, Exits inMain (Java.otherwise inMain depth (some m)) := by
    refine ⟨exits, fun depth => ?_⟩
    rw [Java.otherwise_else notBranch]
    exact .quiet (quiet_of_space (by simp)) (exits (depth + 1) true)
  induction h with
  | inclusion library l => exact behindElse (by simp) fun depth isBody => by rw [Java.statement]; exact .nil
  | @function header body l _ _ _ _ =>
    refine behindElse (by simp) fun depth isBody => ?_
    rw [Java.statement]
    split
    · exact .nil
    · exact .single (quiet_of_space (by simp))
  | declare type l _ _ =>
    refine behindElse (by simp) fun depth isBody => ?_
    rw [Java.statement]
    exact .single (quiet_of_space (by simp [Java.declaration]))
  | assign o l _ _ =>
    refine behindElse (by simp) fun depth isBody => ?_
    rw [Java.statement]
    exact .single (assignment_quiet _ o _)
  | @branch test onTrue onFalse l _ _ _ ihTrue ihFalse =>
    have chain (depth : Nat) : Exits inMain (Java.otherwise inMain depth onFalse) := by
      cases onFalse with
      | none => rw [Java.otherwise]; exact .nil
      | some n => exact (ihFalse n rfl).2 depth
    have inside (depth : Nat) :
        Exits inMain (Java.statement inMain (depth + 1) true onTrue ++ Java.otherwise inMain depth onFalse) :=
      (ihTrue.1 (depth + 1) true).append (chain depth)
    constructor
    · intro depth isBody
      rw [Java.statement]
      exact .enclosed (quiet_of_space (by simp)) (inside depth)
    · intro depth
      rw [Java.otherwise]
      exact .quiet (quiet_of_space (by simp)) (inside depth)
  | whileLoop l _ _ ih =>
    refine behindElse (by simp) fun depth isBody => ?_
    rw [Java.statement]
    exact .enclosed (quiet_of_space (by simp)) (ih.1 (depth + 1) true)
  | forLoop l _ _ _ _ _ _ ih =>
    refine behindElse (by simp) fun depth isBody => ?_
    rw [Java.statement]
    exact .enclosed (quiet_of_space (by simp)) (ih.1 (depth + 1) true)
  | ret l _ =>
    refine behindElse (by simp) fun depth isBody => ?_
    rw [Java.statement]
    exact returnLines_exits inMain depth _
  | printf l _ =>
    refine behindElse (by simp) fun depth isBody => ?_
    rw [Java.statement]
    exact .texts (printLines_quiet _)
  | scanf l _ =>
    refine behindElse (by simp) fun depth isBody => ?_
    rw [Java.statement]
    exact .texts (scanLines_quiet _)
  | block l _ ih =>
    refine behindElse (by simp) fun depth isBody => ?_
    rw [Java.statement]
    split
    · exact statements_exits fun n hn => (ih n hn).1 depth false
    · exact .enclosed ⟨by decide, by decide⟩ (statements_exits fun n hn => (ih n hn).1 (depth + 1) false)
  | expression built =>
    refine behindElse (by rintro _ _ _ _ rfl; cases built) fun depth isBody => ?_
    rw [statement_expression built]
    exact .single (expr_quiet built)

theorem body_exits (inMain : Bool) (depth : Nat) {body : List Node} (h : ∀ n ∈ body, n.MadeFrom .lexed) :
    Exits inMain (Java.statements inMain depth body) :=
  statements_exits fun n hn => (statement_exits inMain (h n hn)).1 depth false

/-! ### Rows that leave -/

/-- The row holds this text behind its indentation. -/
def shows (text : String) (row : List Char) : Bool := Row.content row = text.toList

def isReturn (row : List Char) : Bool := shows bareReturn row

def isClosing (row : List Char) : Bool := shows Java.closeScanner row

/-- The row that opens `main`, and the one that ends a block of the class. -/
def mainRow : List Char := rowOf ⟨1, "public static void main(String[] args) \x7b"⟩

def endRow : List Char := rowOf ⟨1, "\x7d"⟩

/-- What may stand side by side in `main`: a return stands right behind a closing of the
scanner at its own level, and behind a closing stands such a return or the end of the
method. -/
def Follows (row next : List Char) : Prop :=
  (isReturn next → isClosing row ∧ indent row = indent next) ∧
    (isClosing row → isReturn next ∧ indent row = indent next ∨ next = endRow)

section

variable {closing opening : Bool} {depth : Nat} {text : String}

theorem Edges.shows_iff (h : Edges closing opening text) {text' : String} :
    shows text' (rowOf ⟨depth, text⟩) ↔ text = text' := by
  rw [shows, (rowOf_spec depth text h.visible).content, decide_eq_true_iff, String.toList_inj]

theorem Edges.not_shows (h : Edges closing opening text) {text' : String} (ne : text ≠ text') :
    shows text' (rowOf ⟨depth, text⟩) = false :=
  Bool.eq_false_iff.mpr fun same => ne (h.shows_iff.mp same)

theorem Edges.indent (h : Edges closing opening text) : indent (rowOf ⟨depth, text⟩) = 4 * depth :=
  (rowOf_spec depth text h.visible).indent

end

theorem closeEdges : Edges false false Java.closeScanner := ⟨by decide, rfl, rfl⟩

theorem returnEdges : Edges false false bareReturn := ⟨by decide, rfl, rfl⟩

theorem closeRow_closes (depth : Nat) : isClosing (rowOf ⟨depth, Java.closeScanner⟩) := closeEdges.shows_iff.mpr rfl

theorem returnRow_quiet (depth : Nat) : isClosing (rowOf ⟨depth, bareReturn⟩) = false :=
  returnEdges.not_shows (by decide)

/-- Lines that leave `main` as they should, between a row that does not close the
scanner and the end of the method. -/
theorem Exits.chain {ls : List Line} (h : Exits true ls)
    (edges : ∀ l ∈ ls, ∃ closing opening, Edges closing opening l.text) {row : List Char}
    (quiet : isClosing row = false) :
    List.IsChain Follows (row :: ls.map rowOf ++ [rowOf ⟨2, Java.closeScanner⟩, endRow]) := by
  -- each row is looked at together with the one before it, which does not close
  have behind {next : List Char} (h : isReturn next = false) {row : List Char} (quiet : isClosing row = false) :
      Follows row next := ⟨by simp [h], by simp [quiet]⟩
  have closeRow (depth : Nat) : isReturn (rowOf ⟨depth, Java.closeScanner⟩) = false := closeEdges.not_shows (by decide)
  induction h generalizing row with
  | nil => exact .cons_cons (behind (closeRow 2) quiet) (.cons_cons ⟨by decide, fun _ => .inr rfl⟩ (.singleton _))
  | @quiet l rest text _ ih =>
    obtain ⟨⟨_, _, here⟩, later⟩ := List.forall_mem_cons.mp edges
    exact .cons_cons (behind (here.not_shows text.1) quiet) (ih later (here.not_shows text.2))
  | @closed depth rest _ _ ih =>
    have later := (List.forall_mem_cons.mp (List.forall_mem_cons.mp edges).2).2
    have returns : isReturn (rowOf ⟨depth, bareReturn⟩) := returnEdges.shows_iff.mpr rfl
    have level : indent (rowOf ⟨depth, Java.closeScanner⟩) = indent (rowOf ⟨depth, bareReturn⟩) := by
      rw [closeEdges.indent, returnEdges.indent]
    have pair : Follows (rowOf ⟨depth, Java.closeScanner⟩) (rowOf ⟨depth, bareReturn⟩) :=
      ⟨fun _ => ⟨closeRow_closes depth, level⟩, fun _ => .inl ⟨returns, level⟩⟩
    exact .cons_cons (behind (closeRow depth) quiet) (.cons_cons pair (ih later (returnRow_quiet depth)))
  | bare other => cases other

/-- Outside of `main` nothing closes the scanner. -/
theorem Exits.noClosing {ls : List Line} (h : Exits false ls)
    (edges : ∀ l ∈ ls, ∃ closing opening, Edges closing opening l.text) :
    ∀ row ∈ ls.map rowOf, isClosing row = false := by
  induction h with
  | nil => exact List.forall_mem_nil _
  | quiet text _ ih =>
    obtain ⟨⟨_, _, here⟩, later⟩ := List.forall_mem_cons.mp edges
    exact List.forall_mem_cons.mpr ⟨here.not_shows text.2, ih later⟩
  | closed main => cases main
  | bare _ _ ih => exact List.forall_mem_cons.mpr ⟨returnRow_quiet _, ih (List.forall_mem_cons.mp edges).2⟩

/-! ### Blocks of the class -/

/-- The row opens a block of the class. -/
def heads (row : List Char) : Bool := indent row = 4 && opens row

/-- A method or initializer: the row that opens it, and the rows up to the one that ends it. -/
structure ClassBlock where
  head : List Char
  inside : List (List Char)

/-- The blocks of a class, as they are found from row to row. -/
def blocks : List (List Char) → List ClassBlock
  | [] => []
  | row :: rows =>
    if heads row then ⟨row, rows.takeWhile (· ≠ endRow)⟩ :: blocks (rows.dropWhile (· ≠ endRow))
    else blocks rows
termination_by rows => rows.length
decreasing_by
  · have shorter := (List.dropWhile_sublist (· ≠ endRow) (l := rows)).length_le
    simp only [List.length_cons]
    omega
  · simp

/-- The rows are read as these blocks, and the scanner is closed inside of them only. -/
inductive Reads : List (List Char) → List ClassBlock → Prop
  | nil : Reads [] []
  | row {row : List Char} {rows : List (List Char)} {bs : List ClassBlock} : heads row = false →
    isClosing row = false → Reads rows bs → Reads (row :: rows) bs
  | block {head : List Char} {inside rows : List (List Char)} {bs : List ClassBlock} :
    heads head → isClosing head = false → (∀ row ∈ inside, 8 ≤ indent row) → Reads rows bs →
    Reads (head :: inside ++ endRow :: rows) (⟨head, inside⟩ :: bs)

namespace Reads

variable {rows more : List (List Char)} {bs cs : List ClassBlock}

theorem append (h : Reads rows bs) (h' : Reads more cs) : Reads (rows ++ more) (bs ++ cs) := by
  induction h with
  | nil => exact h'
  | row other quiet _ ih => exact .row other quiet ih
  | block opens quiet inner _ ih =>
    rw [List.append_assoc, List.cons_append]
    exact .block opens quiet inner ih

theorem blocks_eq (h : Reads rows bs) : blocks rows = bs := by
  induction h with
  | nil => rw [blocks]
  | row other _ _ ih => rw [blocks, if_neg (by simp [other]), ih]
  | @block head inside rows bs opens _ inner _ ih =>
    -- what stands further in does not end the block
    have before : ∀ row ∈ inside, decide (row ≠ endRow) = true := by
      intro row member
      refine decide_eq_true fun same => ?_
      have deep := inner row member
      rw [same] at deep
      exact absurd deep (by decide)
    have last : blocks (endRow :: rows) = blocks rows := by rw [blocks, if_neg (by decide)]
    rw [List.cons_append, blocks, if_pos opens, List.takeWhile_append_of_pos before,
      List.dropWhile_append_of_pos before, List.takeWhile_cons_of_neg (by simp), List.dropWhile_cons_of_neg (by simp),
      List.append_nil, last, ih]

theorem pieces (h : Reads rows bs) :
    ∀ b ∈ bs, b.head :: b.inside ++ [endRow] <:+: rows ∧ ∀ row ∈ b.inside, 8 ≤ indent row := by
  induction h with
  | nil => exact List.forall_mem_nil _
  | row _ _ _ ih => exact fun b hb => ⟨(ih b hb).1.trans (List.suffix_cons _ _).isInfix, (ih b hb).2⟩
  | @block head inside rows bs _ _ inner _ ih =>
    refine List.forall_mem_cons.mpr ⟨⟨⟨[], rows, by simp⟩, inner⟩, fun b hb => ⟨(ih b hb).1.trans ?_, (ih b hb).2⟩⟩
    exact ((List.suffix_cons endRow rows).trans (List.suffix_append _ _)).isInfix

theorem countP_closing (h : Reads rows bs) :
    rows.countP isClosing = (bs.flatMap ClassBlock.inside).countP isClosing := by
  induction h with
  | nil => rfl
  | row _ quiet _ ih => rw [List.countP_cons_of_neg (by simp [quiet]), ih]
  | block _ quiet _ _ ih =>
    rw [List.cons_append, List.countP_cons_of_neg (by simp [quiet]), List.countP_append,
      List.countP_cons_of_neg (by decide), List.flatMap_cons, List.countP_append, ih]

end Reads

/-- How a block is left: in `main` with one closing of the scanner before each return and
one in the last row, and in other blocks with none. -/
structure Leaves (b : ClassBlock) : Prop where
  main : b.head = mainRow → List.IsChain Follows (b.head :: b.inside ++ [endRow]) ∧ b.inside.getLast?.any isClosing
  other : b.head ≠ mainRow → ∀ row ∈ b.inside, isClosing row = false

theorem Leaves.ofMain {ls : List Line} (h : Exits true ls)
    (edges : ∀ l ∈ ls, ∃ closing opening, Edges closing opening l.text) :
    Leaves ⟨mainRow, (ls ++ [Line.mk 2 Java.closeScanner]).map rowOf⟩ := by
  refine ⟨fun _ => ⟨?_, ?_⟩, fun other => absurd rfl other⟩
  · have quiet : isClosing mainRow = false := by decide
    simpa using h.chain edges quiet
  · simpa using closeRow_closes 2

theorem Leaves.ofOther {row : List Char} (other : row ≠ mainRow) {ls : List Line} (h : Exits false ls)
    (edges : ∀ l ∈ ls, ∃ closing opening, Edges closing opening l.text) : Leaves ⟨row, ls.map rowOf⟩ :=
  ⟨fun main => absurd main other, fun _ => h.noClosing edges⟩

/-- The rows are read as blocks that are left as they should be, `mains` of them being methods `main`. -/
def Accounted (rows : List (List Char)) (mains : Nat) : Prop :=
  ∃ bs, Reads rows bs ∧ (∀ b ∈ bs, Leaves b) ∧ (bs.map ClassBlock.head).count mainRow = mains

namespace Accounted

variable {rows more : List (List Char)} {k m : Nat}

theorem nil : Accounted [] 0 := ⟨[], .nil, List.forall_mem_nil _, rfl⟩

theorem append (h : Accounted rows k) (h' : Accounted more m) : Accounted (rows ++ more) (k + m) := by
  obtain ⟨bs, reads, leaves, mains⟩ := h
  obtain ⟨cs, reads', leaves', mains'⟩ := h'
  refine ⟨bs ++ cs, reads.append reads', List.forall_mem_append.mpr ⟨leaves, leaves'⟩, ?_⟩
  rw [List.map_append, List.count_append, mains, mains']

theorem single {row : List Char} (other : heads row = false) (quiet : isClosing row = false) : Accounted [row] 0 :=
  ⟨[], .row other quiet .nil, List.forall_mem_nil _, rfl⟩

/-- Lines further in, between a header and its closing brace. -/
theorem block {head : String} {ls : List Line} {k' k'' : Nat} (edges : Edges false true head)
    (steps : Steps 2 k' ls k'') (leaves : Leaves ⟨rowOf ⟨1, head⟩, ls.map rowOf⟩) :
    Accounted ((Line.mk 1 head :: ls ++ [Line.mk 1 "\x7d"]).map rowOf)
      (if rowOf ⟨1, head⟩ = mainRow then 1 else 0) := by
  have opens : heads (rowOf ⟨1, head⟩) := by
    rw [heads, edges.indent, edges.opens]
    decide
  have quiet : isClosing (rowOf ⟨1, head⟩) = false := by
    refine edges.not_shows ?_
    rintro rfl
    exact absurd edges.ends (by decide)
  have inner : ∀ row ∈ ls.map rowOf, 8 ≤ indent row := by
    intro row member
    obtain ⟨l, hl, rfl⟩ := List.mem_map.mp member
    obtain ⟨_, _, here⟩ := steps.edges l hl
    have deep := steps.low_le l hl
    rw [here.indent]
    omega
  refine ⟨[⟨rowOf ⟨1, head⟩, ls.map rowOf⟩], ?_, List.forall_mem_singleton.mpr leaves, ?_⟩
  · rw [List.cons_append, List.map_cons, List.map_append]
    exact .block opens quiet inner .nil
  · simp [List.count_singleton]

end Accounted

/-! ### Members -/

/-- The member is a method `main`. -/
def isMainMember : Java.Member → Bool
  | .method header _ => header.name = "main"
  | _ => false

/-- The name in the head of a method: it stands between the blank behind the type and a
parenthesis. -/
def nameIn (head : List Char) : List Char := (head.dropWhile (· ≠ ' ')).tail.takeWhile (· ≠ '(')

theorem nameIn_eq {x : String} (h : LexesAs x (ident x)) (type : String) (rest : List Char) :
    nameIn ((Java.typeName type).toList ++ ' ' :: (x.toList ++ '(' :: rest)) = x.toList := by
  have noBlank : (Java.typeName type).toList.all (· ≠ ' ') := by
    unfold Java.typeName
    split <;> decide
  have noParenthesis : ∀ c ∈ x.toList, decide (c ≠ '(') = true := by
    intro c member
    refine decide_eq_true ?_
    rintro rfl
    exact absurd (name_wordChars h '(' member) (by decide)
  rw [nameIn, List.dropWhile_append_of_pos (List.all_eq_true.mp noBlank), List.dropWhile_cons_of_neg (by simp),
    List.tail_cons, List.takeWhile_append_of_pos noParenthesis, List.takeWhile_cons_of_neg (by simp), List.append_nil]

/-- Only a method `main` has the head of one. -/
theorem methodHead_ne {header : Header} (name : LexesAs header.name (ident header.name)) (other : header.name ≠ "main")
    (params : String) : rowOf ⟨1, "public static " ++ Java.typeName header.returnType ++ " " ++ header.name ++ "(" ++
      params ++ ") \x7b"⟩ ≠ mainRow := by
  intro same
  have chars : (Java.typeName header.returnType).toList ++ ' ' :: (header.name.toList ++ '(' ::
      (params.toList ++ ") \x7b".toList)) = "void main(String[] args) \x7b".toList := by
    refine (List.append_cancel_left_eq "public static ".toList _ _).mp ?_
    simpa using (List.append_cancel_left_eq _ _ _).mp same
  have names := nameIn_eq name header.returnType (params.toList ++ ") \x7b".toList)
  rw [chars] at names
  exact other (String.toList_inj.mp (names.symm.trans (by decide)))

theorem method_accounted {header : Header} {body : List Node} (h : MemberFrom .inline (.method header body))
    (h' : MemberFrom .lexed (.method header body)) :
    Accounted ((Java.method header body).map rowOf) (if header.name = "main" then 1 else 0) := by
  unfold Java.method
  by_cases main : header.name = "main"
  · have kept {n : Node} (hn : n ∈ Java.withoutFinalReturn body) := withoutFinalReturn_subset body hn
    have scanner : Edges false false "Scanner scanner = new Scanner(System.in);" := ⟨by decide, rfl, rfl⟩
    have head : Edges false true "public static void main(String[] args) \x7b" := ⟨by decide, rfl, rfl⟩
    have steps := (Steps.plain scanner).append (body_steps true 2 fun n hn => h.2.2 n (kept hn))
    have exits : Exits true ([⟨2, "Scanner scanner = new Scanner(System.in);"⟩] ++
        Java.statements true 2 (Java.withoutFinalReturn body)) :=
      .quiet (quiet_of_space (by simp)) (body_exits true 2 fun n hn => h'.2.2 n (kept hn))
    have block := Accounted.block head (steps.append (.plain closeEdges)) (.ofMain exits steps.edges)
    rw [if_pos main, if_pos main]
    simpa [mainRow] using block
  · have steps := body_steps false 2 h.2.2
    have head := methodHead_edges h.1 h.2.1
    have other := methodHead_ne h'.1 main
      (String.intercalate ", " (header.params.map fun p => Java.typeName p.type ++ " " ++ p.name))
    have block := Accounted.block head steps (.ofOther other (body_exits false 2 h'.2.2) steps.edges)
    rw [if_neg main, if_neg main]
    rwa [if_neg other] at block

theorem member_accounted {m : Java.Member} (h : MemberFrom .inline m) (h' : MemberFrom .lexed m) :
    Accounted (m.lines.map rowOf) (if isMainMember m then 1 else 0) := by
  cases m with
  | field type name init =>
    have edges : Edges false false ("static " ++ Java.declaration type name init ++ ";") :=
      .enclose ⟨by decide, rfl⟩ (declaration_oneRow type h.1 h.2) ⟨by decide, rfl⟩
    have shut : opens (rowOf (Java.field type name init)) = false := edges.opens 1
    refine .single ?_ (edges.not_shows (quiet_of_space (by simp)).2)
    rw [heads, shut, Bool.and_false]
  | method header body => simpa [isMainMember, Java.Member.lines] using method_accounted h h'
  | initializer body =>
    have steps := body_steps false 2 h
    exact .block ⟨by decide, rfl, rfl⟩ steps (.ofOther (by decide) (body_exits false 2 h') steps.edges)

theorem memberItems_accounted {ms : List Java.Member} (h : ∀ m ∈ ms, MemberFrom .inline m)
    (h' : ∀ m ∈ ms, MemberFrom .lexed m) : Accounted (itemRows (Java.memberItems ms)) (ms.countP isMainMember) := by
  have member {m : Java.Member} (h : MemberFrom .inline m) (h' : MemberFrom .lexed m) :
      Accounted (itemRows (m.lines.map .line)) (if isMainMember m then 1 else 0) := by
    rw [(member_steps h).itemRows_lines]
    exact member_accounted h h'
  fun_induction Java.memberItems ms with
  | case1 => exact .nil
  | case2 m => simpa using member (List.forall_mem_singleton.mp h) (List.forall_mem_singleton.mp h')
  | case3 m next more ih =>
    obtain ⟨here, later⟩ := List.forall_mem_cons.mp h
    obtain ⟨here', later'⟩ := List.forall_mem_cons.mp h'
    have gap : Accounted (itemRows (if m.isField && next.isField then [] else [.gap 1])) 0 := by
      split
      · exact .nil
      · exact .single (by decide) (by decide)
    have whole := ((member here here').append gap).append (ih later later')
    rw [itemRows_append, itemRows_append, List.countP_cons, Nat.add_comm]
    simpa using whole

theorem members_countP (body : List Node) : (Java.members body).countP isMainMember = body.countP Node.isMain := by
  have loose (n : Node) (ms : List Java.Member) :
      (Java.addLoose n ms).countP isMainMember = ms.countP isMainMember := by
    unfold Java.addLoose
    split <;> simp [isMainMember]
  fun_induction Java.members body with
  | case1 => rfl
  | case2 _ _ _ ih => simpa [Node.isMain] using ih
  | case3 _ _ _ _ prototype ih => simpa [Node.isMain, prototype] using ih
  | case4 header _ _ _ prototype ih => simp [List.countP_cons, Node.isMain, isMainMember, prototype, ih]
  | case5 _ _ _ _ _ ih => simpa [List.countP_cons, Node.isMain, isMainMember] using ih
  | case6 n ns _ notFunction _ ih =>
    have other : Node.isMain n = false := by
      cases n with
      | function header body l => exact absurd rfl (notFunction header body l)
      | _ => rfl
    rw [loose, ih, List.countP_cons_of_neg (by simp [other])]

/-! ### Programs -/

/-- The scanner is closed once on every way out of the `mains` methods `main` of a class, and
nowhere else. The blocks are pieces of the text, with rows further in. -/
structure ClosesScanner (rows : List (List Char)) (mains : Nat) : Prop where
  pieces : ∀ b ∈ blocks rows, b.head :: b.inside ++ [endRow] <:+: rows ∧ ∀ row ∈ b.inside, 8 ≤ indent row
  mains : ((blocks rows).map ClassBlock.head).count mainRow = mains
  leaves : ∀ b ∈ blocks rows, Leaves b
  inside : rows.countP isClosing = ((blocks rows).flatMap ClassBlock.inside).countP isClosing

theorem Accounted.closesScanner {rows : List (List Char)} {mains : Nat} (h : Accounted rows mains) :
    ClosesScanner rows mains := by
  obtain ⟨bs, reads, leaves, count⟩ := h
  have same := reads.blocks_eq
  exact ⟨same ▸ reads.pieces, same ▸ count, same ▸ leaves, same ▸ reads.countP_closing⟩

theorem headerItems_accounted (body : List Node) : Accounted (itemRows (headerItems body)) 0 := by
  unfold headerItems
  split
  · have import_ : Accounted ["import java.util.Scanner;".toList] 0 := .single (by decide) (by decide)
    have blank : Accounted [[]] 0 := .single (by decide) (by decide)
    exact import_.append blank
  · exact .nil

/-- **The scanner is closed once on every way out of `main`.** If no string of the source
text holds a newline, then in each method `main` of the program in the typed language
every return stands right behind a closing of the scanner at its level, behind every
closing stands such a return or the end of the method, and the method ends with a closing.
There are as many such methods as the source text defines, and no other row of the text
closes the scanner. -/
theorem transpile_closes_scanner (source : String)
    (oneRow : ∀ t ∈ (tokenize source).tokens, t.kind = .string → '\n' ∉ t.spelling.toList) :
    ClosesScanner ((Text.lines (transpile source .java)).map String.toList)
      ((parseTokens (tokenize source).tokens).tree.items.countP Node.isMain) := by
  obtain ⟨body, tree, made⟩ := parseTokens_madeFrom (fun _ => trivial) (admits_inline oneRow)
  obtain ⟨body', tree', lexed⟩ := @parseTokens_madeFrom .lexed (fun _ => trivial) _ fun t => @lexed_admits source t
  obtain rfl : body = body' := Node.program.inj (tree.symm.trans tree')
  have output : transpile source .java = Java.program body := by
    show emit .java (parseTokens (tokenize source).tokens).tree = _
    rw [tree]
    rfl
  have members := memberItems_accounted (members_from made) (members_from lexed)
  have opening : Accounted [classRow] 0 := .single (by decide) (by decide)
  have closing : Accounted [closingRow] 0 := .single (by decide) (by decide)
  have whole := ((headerItems_accounted body).append (opening.append members)).append closing
  rw [output, program_rows made, tree, Node.items, ← members_countP]
  simpa using whole.closesScanner

/-- Returns in a branch, in a loop and at the end of `main`, and in two places that are not
`main`, and a string with the text of the closing line. -/
def leavingSource : String :=
  "int f() \x7b return 1; \x7d return; int main() \x7b if (f()) \x7b return 0; \x7d " ++
    "while (1) return; printf(\"scanner.close();\"); return 0; \x7d"

theorem transpile_closes_scanner_leaving :
    (∀ t ∈ (tokenize leavingSource).tokens, t.kind = .string → '\n' ∉ t.spelling.toList) ∧
      ClosesScanner ((Text.lines (transpile leavingSource .java)).map String.toList) 1 := by
  have oneRow : ∀ t ∈ (tokenize leavingSource).tokens, t.kind = .string → '\n' ∉ t.spelling.toList := by decide +kernel
  have mains : (parseTokens (tokenize leavingSource).tokens).tree.items.countP Node.isMain = 1 := by decide +kernel
  exact ⟨oneRow, mains ▸ transpile_closes_scanner leavingSource oneRow⟩

end Braces
end MiniC
