/-
# The indented language keeps to the offside rule

A block of lines is made of single lines, of placeholders and of headers with a block
one level further in behind them that is not empty (`Block`). The rows of a block are
valid (`Block.laid`), and the lines of each statement are a block (`statement_block`): a
suite that would be empty holds `pass`, and no line but a header ends in a colon,
because no word and no expression does. This takes that the words of the tree are words
of a source text and that no string of it holds a newline.

Key definitions: `Heading`, `Block`.
Key theorems: `Block.laid`, `statement_block`, `program_keeps`, `transpile_offside`.
-/
import MiniC.Pipeline
import MiniC.Proofs.Offside.Rows

namespace MiniC
namespace Offside

open Row (indent)

/-! ### Blocks of lines -/

/-- The text is a header. -/
structure Heading (text : String) : Prop where
  oneRow : OneRow text
  starts : text.toList.head?.any visible
  ends : text.toList.getLast? = some ':'
  word : headerWords.any fun word => word.toList.isPrefixOf text.toList

/-- Lines of statements, `depth` levels in. -/
inductive Block : Nat → List Line → Prop
  | nil {depth : Nat} : Block depth []
  | line {depth : Nat} {text : String} {rest : List Line} : Inline text → Block depth rest →
    Block depth (⟨depth, text⟩ :: rest)
  | placeholder {depth : Nat} {rest : List Line} : Block depth rest →
    Block depth (⟨depth, Python.unsupportedLoop⟩ :: ⟨depth, "pass"⟩ :: rest)
  | suite {depth : Nat} {text : String} {body rest : List Line} : Heading text → Block (depth + 1) body →
    body ≠ [] → Block depth rest → Block depth (⟨depth, text⟩ :: body ++ rest)

theorem visible_starts {text : String} (h : text.toList.head?.any visible) :
    (text.toList.head?.any fun c => !Text.isBlank c) ∧ text.toList.head? ≠ some '#' := by
  obtain ⟨c, first, starts⟩ := (Option.any_eq_true _ _).mp h
  obtain ⟨notBlank, notHash⟩ : (!Text.isBlank c) = true ∧ c ≠ '#' := by simpa [visible] using starts
  rw [first]
  exact ⟨notBlank, fun same => notHash (Option.some.inj same)⟩

theorem StartsSuite.statement {depth : Nat} {text : String} (h : text.toList.head?.any visible)
    (after : List (List Char)) : StartsSuite (4 * depth) (rowOf ⟨depth, text⟩ :: after) := by
  obtain ⟨starts, notHash⟩ := visible_starts h
  have row := rowOf_spec depth text starts
  refine ⟨row.visible, row.indent, fun comment => ?_⟩
  rw [isComment, row.content] at comment
  exact absurd (of_decide_eq_true comment) notHash

theorem StartsSuite.first {column : Nat} {rows : List (List Char)} (h : StartsSuite column rows) :
    ∀ next ∈ firstRow? rows, indent next = column := by
  cases rows with
  | nil => exact h.elim
  | cons row after =>
    have found : firstRow? (row :: after) = some row := List.find?_cons_of_pos (by rw [h.1]; rfl)
    intro next first
    rw [found, Option.mem_some_iff] at first
    rw [← first]
    exact h.2.1

/-- A row that is no header. -/
theorem Sound.plain {depth : Nat} {text : String} {row : List Char} {after : List (List Char)}
    (h : RowOf depth text row) (noColon : text.toList.getLast? ≠ some ':')
    (next : ∀ next ∈ firstRow? after, indent next ≤ 4 * depth) : Sound row after where
  level _ := h.level
  opens colon := by
    rw [opensSuite, h.last] at colon
    exact absurd (of_decide_eq_true colon) noColon
  stays _ := by
    rw [h.indent]
    exact next

theorem Heading.sound {text : String} (h : Heading text) {depth : Nat} {after : List (List Char)}
    (suite : StartsSuite (4 * (depth + 1)) after) : Sound (rowOf ⟨depth, text⟩) after := by
  have row := rowOf_spec depth text (visible_starts h.starts).1
  have colon : opensSuite (rowOf ⟨depth, text⟩) = true := by
    rw [opensSuite, row.last, h.ends]
    rfl
  constructor
  · exact fun _ => row.level
  · intro _
    rw [isHeader, row.content, row.indent]
    exact ⟨h.word, suite⟩
  · intro plain
    rw [colon] at plain
    cases plain

theorem pass_inline : Inline "pass" := ⟨by decide, rfl, rfl⟩

theorem unsupportedLoop_oneRow : OneRow Python.unsupportedLoop := by decide

namespace Block

variable {depth : Nat} {ls ms : List Line} {tail : List (List Char)}

theorem append (h : Block depth ls) (h' : Block depth ms) : Block depth (ls ++ ms) := by
  induction h with
  | nil => exact h'
  | line inline _ ih => exact .line inline (ih h')
  | placeholder _ ih => exact .placeholder (ih h')
  | suite heading inside some _ _ ih =>
    rw [List.append_assoc]
    exact .suite heading inside some (ih h')

theorem oneRow (h : Block depth ls) : ∀ l ∈ ls, OneRow l.text := by
  induction h with
  | nil => exact List.forall_mem_nil _
  | line inline _ ih => exact List.forall_mem_cons.mpr ⟨inline.oneRow, ih⟩
  | placeholder _ ih =>
    exact List.forall_mem_cons.mpr ⟨unsupportedLoop_oneRow, List.forall_mem_cons.mpr ⟨pass_inline.oneRow, ih⟩⟩
  | suite heading _ _ _ ihBody ihRest =>
    exact List.forall_mem_cons.mpr ⟨heading.oneRow, List.forall_mem_append.mpr ⟨ihBody, ihRest⟩⟩

theorem startsSuite (h : Block depth ls) (some : ls ≠ []) (tail : List (List Char)) :
    StartsSuite (4 * depth) (ls.map rowOf ++ tail) := by
  cases h with
  | nil => exact absurd rfl some
  | line inline _ => exact .statement inline.starts _
  | placeholder _ =>
    have comment := rowOf_spec depth Python.unsupportedLoop rfl
    have pass := rowOf_spec depth "pass" rfl
    exact ⟨comment.visible, comment.indent, fun _ => ⟨_, rfl, decide_eq_true pass.content, pass.indent⟩⟩
  | suite heading _ _ _ => exact .statement heading.starts _

/-- What follows a block is no further in than the block, if that holds behind it. -/
theorem next_le (h : Block depth ls) (behind : ∀ next ∈ firstRow? tail, indent next ≤ 4 * depth) :
    ∀ next ∈ firstRow? (ls.map rowOf ++ tail), indent next ≤ 4 * depth := by
  by_cases nothing : ls = []
  · rw [nothing]
    exact behind
  · intro next first
    exact Nat.le_of_eq ((h.startsSuite nothing tail).first next first)

/-- **The rows of a block are sound**, before rows that are and stand no further in. -/
theorem laid (h : Block depth ls) (behind : ∀ next ∈ firstRow? tail, indent next ≤ 4 * depth)
    (sound : Laid tail) : Laid (ls.map rowOf ++ tail) := by
  induction h generalizing tail with
  | nil => exact sound
  | @line depth text rest inline block ih =>
    have row := rowOf_spec depth text (visible_starts inline.starts).1
    exact laid_cons.mpr ⟨.plain row inline.noColon (block.next_le behind), ih behind sound⟩
  | @placeholder depth rest block ih =>
    have comment := rowOf_spec depth Python.unsupportedLoop rfl
    have pass := rowOf_spec depth "pass" rfl
    refine laid_cons.mpr ⟨.plain comment (by decide) fun next first => ?_, laid_cons.mpr ⟨?_, ih behind sound⟩⟩
    · exact Nat.le_of_eq ((StartsSuite.statement pass_inline.starts _).first next first)
    · exact .plain pass pass_inline.noColon (block.next_le behind)
  | @suite depth text body rest heading inside some block ihBody ihRest =>
    have parts : (⟨depth, text⟩ :: body ++ rest).map rowOf ++ tail =
        rowOf ⟨depth, text⟩ :: (body.map rowOf ++ (rest.map rowOf ++ tail)) := by
      simp only [List.cons_append, List.map_cons, List.map_append, List.append_assoc]
    rw [parts]
    refine laid_cons.mpr ⟨heading.sound (inside.startsSuite some _), ihBody (fun next first => ?_) (ihRest behind sound)⟩
    have level := block.next_le behind next first
    omega

/-- A block at the left edge is valid. -/
theorem valid (h : Block 0 ls) : Valid (ls.map rowOf) := by
  have behind : ∀ next ∈ firstRow? [], indent next ≤ 4 * 0 := fun next first => by cases first
  have rows : Laid (ls.map rowOf) := by simpa using h.laid behind laid_nil
  refine ⟨fun first member => ?_, rows⟩
  have level := h.next_le behind first (by simpa using member)
  omega

theorem keeps (h : Block 0 ls) : Keeps (ls.map .line) := .lines h.oneRow h.valid

end Block

/-! ### The texts of lines -/

theorem defaultValue_inline (type : String) : Inline (Python.defaultValue type) := by
  unfold Python.defaultValue
  split <;> exact ⟨by decide, rfl, rfl⟩

theorem assignment_inline {target : String} (name : IsName target) (o : AssignOp) {value : Option Node}
    (h : ∀ e ∈ value, e.BuiltFrom .inline) : Inline (Python.assignment target o value) := by
  have name := name.inline
  unfold Python.assignment
  split
  · exact name.behind (by decide) rfl
  · exact name.behind (by decide) rfl
  · have lead : OneRow (target ++ " " ++ o.symbol ++ " ") := by
      simp only [oneRow_append]
      exact ⟨⟨⟨name.oneRow, by decide⟩, assignSymbol_oneRow o⟩, by decide⟩
    have starts := starts_append (starts_append (starts_append name.starts " ") o.symbol) " "
    cases value with
    | none =>
      rw [Option.map_none, Option.getD_none, String.append_empty]
      exact ⟨lead, starts, ends_append rfl _⟩
    | some e => exact (render_inline .indented (h e rfl)).before lead starts

theorem templateText_oneRow {raw : List Char} (h : '\n' ∉ raw) : OneRow (Python.templateText raw) := by
  rw [OneRow, Python.templateText, String.toList_ofList, Python.escapeBraces, List.mem_flatMap]
  rintro ⟨c, member, newline⟩
  obtain rfl : c = '\n' := by
    split at newline <;> simp at newline <;> exact newline.symm
  exact escape_oneRow h member

theorem field_oneRow (m : Marker) {arg : Node} (h : arg.BuiltFrom .inline) : OneRow (Python.field m arg) := by
  have letter : OneRow (Python.fieldLetter m) := by
    unfold Python.fieldLetter
    split
    · decide
    split <;> decide
  unfold Python.field
  dsimp only
  split
  · simp only [oneRow_append]
    exact ⟨⟨⟨by decide, (render_inline .field h).oneRow⟩, ⟨by decide, nat_oneRow _⟩, letter⟩, by decide⟩
  · simp only [oneRow_append]
    exact ⟨⟨⟨by decide, (render_inline .field h).oneRow⟩, by decide⟩, by decide⟩

theorem templateBody_oneRow {segments : List Segment} {args : List Node}
    (texts : ∀ segment ∈ segments, '\n' ∉ segment.raw) (built : ∀ e ∈ args, e.BuiltFrom .inline) :
    OneRow (Python.templateBody segments args) := by
  fun_induction Python.templateBody segments args with
  | case1 => decide
  | case2 chars segments args ih =>
    obtain ⟨here, later⟩ := List.forall_mem_cons.mp texts
    exact oneRow_append.mpr ⟨templateText_oneRow here, ih later built⟩
  | case3 segments args ih =>
    exact oneRow_append.mpr ⟨by decide, ih (List.forall_mem_cons.mp texts).2 built⟩
  | case4 m segments ih =>
    obtain ⟨here, later⟩ := List.forall_mem_cons.mp texts
    exact oneRow_append.mpr ⟨by rw [OneRow, String.toList_ofList]; exact here, ih later built⟩
  | case5 m segments arg args ih =>
    obtain ⟨first, more⟩ := List.forall_mem_cons.mp built
    refine oneRow_append.mpr ⟨?_, ih (List.forall_mem_cons.mp texts).2 more⟩
    split
    · next text found => exact templateText_oneRow (first.stringText found)
    · exact field_oneRow m first

theorem printOpen_inline {value : String} (h : OneRow value) : Inline (Python.printOpen value) := by
  unfold Python.printOpen
  refine ⟨?_, starts_append (starts_append rfl _) _, ends_append rfl _⟩
  simp only [oneRow_append]
  exact ⟨⟨by decide, h⟩, by decide⟩

theorem beforeNewline_oneRow {text line : String} (h : OneRow text) (found : Python.beforeNewline? text = some line) :
    OneRow line := by
  unfold Python.beforeNewline? at found
  split at found
  · next rest reversed =>
    obtain rfl := Option.some.inj found
    rw [OneRow, String.toList_ofList, List.mem_reverse]
    intro member
    have inside : '\n' ∈ text.toList.reverse := by
      rw [reversed]
      exact List.mem_cons_of_mem _ (List.mem_cons_of_mem _ member)
    exact h (List.mem_reverse.mp inside)
  · cases found

theorem printLines_inline {args : List Node} (h : ∀ e ∈ args, e.BuiltFrom .inline) :
    ∀ text ∈ Python.printLines args, Inline text := by
  unfold Python.printLines
  split
  · exact List.forall_mem_nil _
  · next first rest =>
    obtain ⟨first, rest⟩ := List.forall_mem_cons.mp h
    split
    · exact List.forall_mem_singleton.mpr (printOpen_inline (render_inline .indented first).oneRow)
    · next format found =>
      have plain := Format.plainText_oneRow (first.stringText found)
      dsimp only
      split
      · next line ended =>
        refine List.forall_mem_singleton.mpr ?_
        refine ((quote_inline .indented (beforeNewline_oneRow plain ended)).before ?_ rfl).behind ?_ rfl <;> decide
      · exact List.forall_mem_singleton.mpr (printOpen_inline (quote_inline .indented plain).oneRow)
    · next format found _ =>
      have body := templateBody_oneRow (fun segment member newline => first.stringText found (Format.mem_of_segment member newline)) rest
      refine List.forall_mem_singleton.mpr (printOpen_inline ?_)
      exact oneRow_append.mpr ⟨oneRow_append.mpr ⟨by decide, body⟩, by decide⟩

theorem readCall_inline (conversion : Conversion) : Inline (Python.readCall conversion) := by
  cases conversion <;> exact ⟨by decide, rfl, rfl⟩

theorem scanLines_inline {args : List Node} (h : ∀ e ∈ args, e.BuiltFrom .inline) :
    ∀ text ∈ Python.scanLines args, Inline text := by
  unfold Python.scanLines
  split
  · exact List.forall_mem_singleton.mpr ⟨by decide, rfl, rfl⟩
  · intro text member
    obtain ⟨⟨target, conversion⟩, found, rfl⟩ := List.mem_map.mp member
    have inline := render_inline .indented (h target (mem_of_scanTargets found))
    exact inline.join (by decide) (readCall_inline conversion)

/-- A header is a word for one, and a text that ends in a colon. -/
theorem Heading.of {word rest : String} (member : word ∈ headerWords) (oneRow : OneRow rest)
    (ends : rest.toList.getLast? = some ':') : Heading (word ++ rest) := by
  have good : OneRow word ∧ word.toList.head?.any visible := by
    have all : headerWords.all fun word => decide (OneRow word) && word.toList.head?.any visible := by decide
    simpa using List.all_eq_true.mp all word member
  refine ⟨oneRow_append.mpr ⟨good.1, oneRow⟩, starts_append good.2 rest, ?_, ?_⟩
  · rw [String.toList_append, List.getLast?_append, ends, Option.some_or]
  · rw [String.toList_append]
    exact List.any_eq_true.mpr ⟨word, member, List.isPrefixOf_iff_prefix.mpr (List.prefix_append _ _)⟩

theorem Heading.test {word : String} (member : word ∈ headerWords) {e : Node} (h : e.BuiltFrom .inline) :
    Heading (word ++ Python.expr e ++ ":") := by
  rw [String.append_assoc]
  refine .of member (oneRow_append.mpr ⟨(render_inline .indented h).oneRow, by decide⟩) ?_
  rw [String.toList_append, List.getLast?_append]
  rfl

theorem else_heading : Heading "else:" := ⟨by decide, rfl, rfl, by decide⟩

/-! ### Statements -/

theorem suite_block {depth : Nat} {lines : List Line} (h : Block depth lines) :
    Block depth (Python.suite depth lines) ∧ Python.suite depth lines ≠ [] := by
  cases lines with
  | nil => exact ⟨.line pass_inline .nil, List.cons_ne_nil _ _⟩
  | cons l ls => exact ⟨h, List.cons_ne_nil l ls⟩

theorem Block.headed {depth : Nat} {text : String} {body rest : List Line} (heading : Heading text)
    (inside : Block (depth + 1) body) (behind : Block depth rest) :
    Block depth (⟨depth, text⟩ :: Python.suite (depth + 1) body ++ rest) :=
  .suite heading (suite_block inside).1 (suite_block inside).2 behind

theorem Block.lines {depth : Nat} {texts : List String} (h : ∀ text ∈ texts, Inline text) :
    Block depth (atDepth depth texts) := by
  induction texts with
  | nil => exact .nil
  | cons text texts ih =>
    obtain ⟨here, later⟩ := List.forall_mem_cons.mp h
    exact .line here (ih later)

section

variable {globals : List String} {depth : Nat}

theorem statements_block {body : List Node} (h : ∀ n ∈ body, Block depth (Python.statement globals depth n)) :
    Block depth (Python.statements globals depth body) := by
  induction body with
  | nil => exact .nil
  | cons n body ih =>
    obtain ⟨here, later⟩ := List.forall_mem_cons.mp h
    rw [Python.statements]
    exact here.append (ih later)

theorem statement_expression {v : Vocabulary} {e : Node} (h : e.BuiltFrom v) :
    Python.statement globals depth e = [⟨depth, Python.expr e⟩] := by
  cases h <;> rw [Python.statement]

theorem functionHead_heading {header : Header} (name : IsName header.name)
    (params : ∀ p ∈ header.params, IsName p.name) :
    Heading ("def " ++ header.name ++ "(" ++ String.intercalate ", " (header.params.map Param.name) ++ "):") := by
  have list : OneRow (String.intercalate ", " (header.params.map Param.name)) :=
    oneRow_intercalate (List.forall_mem_map.mpr fun p hp => (params p hp).inline.oneRow)
  simp only [String.append_assoc]
  refine .of (by decide) ?_ ?_
  · simp only [oneRow_append]
    exact ⟨name.inline.oneRow, by decide, list, by decide⟩
  · simp only [String.toList_append, List.getLast?_append]
    rfl

theorem function_block (names : ∀ x ∈ globals, IsName x) {header : Header} {body : List Node}
    (name : IsName header.name) (params : ∀ p ∈ header.params, IsName p.name)
    (inside : Block (depth + 1) (Python.statements globals (depth + 1) body)) (l : Location) :
    Block depth (Python.statement globals depth (.function header body l)) := by
  have heading := functionHead_heading name params
  obtain ⟨suite, some⟩ := suite_block inside
  rw [Python.statement]
  split
  · exact .nil
  unfold Python.functionHead
  dsimp only
  split
  · have block := Block.suite heading suite some .nil
    rwa [List.append_nil] at block
  · next assigned =>
    have assignedNames : ∀ x ∈ assignedGlobals globals header.params body, IsName x := by
      intro x hx
      obtain ⟨-, wanted⟩ := List.mem_filter.mp (List.mem_eraseDups.mp hx)
      exact names x (List.contains_iff_mem.mp (Bool.and_eq_true_iff.mp wanted).1)
    have list := Inline.intercalate (by simpa using assigned) fun x hx => (assignedNames x hx).inline
    have line : Inline ("global " ++ String.intercalate ", " (assignedGlobals globals header.params body)) :=
      list.before (by decide) rfl
    have block := Block.suite heading (.line line suite) (List.cons_ne_nil _ _) .nil
    rwa [List.append_nil] at block

theorem forLoop_block {init test update : Option Node} {body : Node} (hinit : ∀ n ∈ init, n.MadeFrom .inline)
    (htest : ∀ e ∈ test, e.BuiltFrom .inline)
    (inside : Block (depth + 1) (Python.statement globals (depth + 1) body)) (l : Location) :
    Block depth (Python.statement globals depth (.forLoop init test update body l)) := by
  rw [Python.statement]
  split
  · next loop found =>
    obtain ⟨name, start, bound⟩ := CountingLoop.of?_words found hinit htest
    have heading : Heading ("for " ++ loop.name ++ " in range(" ++ loop.rangeArguments ++ "):") := by
      simp only [String.append_assoc]
      refine .of (by decide) ?_ ?_
      · simp only [oneRow_append]
        exact ⟨IsName.inline name |>.oneRow, by decide, CountingLoop.rangeArguments_oneRow start bound, by decide⟩
      · simp only [String.toList_append, List.getLast?_append]
        rfl
    have block := Block.headed heading inside .nil
    rwa [List.append_nil] at block
  · exact .placeholder .nil

end

/-- **The lines of a statement are a block**, and so are those of an else-branch that it
is; there a branch continues the chain of its header. -/
theorem statement_block {globals : List String} (names : ∀ x ∈ globals, IsName x) {n : Node}
    (h : n.MadeFrom .inline) : (∀ depth, Block depth (Python.statement globals depth n)) ∧
      ∀ depth, Block depth (Python.otherwise globals depth (some n)) := by
  have behindElse {m : Node} (notBranch : ∀ test onTrue onFalse l, m ≠ .branch test onTrue onFalse l)
      (block : ∀ depth, Block depth (Python.statement globals depth m)) :
      (∀ depth, Block depth (Python.statement globals depth m)) ∧
        ∀ depth, Block depth (Python.otherwise globals depth (some m)) := by
    refine ⟨block, fun depth => ?_⟩
    have headed := Block.headed else_heading (block (depth + 1)) .nil
    rwa [List.append_nil, ← Python.otherwise_else notBranch] at headed
  induction h with
  | inclusion library l => exact behindElse (by simp) fun depth => by rw [Python.statement]; exact .nil
  | function l name params _ ih =>
    refine behindElse (by simp) fun depth => ?_
    exact function_block names name params (statements_block fun n hn => (ih n hn).1 (depth + 1)) l
  | @declare x init type l name built =>
    refine behindElse (by simp) fun depth => ?_
    rw [Python.statement]
    refine .line ?_ .nil
    have value : Inline ((init.map Python.expr).getD (Python.defaultValue type)) := by
      cases init with
      | none => exact defaultValue_inline type
      | some e => exact render_inline .indented (built e rfl)
    exact (IsName.inline name).join (by decide) value
  | assign o l name built =>
    refine behindElse (by simp) fun depth => ?_
    rw [Python.statement]
    exact .line (assignment_inline name o built) .nil
  | @branch test onTrue onFalse l built _ _ ihTrue ihFalse =>
    have chain (depth : Nat) : Block depth (Python.otherwise globals depth onFalse) := by
      cases onFalse with
      | none => rw [Python.otherwise]; exact .nil
      | some n => exact (ihFalse n rfl).2 depth
    constructor
    · intro depth
      rw [Python.statement]
      exact .headed (.test (by decide) built) (ihTrue.1 (depth + 1)) (chain depth)
    · intro depth
      rw [Python.otherwise]
      exact .headed (.test (by decide) built) (ihTrue.1 (depth + 1)) (chain depth)
  | @whileLoop test body l built _ ih =>
    refine behindElse (by simp) fun depth => ?_
    rw [Python.statement]
    have heading : Heading ("while " ++ Python.expr test ++ ":") := .test (by decide) built
    have block := Block.headed heading (ih.1 (depth + 1)) .nil
    rwa [List.append_nil] at block
  | forLoop l init test _ _ _ _ ih =>
    exact behindElse (by simp) fun depth => forLoop_block init test (ih.1 (depth + 1)) l
  | @ret value l built =>
    refine behindElse (by simp) fun depth => ?_
    cases value with
    | none =>
      rw [Python.statement]
      exact .line ⟨by decide, rfl, rfl⟩ .nil
    | some e =>
      rw [Python.statement]
      exact .line ((render_inline .indented (built e rfl)).before (by decide) rfl) .nil
  | printf l built =>
    refine behindElse (by simp) fun depth => ?_
    rw [Python.statement]
    exact .lines (printLines_inline built)
  | scanf l built =>
    refine behindElse (by simp) fun depth => ?_
    rw [Python.statement]
    exact .lines (scanLines_inline built)
  | block l _ ih =>
    refine behindElse (by simp) fun depth => ?_
    rw [Python.statement]
    exact statements_block fun n hn => (ih n hn).1 depth
  | expression built =>
    refine behindElse (by rintro _ _ _ _ rfl; cases built) fun depth => ?_
    rw [statement_expression built]
    exact .line (render_inline .indented built) .nil

/-! ### Programs -/

theorem topLevel_keeps {globals : List String} (names : ∀ x ∈ globals, IsName x) {body : List Node}
    (h : ∀ n ∈ body, n.MadeFrom .inline) (afterFunction : Bool) :
    Keeps (Python.topLevel globals afterFunction body) := by
  have lines {n : Node} (made : n.MadeFrom .inline) : Keeps ((Python.statement globals 0 n).map .line) :=
    ((statement_block names made).1 0).keeps
  fun_induction Python.topLevel globals afterFunction body with
  | case1 => exact .nil
  | case2 _ _ _ _ ih => exact ih (List.forall_mem_cons.mp h).2
  | case3 _ _ _ _ _ _ ih => exact ih (List.forall_mem_cons.mp h).2
  | case4 _ _ _ _ _ _ ih =>
    obtain ⟨here, later⟩ := List.forall_mem_cons.mp h
    exact ((Keeps.gap 2).append (lines here)).append (ih later)
  | case5 afterFunction n ns _ _ ih =>
    obtain ⟨here, later⟩ := List.forall_mem_cons.mp h
    have apart : Keeps (if afterFunction = true then [.gap 2] else []) := by
      split
      · exact .gap 2
      · exact .nil
    exact (apart.append (lines here)).append (ih later)

theorem mainGuard_block : Block 0 [⟨0, "if __name__ == \"__main__\":"⟩, ⟨1, "main()"⟩] := by
  have heading : Heading "if __name__ == \"__main__\":" := ⟨by decide, rfl, rfl, by decide⟩
  exact .suite heading (.line ⟨by decide, rfl, rfl⟩ .nil) (List.cons_ne_nil _ _) .nil

theorem items_keeps {body : List Node} (h : ∀ n ∈ body, n.MadeFrom .inline) : Keeps (Python.items body) := by
  have names : ∀ x ∈ Python.globalNames body, IsName x := by
    intro x hx
    obtain ⟨n, member, declared⟩ := List.mem_filterMap.mp hx
    cases h n member with
    | declare type l name _ =>
      obtain rfl := Option.some.inj declared
      exact name
    | expression built => cases built <;> cases declared
    | _ => cases declared
  refine (topLevel_keeps names h false).append ?_
  split
  · exact (Keeps.gap 2).append mainGuard_block.keeps
  · exact .nil

/-- **Generated code keeps to the offside rule.** If no string of the source text holds a
newline, the rows of the program in the indented language are valid: all of them are
indented by whole levels, the first one by none, each header has its suite one level
further in, and only headers have one. -/
theorem transpile_offside (source : String)
    (oneRow : ∀ t ∈ (tokenize source).tokens, t.kind = .string → '\n' ∉ t.spelling.toList) :
    Valid (Text.rows (transpile source .python).toList) := by
  obtain ⟨body, tree, made⟩ := parseTokens_madeFrom (fun _ => trivial) (admits_inline oneRow)
  have output : transpile source .python = Layout.text (Python.items body) := by
    show emit .python (parseTokens (tokenize source).tokens).tree = _
    rw [tree]
    rfl
  rw [output]
  exact (items_keeps made).valid_text

/-- A chain with an empty branch, a loop that is no range, and a string that ends in a colon. -/
theorem transpile_offside_chain :
    (∀ t ∈ (tokenize "int g; int main() \x7b if (g) ; else if (!g) for (;;) ; printf(\"g:\"); \x7d").tokens,
      t.kind = .string → '\n' ∉ t.spelling.toList) ∧
      Valid (Text.rows (transpile
        "int g; int main() \x7b if (g) ; else if (!g) for (;;) ; printf(\"g:\"); \x7d" .python).toList) := by
  have oneRow : ∀ t ∈ (tokenize "int g; int main() \x7b if (g) ; else if (!g) for (;;) ; printf(\"g:\"); \x7d").tokens,
      t.kind = .string → '\n' ∉ t.spelling.toList := by decide +kernel
  exact ⟨oneRow, transpile_offside _ oneRow⟩

end Offside
end MiniC
