/-
# The typed language is well bracketed

The lines of each statement lead back to the level where they start, and none of them
stands further out (`statement_steps`). An else-branch is read one level further in: it starts
with the row that closes what stands before it and opens its own. This takes that no
line but a header ends in an opening brace and that none but a closing one starts with
a closing brace, since expressions start with neither (`render_starts`) and every line
that is no header ends in a semicolon or a parenthesis. The members of the class are
put together from such lines with blank rows between them (`memberItems_framed`).

Key theorems: `render_starts`, `statement_steps`, `member_steps`, `memberItems_framed`,
`transpile_bracketed`.
-/
import MiniC.Pipeline
import MiniC.Proofs.Braces.Rows
import MiniC.Proofs.Members

namespace MiniC
namespace Braces

/-! ### How texts start -/

theorem front_of_range {c : Char} (low : 33 ≤ c.toNat) (high : c.toNat ≤ 122) : front false c := by
  have notBlank : Text.isBlank c = false := by simpa using not_isBlank low (by omega)
  have notBrace : (c == '\x7d') = false := by
    refine beq_false_of_ne ?_
    rintro rfl
    exact absurd high (by decide)
  rw [front, notBlank, notBrace]
  rfl

theorem name_starts {x : String} (h : IsName x) : x.toList.head?.any (front false) := by
  obtain ⟨c, cs, chars, letter, -⟩ := h
  have range := isLetter_range letter
  rw [chars]
  exact front_of_range (by omega) (by omega)

theorem numeral_starts {text : String} (h : IsNumeral text) : text.toList.head?.any (front false) := by
  obtain ⟨c, cs, chars, digit, -⟩ := h
  have range := isDigit_range digit
  rw [chars]
  exact front_of_range (by omega) (by omega)

theorem grouped_starts {text : String} (h : text.toList.head?.any (front false)) (parenthesized : Bool) :
    (grouped parenthesized text).toList.head?.any (front false) := by
  cases parenthesized with
  | false => exact h
  | true => exact starts_append (starts_append rfl text) ")"

/-- An expression starts with no brace. -/
theorem render_starts (s : Spelling) {e : Node} (he : e.BuiltFrom .inline) :
    (e.render s).toList.head?.any (front false) := by
  induction he with
  | @number text kind l notString h =>
    cases kind with
    | string => exact absurd rfl notString
    | int | float => exact numeral_starts h
  | @string raw l _ =>
    have delimiter : front false s.delimiter := by cases s <;> decide
    show (s.quote raw).toList.head?.any (front false)
    rw [quote_toList]
    exact delimiter
  | identifier l h => exact name_starts h
  | call l h _ _ =>
    rw [Node.render]
    exact starts_append (starts_append (starts_append (name_starts h) _) _) _
  | @binary left right o l _ _ ihLeft _ =>
    rw [Node.render]
    have left := grouped_starts ihLeft (s.groups o left false)
    exact starts_append (starts_append (starts_append (starts_append left _) _) _) _
  | @unary o operand l _ _ ih =>
    cases o with
    | neg =>
      rw [Node.render]
      exact starts_append rfl _
    | not =>
      rw [Node.render]
      exact starts_append (by cases s <;> rfl) _
    | addressOf => rwa [Node.render]

/-! ### The texts of lines -/

theorem expr_oneRow {e : Node} (h : e.BuiltFrom .inline) : OneRow (Java.expr e) := (render_inline .typed h).oneRow

theorem typeName_oneRow (type : String) : OneRow (Java.typeName type) := by
  unfold Java.typeName
  split <;> decide

theorem typeName_starts (type : String) : (Java.typeName type).toList.head?.any (front false) := by
  unfold Java.typeName
  split <;> rfl

theorem defaultValue_oneRow (type : String) : OneRow (Java.defaultValue type) := by
  unfold Java.defaultValue
  split <;> decide

theorem quoted_oneRow {cs : List Char} (h : '\n' ∉ cs) : OneRow ("'" ++ String.ofList cs ++ "'") := by
  simp only [oneRow_append]
  exact ⟨⟨by decide, by rwa [OneRow, String.toList_ofList]⟩, by decide⟩

theorem charExpr_oneRow {e : Node} (h : e.BuiltFrom .inline) : OneRow (Java.charExpr e) := by
  unfold Java.charExpr Java.charLiteral?
  cases found : e.stringText? with
  | none => exact expr_oneRow h
  | some raw =>
    have oneRow : '\n' ∉ raw.toList := h.stringText found
    rw [Option.bind_some]
    split
    · next c chars =>
      rw [Option.getD_some]
      split
      · decide
      · exact quoted_oneRow (chars ▸ oneRow)
    · next c escaped chars =>
      split
      · exact quoted_oneRow (chars ▸ oneRow)
      · exact expr_oneRow h
    · exact expr_oneRow h

theorem declaration_oneRow (type : String) {name : String} (h : IsName name) {init : Option Node}
    (built : ∀ e ∈ init, e.BuiltFrom .inline) : OneRow (Java.declaration type name init) := by
  unfold Java.declaration
  simp only [oneRow_append]
  refine ⟨⟨⟨⟨typeName_oneRow type, by decide⟩, h.inline.oneRow⟩, by decide⟩, ?_⟩
  cases init with
  | none => exact defaultValue_oneRow type
  | some e =>
    dsimp only
    split
    · exact charExpr_oneRow (built e rfl)
    · exact expr_oneRow (built e rfl)

theorem declaration_starts (type name : String) (init : Option Node) :
    (Java.declaration type name init).toList.head?.any (front false) :=
  starts_append (starts_append (starts_append (starts_append (typeName_starts type) _) _) _) _

theorem assignment_oneRow {target : String} (h : IsName target) (o : AssignOp) {value : Option Node}
    (built : ∀ e ∈ value, e.BuiltFrom .inline) : OneRow (Java.assignment target o value) := by
  have name := h.inline.oneRow
  have symbol := assignSymbol_oneRow o
  unfold Java.assignment
  split
  · exact oneRow_append.mpr ⟨name, symbol⟩
  · simp only [oneRow_append]
    refine ⟨⟨⟨⟨name, by decide⟩, symbol⟩, by decide⟩, ?_⟩
    cases value with
    | none => decide
    | some e => exact expr_oneRow (built e rfl)

theorem assignment_starts {target : String} (h : IsName target) (o : AssignOp) (value : Option Node) :
    (Java.assignment target o value).toList.head?.any (front false) := by
  unfold Java.assignment
  split
  · exact starts_append (name_starts h) _
  · exact starts_append (starts_append (starts_append (starts_append (name_starts h) _) _) _) _

/-- In the head of a loop a statement that is no clause is written as nothing. -/
theorem clause_oneRow {n : Node} (h : n.MadeFrom .inline) : OneRow (Java.clause n) := by
  cases h with
  | declare type l name built => exact declaration_oneRow type name built
  | assign o l name built => exact assignment_oneRow name o built
  | expression built =>
    have written : Java.clause n = Java.expr n := by cases built <;> rfl
    rw [written]
    exact expr_oneRow built
  | _ => show OneRow ""; decide

theorem markerLetter_ne {m : Marker} (h : m.letter ≠ '\n') : Java.markerLetter m ≠ '\n' := by
  unfold Java.markerLetter
  split
  · decide
  · split
    · decide
    · exact h
  · decide
  · decide
  · exact h

theorem marker_oneRow {m : Marker} (h : '\n' ∉ m.raw) : OneRow (Java.marker m) := by
  simp only [Marker.raw, List.cons_append, List.mem_cons, List.mem_append, not_or] at h
  obtain ⟨-, ⟨⟨flags, -⟩, -⟩, letter, -⟩ := h
  unfold Java.marker
  simp only [oneRow_append]
  refine ⟨⟨⟨by decide, by rwa [OneRow, String.toList_ofList]⟩, ?_⟩, ?_⟩
  · cases m.precision with
    | none => decide
    | some p => exact oneRow_append.mpr ⟨by decide, nat_oneRow p⟩
  · rw [OneRow, String.toList_ofList, List.mem_singleton]
    exact (markerLetter_ne (Ne.symm letter)).symm

theorem format_oneRow {text : String} (h : OneRow text) : OneRow (Java.format text) := by
  rw [OneRow, Java.format, String.toList_join, List.mem_flatMap]
  rintro ⟨part, member, newline⟩
  obtain ⟨segment, inside, rfl⟩ := List.mem_map.mp member
  have absent : '\n' ∉ segment.raw := fun here => h (Format.mem_of_segment inside here)
  cases segment with
  | text chars => exact absent (by simpa [Segment.raw] using newline)
  | percent => exact absurd newline (by decide)
  | marker m => exact marker_oneRow absent newline

/-- The arguments of a formatted print are expressions with commas between them, some of
them as characters. -/
theorem formatArguments_of_join {P : String → Prop} (none : P "") (join : ∀ a b, P a → P b → P (a ++ ", " ++ b))
    (text : String) {args : List Node} (char : ∀ e ∈ args, P (Java.charExpr e)) (plain : ∀ e ∈ args, P (Java.expr e)) :
    P (Java.formatArguments text args) := by
  refine intercalate_of_join join (fun _ => none) (List.forall_mem_map.mpr ?_)
  rintro ⟨arg, conversion⟩ paired
  have member := mem_of_withConversions paired
  split
  · next same =>
    obtain ⟨rfl, -⟩ := Prod.mk.inj same
    exact char _ member
  · next same =>
    obtain ⟨rfl, -⟩ := Prod.mk.inj same
    exact plain _ member

theorem formatArguments_oneRow (text : String) {args : List Node} (h : ∀ e ∈ args, e.BuiltFrom .inline) :
    OneRow (Java.formatArguments text args) :=
  formatArguments_of_join (by decide) (fun _ _ => OneRow.join) text (fun e he => charExpr_oneRow (h e he))
    fun e he => expr_oneRow (h e he)

theorem quote_oneRow {raw : String} (h : OneRow raw) : OneRow (Text.quote raw) := (quote_inline .typed h).oneRow

/-- A statement with its semicolon. -/
theorem Edges.ended {text : String} (oneRow : OneRow text) (starts : text.toList.head?.any (front false)) :
    Edges false false (text ++ ";") :=
  .join ⟨oneRow, starts⟩ ⟨by decide, rfl⟩

theorem printLines_edges {args : List Node} (h : ∀ e ∈ args, e.BuiltFrom .inline) :
    ∀ text ∈ Java.printLines args, Edges false false text := by
  unfold Java.printLines
  split
  · exact List.forall_mem_nil _
  · next first rest =>
    obtain ⟨first, rest⟩ := List.forall_mem_cons.mp h
    split
    · exact List.forall_mem_singleton.mpr (.enclose ⟨by decide, rfl⟩ (expr_oneRow first) ⟨by decide, rfl⟩)
    · next text found =>
      have plain := quote_oneRow (Format.plainText_oneRow (first.stringText found))
      exact List.forall_mem_singleton.mpr (.enclose ⟨by decide, rfl⟩ plain ⟨by decide, rfl⟩)
    · next text found _ =>
      have format := quote_oneRow (format_oneRow (first.stringText found))
      refine List.forall_mem_singleton.mpr (.join ⟨?_, ?_⟩ ⟨by decide, rfl⟩)
      · simp only [oneRow_append]
        exact ⟨⟨⟨by decide, format⟩, by decide⟩, formatArguments_oneRow text rest⟩
      · exact starts_append (starts_append (starts_append rfl _) _) _

theorem readCall_oneRow (conversion : Conversion) : OneRow (Java.readCall conversion) := by
  cases conversion <;> decide

theorem scanLines_edges {args : List Node} (h : ∀ e ∈ args, e.BuiltFrom .inline) :
    ∀ text ∈ Java.scanLines args, Edges false false text := by
  unfold Java.scanLines
  split
  · exact List.forall_mem_singleton.mpr ⟨by decide, rfl, rfl⟩
  · intro text member
    obtain ⟨⟨target, conversion⟩, found, rfl⟩ := List.mem_map.mp member
    have built := h target (mem_of_scanTargets found)
    refine .ended ?_ (starts_append (starts_append (render_starts .typed built) _) _)
    simp only [oneRow_append]
    exact ⟨⟨expr_oneRow built, by decide⟩, readCall_oneRow conversion⟩

theorem returnLines_edges (inMain : Bool) {value : Option Node} (h : ∀ e ∈ value, e.BuiltFrom .inline) :
    ∀ text ∈ Java.returnLines inMain value, Edges false false text := by
  have bare : Edges false false "return;" := ⟨by decide, rfl, rfl⟩
  have close : Edges false false Java.closeScanner := ⟨by decide, rfl, rfl⟩
  unfold Java.returnLines
  split
  · exact List.forall_mem_cons.mpr ⟨close, List.forall_mem_singleton.mpr bare⟩
  · split
    · next e =>
      have value := expr_oneRow (h e rfl)
      exact List.forall_mem_singleton.mpr (.enclose ⟨by decide, rfl⟩ value ⟨by decide, rfl⟩)
    · exact List.forall_mem_singleton.mpr bare

theorem forHead_edges {init test update : Option Node} (hinit : ∀ n ∈ init, n.MadeFrom .inline)
    (htest : ∀ e ∈ test, e.BuiltFrom .inline) (hupdate : ∀ n ∈ update, n.MadeFrom .inline) :
    Edges false true ("for (" ++ (init.map Java.clause).getD "" ++ "; " ++ (test.map Java.expr).getD "" ++ "; " ++
      (update.map Java.clause).getD "" ++ ") \x7b") := by
  have part {n : Option Node} {write : Node → String} (h : ∀ m ∈ n, OneRow (write m)) :
      OneRow ((n.map write).getD "") := by
    cases n with
    | none =>
      show OneRow ""
      decide
    | some m => exact h m rfl
  refine .join ⟨?_, ?_⟩ ⟨by decide, rfl⟩
  · simp only [oneRow_append]
    have first := part fun n hn => clause_oneRow (hinit n hn)
    have second := part fun e he => expr_oneRow (htest e he)
    have third := part fun n hn => clause_oneRow (hupdate n hn)
    exact ⟨⟨⟨⟨⟨by decide, first⟩, by decide⟩, second⟩, by decide⟩, third⟩
  · simp only [String.append_assoc]
    exact starts_append rfl _

/-! ### Statements -/

section

variable {inMain : Bool} {depth : Nat}

theorem statements_steps {body : List Node}
    (h : ∀ n ∈ body, Steps depth depth (Java.statement inMain depth false n) depth) :
    Steps depth depth (Java.statements inMain depth body) depth := by
  induction body with
  | nil =>
    rw [Java.statements]
    exact .nil
  | cons n body ih =>
    obtain ⟨here, later⟩ := List.forall_mem_cons.mp h
    rw [Java.statements]
    exact here.append (ih later)

theorem statement_expression {v : Vocabulary} {e : Node} (h : e.BuiltFrom v) (isBody : Bool) :
    Java.statement inMain depth isBody e = [⟨depth, Java.expr e ++ ";"⟩] := by
  cases h <;> rw [Java.statement]

theorem test_edges {closing : Bool} {word : String} (oneRow : OneRow word)
    (starts : word.toList.head?.any (front closing)) {e : Node} (h : e.BuiltFrom .inline) :
    Edges closing true (word ++ Java.expr e ++ ") \x7b") :=
  .enclose ⟨oneRow, starts⟩ (expr_oneRow h) ⟨by decide, rfl⟩

end

/-- **The lines of a statement lead back to their level.** Those of an else-branch start
one level further in, where the branch before it ends. -/
theorem statement_steps (inMain : Bool) {n : Node} (h : n.MadeFrom .inline) :
    (∀ depth isBody, Steps depth depth (Java.statement inMain depth isBody n) depth) ∧
      ∀ depth, Steps depth (depth + 1) (Java.otherwise inMain depth (some n)) (depth + 1) := by
  have behindElse {m : Node} (notBranch : ∀ test onTrue onFalse l, m ≠ .branch test onTrue onFalse l)
      (steps : ∀ depth isBody, Steps depth depth (Java.statement inMain depth isBody m) depth) :
      (∀ depth isBody, Steps depth depth (Java.statement inMain depth isBody m) depth) ∧
        ∀ depth, Steps depth (depth + 1) (Java.otherwise inMain depth (some m)) (depth + 1) := by
    refine ⟨steps, fun depth => ?_⟩
    rw [Java.otherwise_else notBranch]
    exact .between ⟨by decide, rfl, rfl⟩ ((steps (depth + 1) true).mono (Nat.le_succ depth))
  induction h with
  | inclusion library l => exact behindElse (by simp) fun depth isBody => by rw [Java.statement]; exact .nil
  | @function header body l name _ _ _ =>
    refine behindElse (by simp) fun depth isBody => ?_
    rw [Java.statement]
    split
    · exact .nil
    · exact .plain (.enclose ⟨by decide, rfl⟩ (IsName.inline name).oneRow ⟨by decide, rfl⟩)
  | declare type l name built =>
    refine behindElse (by simp) fun depth isBody => ?_
    rw [Java.statement]
    exact .plain (.ended (declaration_oneRow type name built) (declaration_starts _ _ _))
  | assign o l name built =>
    refine behindElse (by simp) fun depth isBody => ?_
    rw [Java.statement]
    exact .plain (.ended (assignment_oneRow name o built) (assignment_starts name _ _))
  | @branch test onTrue onFalse l built _ _ ihTrue ihFalse =>
    have chain (depth : Nat) : Steps depth (depth + 1) (Java.otherwise inMain depth onFalse) (depth + 1) := by
      cases onFalse with
      | none => rw [Java.otherwise]; exact .nil
      | some n => exact (ihFalse n rfl).2 depth
    have inside (depth : Nat) : Steps depth (depth + 1)
        (Java.statement inMain (depth + 1) true onTrue ++ Java.otherwise inMain depth onFalse) (depth + 1) :=
      ((ihTrue.1 (depth + 1) true).mono (Nat.le_succ depth)).append (chain depth)
    constructor
    · intro depth isBody
      rw [Java.statement]
      exact .enclosed (test_edges (by decide) rfl built) (inside depth)
    · intro depth
      rw [Java.otherwise]
      exact .between (test_edges (by decide) rfl built) (inside depth)
  | whileLoop l built _ ih =>
    refine behindElse (by simp) fun depth isBody => ?_
    rw [Java.statement]
    exact .enclosed (test_edges (by decide) rfl built) ((ih.1 (depth + 1) true).mono (Nat.le_succ depth))
  | forLoop l init test update _ _ _ ih =>
    refine behindElse (by simp) fun depth isBody => ?_
    rw [Java.statement]
    exact .enclosed (forHead_edges init test update) ((ih.1 (depth + 1) true).mono (Nat.le_succ depth))
  | ret l built =>
    refine behindElse (by simp) fun depth isBody => ?_
    rw [Java.statement]
    exact .texts (returnLines_edges inMain built)
  | printf l built =>
    refine behindElse (by simp) fun depth isBody => ?_
    rw [Java.statement]
    exact .texts (printLines_edges built)
  | scanf l built =>
    refine behindElse (by simp) fun depth isBody => ?_
    rw [Java.statement]
    exact .texts (scanLines_edges built)
  | block l _ ih =>
    refine behindElse (by simp) fun depth isBody => ?_
    rw [Java.statement]
    split
    · exact statements_steps fun n hn => (ih n hn).1 depth false
    · have inside := statements_steps fun n hn => (ih n hn).1 (depth + 1) false
      exact .enclosed ⟨by decide, rfl, rfl⟩ (inside.mono (Nat.le_succ depth))
  | expression built =>
    refine behindElse (by rintro _ _ _ _ rfl; cases built) fun depth isBody => ?_
    rw [statement_expression built]
    exact .plain (.ended (expr_oneRow built) (render_starts .typed built))

theorem body_steps (inMain : Bool) (depth : Nat) {body : List Node} (h : ∀ n ∈ body, n.MadeFrom .inline) :
    Steps depth depth (Java.statements inMain depth body) depth :=
  statements_steps fun n hn => (statement_steps inMain (h n hn)).1 depth false

/-! ### Members -/

/-- The words of a member are words of the vocabulary. -/
def MemberFrom (v : Vocabulary) : Java.Member → Prop
  | .field _ name init => v.name name ∧ ∀ e ∈ init, e.BuiltFrom v
  | .method header body => v.name header.name ∧ (∀ p ∈ header.params, v.name p.name) ∧ ∀ n ∈ body, n.MadeFrom v
  | .initializer body => ∀ n ∈ body, n.MadeFrom v

theorem members_from {v : Vocabulary} {body : List Node} (h : ∀ n ∈ body, n.MadeFrom v) :
    ∀ m ∈ Java.members body, MemberFrom v m := by
  intro m hm
  cases Java.members_madeOf body m hm with
  | field member =>
    cases h _ member with
    | declare _ _ name built => exact ⟨name, built⟩
    | expression built => cases built
  | method member =>
    cases h _ member with
    | function _ name params made => exact ⟨name, params, made⟩
    | expression built => cases built
  | initializer part => exact fun n hn => h n (part hn)

theorem withoutFinalReturn_subset (body : List Node) : Java.withoutFinalReturn body ⊆ body := by
  unfold Java.withoutFinalReturn
  split
  · exact List.dropLast_subset body
  · exact List.Subset.refl body

theorem methodHead_edges {header : Header} (name : IsName header.name) (params : ∀ p ∈ header.params, IsName p.name) :
    Edges false true ("public static " ++ Java.typeName header.returnType ++ " " ++ header.name ++ "(" ++
      String.intercalate ", " (header.params.map fun p => Java.typeName p.type ++ " " ++ p.name) ++ ") \x7b") := by
  have list : OneRow (String.intercalate ", " (header.params.map fun p => Java.typeName p.type ++ " " ++ p.name)) := by
    refine oneRow_intercalate (List.forall_mem_map.mpr fun p hp => ?_)
    simp only [oneRow_append]
    exact ⟨⟨typeName_oneRow _, by decide⟩, (params p hp).inline.oneRow⟩
  refine .join ⟨?_, ?_⟩ ⟨by decide, rfl⟩
  · simp only [oneRow_append]
    exact ⟨⟨⟨⟨⟨by decide, typeName_oneRow _⟩, by decide⟩, name.inline.oneRow⟩, by decide⟩, list⟩
  · simp only [String.append_assoc]
    exact starts_append rfl _

theorem method_steps {header : Header} {body : List Node} (name : IsName header.name)
    (params : ∀ p ∈ header.params, IsName p.name) (h : ∀ n ∈ body, n.MadeFrom .inline) :
    Steps 1 1 (Java.method header body) 1 := by
  unfold Java.method
  split
  · have scanner : Edges false false "Scanner scanner = new Scanner(System.in);" := ⟨by decide, rfl, rfl⟩
    have close : Edges false false Java.closeScanner := ⟨by decide, rfl, rfl⟩
    have head : Edges false true "public static void main(String[] args) \x7b" := ⟨by decide, rfl, rfl⟩
    have inside := body_steps true 2 fun n hn => h n (withoutFinalReturn_subset body hn)
    have whole := Steps.enclosed head ((((Steps.plain scanner).append inside).append (.plain close)).mono (by decide))
    simpa using whole
  · exact .enclosed (methodHead_edges name params) ((body_steps false 2 h).mono (by decide))

/-- The lines of a member stand inside the class. -/
theorem member_steps {m : Java.Member} (h : MemberFrom .inline m) : Steps 1 1 m.lines 1 := by
  cases m with
  | field type name init =>
    exact .plain (.enclose ⟨by decide, rfl⟩ (declaration_oneRow type h.1 h.2) ⟨by decide, rfl⟩)
  | method header body => exact method_steps h.1 h.2.1 h.2.2
  | initializer body => exact .enclosed ⟨by decide, rfl, rfl⟩ ((body_steps false 2 h).mono (by decide))

theorem member_lines_ne_nil (m : Java.Member) : m.lines ≠ [] := by
  cases m with
  | field => exact List.cons_ne_nil _ _
  | method header body =>
    show Java.method header body ≠ []
    unfold Java.method
    split <;> simp
  | initializer => exact List.cons_ne_nil _ _

theorem memberItems_framed {ms : List Java.Member} (h : ∀ m ∈ ms, MemberFrom .inline m) :
    Framed 1 1 (Java.memberItems ms) 1 := by
  fun_induction Java.memberItems ms with
  | case1 => exact .nil
  | case2 m => exact .lines (member_steps (List.forall_mem_singleton.mp h))
  | case3 m next more ih =>
    obtain ⟨here, later⟩ := List.forall_mem_cons.mp h
    have steps := member_steps here
    refine Framed.append ?_ (ih later)
    split
    · rw [List.append_nil]
      exact .lines steps
    · exact .linesGap steps (member_lines_ne_nil m) (Nat.le_refl 1) 1

/-! ### Programs -/

/-- What stands before the class of a program. -/
def headerItems (body : List Node) : List Item :=
  if body.any Node.isMain then [.line ⟨0, "import java.util.Scanner;"⟩, .gap 1] else []

theorem headerItems_framed (body : List Node) : Framed 0 0 (headerItems body) 0 := by
  have scanner : Steps 0 0 [⟨0, "import java.util.Scanner;"⟩] 0 := .plain ⟨by decide, rfl, rfl⟩
  unfold headerItems
  split
  · exact .linesGap scanner (List.cons_ne_nil _ _) (Nat.le_refl 0) 1
  · exact .nil

theorem headerItems_flat (body : List Node) : ∀ part, part <+: itemRows (headerItems body) → count part = 0 := by
  unfold headerItems
  split
  · have all : ∀ part ∈ ["import java.util.Scanner;".toList, []].inits, count part = 0 := by decide
    intro part initial
    exact all part ((List.mem_inits part _).mpr initial)
  · intro part initial
    rw [List.prefix_nil.mp initial]
    rfl

/-- The rows of a program are those of a class around its members. -/
theorem program_rows {body : List Node} (h : ∀ n ∈ body, n.MadeFrom .inline) :
    (Text.lines (Java.program body)).map String.toList =
      itemRows (headerItems body) ++ classRow :: itemRows (Java.memberItems (Java.members body)) ++ [closingRow] := by
  have members := memberItems_framed (members_from h)
  have classEdges : Edges false true "public class Main \x7b" := ⟨by decide, rfl, rfl⟩
  have opened : Framed 0 0 [.line ⟨0, "public class Main \x7b"⟩] 1 := .lines (.line classEdges (Nat.le_refl 0) .nil)
  have closed : Framed 0 1 [.line ⟨0, "\x7d"⟩] 0 := .lines (.line Steps.closingEdges (Nat.le_refl 0) .nil)
  have whole : Framed 0 0 (Java.items body) 0 := by
    rw [Java.items_eq]
    exact (((headerItems_framed body).append opened).append (members.mono (by decide))).append closed
  have classRows : itemRows [.line ⟨0, "public class Main \x7b"⟩] = [classRow] := rfl
  have closingRows : itemRows [.line ⟨0, "\x7d"⟩] = [closingRow] := rfl
  rw [Java.program, whole.text_lines, Java.items_eq]
  show itemRows (headerItems body ++ _ ++ _ ++ _) = _
  rw [itemRows_append, itemRows_append, itemRows_append, classRows, closingRows, List.append_assoc _ [classRow]]
  rfl

theorem program_bracketed {body : List Node} (h : ∀ n ∈ body, n.MadeFrom .inline) :
    Bracketed ((Text.lines (Java.program body)).map String.toList) := by
  rw [program_rows h]
  exact .of_walk (headerItems_framed body).walk (headerItems_flat body) (memberItems_framed (members_from h)).walk

/-- **Generated code is well bracketed.** If no string of the source text holds a newline,
the counter of braces is never negative while the program in the typed language is read
line by line, each line that is not blank is indented by four spaces for each level, and
the counter is back at 0 just at the last line, which closes the class. -/
theorem transpile_bracketed (source : String)
    (oneRow : ∀ t ∈ (tokenize source).tokens, t.kind = .string → '\n' ∉ t.spelling.toList) :
    Bracketed ((Text.lines (transpile source .java)).map String.toList) := by
  obtain ⟨body, tree, made⟩ := parseTokens_madeFrom (fun _ => trivial) (admits_inline oneRow)
  have output : transpile source .java = Java.program body := by
    show emit .java (parseTokens (tokenize source).tokens).tree = _
    rw [tree]
    rfl
  rw [output]
  exact program_bracketed made

/-- A field, an initializer, a chain with a block in a branch, and a string that is a brace. -/
def nestedSource : String :=
  "int g; g = 1; int main() \x7b if (g) ; else if (!g) \x7b \x7b printf(\"\x7b\"); \x7d \x7d " ++
    "else for (;;) ; return 0; \x7d"

theorem transpile_bracketed_nested :
    (∀ t ∈ (tokenize nestedSource).tokens, t.kind = .string → '\n' ∉ t.spelling.toList) ∧
      Bracketed ((Text.lines (transpile nestedSource .java)).map String.toList) := by
  have oneRow : ∀ t ∈ (tokenize nestedSource).tokens, t.kind = .string → '\n' ∉ t.spelling.toList := by decide +kernel
  exact ⟨oneRow, transpile_bracketed nestedSource oneRow⟩

end Braces
end MiniC
