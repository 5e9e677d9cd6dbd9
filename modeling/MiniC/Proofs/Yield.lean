/-
# A tree without reports keeps every word

A token list has a content: its names, numbers, strings, operators and keywords,
the words that only name a type apart. A tree has a yield: its own words in the
order in which they are written. If nothing is reported while a list without
directives is read, the content of the list is the yield of the tree: what the
parser skips, folds or drops without a report is punctuation.

The argument is one for every parser. `Reads c words c'` says that on the way from
`c` to `c'` the words are content of the tokens taken, in their order, and that they
are all of it unless something was reported. It composes, and a report answers for
words that are lost. Each parser reads the yield of its result, provided that the
parsers it calls do; the recursion then runs on the levels of nesting that are left.

So also with reports the tree has no words of its own, and none of them twice or in
another place (`parse_keeps_order`).

Key definitions: `content`, `Node.yield`, `Reads`, `Parse.Keeps`.
Key theorems: `Parse.operand_keeps`, `Parse.statement_keeps`, `Parse.statement_takes`,
`parse_keeps_content`, `parse_keeps_order`.
-/
import MiniC.Proofs.Lexeme
import MiniC.Proofs.Run

namespace MiniC

/-- A word is content: neither punctuation nor a keyword that only names a type. -/
def Lexeme.isContent : Lexeme → Bool
  | (.identifier, _) | (.number, _) | (.string, _) | (.operator, _) => true
  | (.keyword, text) => !isTypeKeyword text
  | _ => false

/-- The words of a token list that are content, in order. -/
def content (ts : List Token) : List Lexeme := (ts.map Token.lexeme).filter Lexeme.isContent

theorem content_append (ts us : List Token) : content (ts ++ us) = content ts ++ content us := by
  simp [content]

/-! ### The yield of a tree -/

/-- The word of a literal. -/
def LiteralKind.lexeme : LiteralKind → String → Lexeme
  | .string, text => (.string, text)
  | .int, text | .float, text => (.number, text)

namespace Node

open Lexeme

mutual

/-- The words of a tree in the order in which they are written. -/
def yield : Node → List Lexeme
  | .program body => yieldAll body
  | .inclusion .. => []
  | .function header body _ =>
    ident header.name :: header.params.map (fun p => ident p.name) ++ yieldAll body
  | .declare name _ none _ => [ident name]
  | .declare name _ (some init) _ => ident name :: op "=" :: yield init
  | .assign target o none _ => [ident target, op o.symbol]
  | .assign target o (some value) _ => ident target :: op o.symbol :: yield value
  | .branch condition onTrue none _ => keyword "if" :: yield condition ++ yield onTrue
  | .branch condition onTrue (some onFalse) _ =>
    keyword "if" :: yield condition ++ yield onTrue ++ keyword "else" :: yield onFalse
  | .whileLoop condition body _ => keyword "while" :: yield condition ++ yield body
  | .forLoop init condition update body _ =>
    keyword "for" :: yield? init ++ yield? condition ++ yield? update ++ yield body
  | .ret value _ => keyword "return" :: yield? value
  | .printf args _ => keyword "printf" :: yieldAll args
  | .scanf args _ => keyword "scanf" :: yieldAll args
  | .call name args _ => ident name :: yieldAll args
  | .block body _ => yieldAll body
  | .binary o left right _ => yield left ++ op o.symbol :: yield right
  | .unary o operand _ => op o.symbol :: yield operand
  | .literal value kind _ => [kind.lexeme value]
  | .identifier name _ => [ident name]

/-- The words of some trees one after the other. -/
def yieldAll : List Node → List Lexeme
  | [] => []
  | n :: ns => yield n ++ yieldAll ns

/-- The words of a tree that may be missing. -/
def yield? : Option Node → List Lexeme
  | none => []
  | some n => yield n

end

@[simp] theorem yield?_some (n : Node) : yield? (some n) = n.yield := rfl

theorem yieldAll_eq (ns : List Node) : yieldAll ns = ns.flatMap yield := by
  induction ns with
  | nil => rfl
  | cons n ns ih => rw [yieldAll, ih, List.flatMap_cons]

theorem yield?_eq (n : Option Node) : yield? n = n.toList.flatMap yield := by
  cases n with
  | none => rfl
  | some n => simp

end Node

/-! ### Reading words -/

/-- On the way from `c` to `c'` tokens are taken and reports are made; `words` are among
the content of the tokens taken, and if there is no report and no directive, they are
all of it. -/
def Reads (c : Cursor) (words : List Lexeme) (c' : Cursor) : Prop :=
  ∃ taken reports, c.rest = taken ++ c'.rest ∧ c'.log = reports ++ c.log ∧ words.Sublist (content taken) ∧
    (reports = [] → (∀ t ∈ taken, ¬t.is .delimiter "#") → content taken = words)

namespace Reads

variable {c c' c'' : Cursor} {v w : List Lexeme}

theorem refl (c : Cursor) : Reads c [] c :=
  ⟨[], [], rfl, rfl, .slnil, fun _ _ => rfl⟩

theorem trans (h : Reads c v c') (h' : Reads c' w c'') : Reads c (v ++ w) c'' := by
  obtain ⟨taken, reports, hrest, hlog, among, hwords⟩ := h
  obtain ⟨taken', reports', hrest', hlog', among', hwords'⟩ := h'
  refine ⟨taken ++ taken', reports' ++ reports, by rw [hrest, hrest', List.append_assoc],
    by rw [hlog', hlog, List.append_assoc], content_append taken taken' ▸ among.append among',
    fun none hash => ?_⟩
  obtain ⟨none', none⟩ := List.append_eq_nil_iff.mp none
  rw [content_append, hwords none fun t ht => hash t (List.mem_append_left _ ht),
    hwords' none' fun t ht => hash t (List.mem_append_right _ ht)]

/-- The tokens ahead only become fewer. -/
theorem length_le (h : Reads c w c') : c'.rest.length ≤ c.rest.length := by
  obtain ⟨taken, -, hrest, -⟩ := h
  rw [hrest, List.length_append]
  omega

/-- A report answers for words that are lost. -/
theorem report (h : Reads c v c') (problem : SyntaxProblem) (l : Location) :
    Reads c [] (c'.report problem l) := by
  obtain ⟨taken, reports, hrest, hlog, -⟩ := h
  refine ⟨taken, ⟨.parser, problem.message, l⟩ :: reports, hrest, ?_, List.nil_sublist _, fun none => ?_⟩
  · simp [Cursor.report, hlog]
  · simp at none

/-- So it does for the words read after it. -/
theorem report_trans {problem : SyntaxProblem} {l : Location} (h : Reads c v c')
    (h' : Reads (c'.report problem l) w c'') : Reads c [] c'' := by
  obtain ⟨taken, reports, hrest, hlog, -⟩ := h
  obtain ⟨taken', reports', hrest', hlog', -⟩ := h'
  refine ⟨taken ++ taken', reports' ++ ⟨.parser, problem.message, l⟩ :: reports, ?_, ?_,
    List.nil_sublist _, fun none => ?_⟩
  · rw [hrest, List.append_assoc, ← hrest', Cursor.report]
  · rw [hlog', Cursor.report, hlog, List.append_assoc, List.cons_append]
  · simp at none

theorem advance {t : Token} {ts : List Token} (h : c.rest = t :: ts) :
    Reads c (content [t]) c.advance := by
  rw [Cursor.advance_rest h]
  exact ⟨[t], [], h, rfl, List.Sublist.refl _, fun _ _ => rfl⟩

/-- The mark of a directive answers for lost words, too. -/
theorem hash {t : Token} {ts : List Token} (hrest : c.rest = t :: ts) (ht : t.is .delimiter "#")
    (h : Reads c.advance v c') : Reads c [] c' := by
  rw [Cursor.advance_rest hrest] at h
  obtain ⟨taken, reports, hrest', hlog, -⟩ := h
  refine ⟨t :: taken, reports, ?_, hlog, List.nil_sublist _, fun _ free => ?_⟩
  · rw [hrest, List.cons_append, ← hrest']
  · exact absurd ht (free t List.mem_cons_self)

theorem skipWhile (c : Cursor) (p : Token → Bool) :
    Reads c (content (c.rest.takeWhile p)) (c.skipWhile p) :=
  ⟨c.rest.takeWhile p, [], List.takeWhile_append_dropWhile.symm, rfl, List.Sublist.refl _, fun _ _ => rfl⟩

end Reads

/-- As `Reads`, with at least one token taken. -/
def Takes (c : Cursor) (words : List Lexeme) (c' : Cursor) : Prop :=
  Reads c words c' ∧ c'.rest.length < c.rest.length

namespace Takes

variable {c c' c'' : Cursor} {v w : List Lexeme}

theorem advance {t : Token} {ts : List Token} (h : c.rest = t :: ts) :
    Takes c (content [t]) c.advance := by
  refine ⟨.advance h, ?_⟩
  rw [Cursor.advance_rest h, h]
  exact Nat.lt_succ_self _

theorem trans (h : Takes c v c') (h' : Reads c' w c'') : Takes c (v ++ w) c'' :=
  ⟨h.1.trans h', Nat.lt_of_le_of_lt h'.length_le h.2⟩

theorem report (h : Takes c v c') (problem : SyntaxProblem) (l : Location) :
    Takes c [] (c'.report problem l) :=
  ⟨h.1.report problem l, h.2⟩

theorem report_trans {problem : SyntaxProblem} {l : Location} (h : Takes c v c')
    (h' : Reads (c'.report problem l) w c'') : Takes c [] c'' :=
  ⟨h.1.report_trans h', Nat.lt_of_le_of_lt h'.length_le h.2⟩

theorem hash {t : Token} {ts : List Token} (hrest : c.rest = t :: ts) (ht : t.is .delimiter "#")
    (h : Reads c.advance v c') : Takes c [] c' :=
  ⟨.hash hrest ht h, ((advance hrest).trans h).2⟩

end Takes

theorem content_of_is {t : Token} {kind : Token.Kind} {text : String} (h : t.is kind text) :
    content [t] = [(kind, text)].filter Lexeme.isContent := by
  rw [content, List.map_singleton, Token.lexeme_of_is h]

/-- Punctuation that the cursor looks at reads no words. -/
theorem Reads.punct {c : Cursor} {text : String} (h : c.looksAt .delimiter text) :
    Reads c [] c.advance := by
  obtain ⟨t, ts, hrest, ht⟩ := Cursor.exists_of_looksAt h
  have taken := Reads.advance hrest
  rw [content_of_is ht] at taken
  exact taken

theorem content_number {t : Token} (h : t.kind = .number) : content [t] = [(.number, t.spelling)] := by
  simp [content, Token.lexeme, Lexeme.isContent, h]

theorem content_string {t : Token} (h : t.kind = .string) : content [t] = [(.string, t.spelling)] := by
  simp [content, Token.lexeme, Lexeme.isContent, h]

theorem content_identifier {t : Token} (h : t.kind = .identifier) :
    content [t] = [.ident t.spelling] := by
  simp [content, Token.lexeme, Lexeme.isContent, Lexeme.ident, h]

theorem content_operator {t : Token} (h : t.kind = .operator) : content [t] = [.op t.spelling] := by
  simp [content, Token.lexeme, Lexeme.isContent, Lexeme.op, h]

theorem content_keyword {t : Token} (h : t.kind = .keyword) (notType : ¬isTypeKeyword t.spelling) :
    content [t] = [.keyword t.spelling] := by
  simp [content, Token.lexeme, Lexeme.isContent, Lexeme.keyword, h, notType]

theorem content_eq_nil {ts : List Token} (h : ∀ t ∈ ts, ¬t.lexeme.isContent) : content ts = [] := by
  simpa [content, List.filter_eq_nil_iff] using h

theorem Token.isType_not_content {t : Token} (h : t.isType) : ¬t.lexeme.isContent := by
  obtain ⟨hk, ht⟩ : t.kind = .keyword ∧ isTypeKeyword t.spelling := by simpa [isType] using h
  simp [lexeme, Lexeme.isContent, hk, ht]

/-! ### Groups -/

namespace Cursor

/-- What is left of a group stands at the front of the tokens ahead. -/
theorem leftovers_append (depth : Nat) (ts : List Token) :
    ∃ more, ts = leftovers depth ts ++ more := by
  fun_induction leftovers depth ts with
  | case1 => exact ⟨[], rfl⟩
  | case2 t ts => exact ⟨t :: ts, rfl⟩
  | case3 t ts _ depth ih => exact ih.imp fun more h => by rw [List.cons_append, ← h]
  | case4 depth t ts _ _ ih => exact ih.imp fun more h => by rw [List.cons_append, ← h]
  | case5 depth t ts => exact ⟨t :: ts, rfl⟩
  | case6 depth t ts _ _ _ ih => exact ih.imp fun more h => by rw [List.cons_append, ← h]

/-- Skipping tokens with a report for each reads no words. -/
theorem skip_reads (problem : Token → SyntaxProblem) :
    ∀ (ts : List Token) (c : Cursor) (more : List Token), c.rest = ts ++ more →
      Reads c [] (ts.foldl (fun c t => c.advance.report (problem t) t.location) c)
  | [], c, _, _ => .refl c
  | t :: ts, c, more, h => by
    have step : Reads c [] (c.advance.report (problem t) t.location) := (Reads.advance h).report _ _
    refine step.trans (skip_reads problem ts _ more ?_)
    simp [report, advance_rest h]

theorem closeGroup_reads (c : Cursor) : Reads c [] c.closeGroup := by
  have skipped : Reads c [] c.skipLeftovers := by
    obtain ⟨more, h⟩ := leftovers_append 0 c.rest
    exact skip_reads .skippedInGroup _ c more h
  unfold closeGroup
  simp only
  split
  · next looks => exact skipped.trans (.punct looks)
  · exact skipped

end Cursor

namespace Parse

open Lexeme

/-- The parser reads the words of what it gives. -/
def Keeps (p : Parse (Option Node)) : Prop :=
  ∀ c, Ensures p c fun n c' => Reads c (Node.yield? n) c'

theorem Keeps.reads {p : Parse (Option Node)} (h : Keeps p) {c : Cursor} {n : Option Node}
    (found : (p c).1 = n) : Reads c (Node.yield? n) (p c).2 := by
  subst found
  exact h c

/-- So it reads the words of an item of a list. -/
theorem Keeps.item {p : Parse (Option Node)} (h : Keeps p) (c : Cursor) :
    Ensures p c fun n c' => Reads c (n.toList.flatMap Node.yield) c' := by
  refine (h c).mono fun n c' read => ?_
  rwa [← Node.yield?_eq]

/-! ### Small parsers -/

theorem accept_reads (kind : Token.Kind) (text : String) (c : Cursor) :
    Ensures (accept kind text) c fun found c' =>
      Reads c (if found then [(kind, text)].filter isContent else []) c' := by
  unfold Ensures accept
  split
  · next looks =>
    obtain ⟨t, ts, hrest, ht⟩ := Cursor.exists_of_looksAt looks
    rw [if_pos rfl, ← content_of_is ht]
    exact .advance hrest
  · exact .refl c

theorem acceptDelimiter_reads (text : String) (c : Cursor) :
    Ensures (acceptDelimiter text) c fun _ c' => Reads c [] c' := by
  refine (accept_reads .delimiter text c).mono fun found c' h => ?_
  cases found <;> exact h

theorem acceptKind_reads (kind : Token.Kind) (c : Cursor) :
    Ensures (acceptKind kind) c fun found c' =>
      Reads c (content found.toList) c' ∧ ∀ t ∈ found, t.kind = kind := by
  unfold Ensures acceptKind
  split
  · exact ⟨.refl c, by simp⟩
  · next t ts hrest =>
    split
    · next hk => exact ⟨.advance hrest, by simpa using hk⟩
    · exact ⟨.refl c, by simp⟩

theorem closeGroup_reads (c : Cursor) : Ensures closeGroup c fun _ c' => Reads c [] c' :=
  c.closeGroup_reads

theorem tooDeep_takes {c : Cursor} {t : Token} {ts : List Token} (hrest : c.rest = t :: ts) :
    Ensures tooDeep c fun n c' => Takes c (Node.yield? n) c' := by
  unfold tooDeep
  refine .bind_eq (peek_cons hrest) ?_
  exact .bind_eq rfl (.bind_eq rfl (.pure ((Takes.advance hrest).report _ _)))

theorem tooDeep_keeps : Keeps tooDeep := by
  intro c
  cases hrest : c.rest with
  | nil =>
    unfold tooDeep
    exact .peek (fun _ => .pure (.refl c)) fun t ts h => by simp [h] at hrest
  | cons t ts => exact (tooDeep_takes hrest).mono fun _ _ read => read.1

/-! ### Expressions -/

theorem numberKind_lexeme (text : String) : (numberKind text).lexeme text = (.number, text) := by
  unfold numberKind
  split <;> rfl

/-- An operator and its right operand. -/
theorem operator_reads {level : Nat} {operand : Parse (Option Node)} (h : Keeps operand)
    {c : Cursor} {t : Token} {ts : List Token} (hrest : c.rest = t :: ts) {o : BinOp}
    (ho : operatorOf level t = some o) {right : Node}
    (hright : (operand c.advance).1 = some right) :
    Reads c (op o.symbol :: right.yield) (operand c.advance).2 := by
  obtain ⟨hk, hs, -⟩ := operatorOf_some ho
  have taken := Reads.advance hrest
  rw [content_operator hk, hs] at taken
  exact taken.trans (h.reads hright)

/-- A chain of operators reads what it adds to its left operand. -/
theorem chain_reads (level : Nat) {operand : Parse (Option Node)} (h : Keeps operand)
    (left : Node) (c : Cursor) :
    Ensures (chain level operand left) c fun n c' =>
      ∃ words, n.yield = left.yield ++ words ∧ Reads c words c' := by
  unfold Ensures chain
  fun_induction chain.go level operand left c with
  | case1 => exact ⟨[], by simp, .refl _⟩
  | case2 => exact ⟨[], by simp, .refl _⟩
  | case3 left c t ts hrest o ho found missing =>
    exact ⟨[], by simp, ((Reads.advance hrest).trans (h.reads missing)).report _ _⟩
  | case4 left c t ts hrest o ho found right hright _ ih =>
    obtain ⟨words, hyield, hreads⟩ := ih
    refine ⟨op o.symbol :: right.yield ++ words, ?_, (operator_reads h hrest ho hright).trans hreads⟩
    rw [hyield, Node.yield]
    simp
  | case5 left c t ts hrest o ho found right hright _ =>
    exact ⟨op o.symbol :: right.yield, by rw [Node.yield], operator_reads h hrest ho hright⟩

theorem binaryLevel_keeps (level : Nat) {operand : Parse (Option Node)} (h : Keeps operand) :
    Keeps (binaryLevel level operand) := by
  intro c
  unfold binaryLevel
  refine .bind (h c) fun n c1 read => ?_
  cases n with
  | none => exact .pure read
  | some left =>
    refine .bind (chain_reads level h left c1) fun n c2 ⟨words, hyield, more⟩ => .pure ?_
    rw [Node.yield?, hyield]
    exact read.trans more

theorem tier_keeps {operand : Parse (Option Node)} (h : Keeps operand) :
    ∀ k, Keeps (tier operand k)
  | 0 => h
  | k + 1 => binaryLevel_keeps (6 - k) (tier_keeps h k)

theorem argumentsOver_reads {expression : Parse (Option Node)} (h : Keeps expression)
    (c : Cursor) :
    Ensures (argumentsOver expression) c fun args c' => Reads c (Node.yieldAll args) c' := by
  unfold Ensures argumentsOver
  fun_induction argumentsOver.go expression c with
  | case1 c found missing => exact h.reads missing
  | case2 c found arg harg comma _ more ih => exact (h.reads harg).trans ((Reads.punct comma).trans ih)
  | case3 c found arg harg comma _ => exact (h.reads harg).trans (.punct comma)
  | case4 c found arg harg _ => exact (h.reads harg).trans (.refl _)

theorem argumentList_reads {expression : Parse (Option Node)} (h : Keeps expression)
    (c : Cursor) :
    Ensures (argumentList expression) c fun args c' => Reads c (Node.yieldAll args) c' := by
  unfold argumentList
  refine .bind (acceptDelimiter_reads "(" c) fun _ c1 opened => ?_
  refine .bind_eq rfl ?_
  split
  · refine .bind_eq rfl ?_
    exact .bind (closeGroup_reads c1) fun _ c2 closed => .pure (opened.trans closed)
  · refine .bind (argumentsOver_reads h c1) fun args c2 read => ?_
    refine .bind (closeGroup_reads c2) fun _ c3 closed => .pure ?_
    simpa using (opened.trans read).trans closed

theorem primary_keeps {expression : Parse (Option Node)} (h : Keeps expression) :
    Keeps (primary expression) := by
  intro c
  unfold primary
  refine .peek (fun _ => .pure (.refl c)) fun t ts hrest => ?_
  have taken := Reads.advance hrest
  dsimp only
  split
  · next hk =>
    rw [content_number hk] at taken
    refine .bind_eq rfl (.pure ?_)
    rwa [Node.yield?, Node.yield, numberKind_lexeme]
  · next hk =>
    rw [content_string hk] at taken
    exact .bind_eq rfl (.pure taken)
  · next hk =>
    rw [content_identifier hk] at taken
    refine .bind_eq rfl (.bind_eq rfl ?_)
    split
    · exact .bind (argumentList_reads h _) fun args c1 read => .pure (taken.trans read)
    · exact .pure taken
  · split
    · next ht =>
      rw [content_of_is ht] at taken
      refine .bind_eq rfl ?_
      refine .bind (h _) fun inner c1 read => ?_
      refine .bind (closeGroup_reads c1) fun _ c2 closed => .pure ?_
      simpa [isContent] using (taken.trans read).trans closed
    · exact .pure (.refl c)
  · exact .pure (.refl c)

theorem prefixed_keeps {operand : Parse (Option Node)} (h : Keeps operand) :
    Keeps (prefixed operand) := by
  have hprimary : Keeps (primary (expressionOver operand)) := primary_keeps (tier_keeps h 6)
  intro c
  unfold prefixed
  refine .peek (fun _ => .pure (.refl c)) fun t ts hrest => ?_
  dsimp only
  split
  · next hk =>
    split
    · exact .pure (.refl c)
    · next o ho =>
      have taken := Reads.advance hrest
      rw [content_operator hk, UnaryOp.ofSymbol?_eq_some_iff.mp ho] at taken
      refine .bind_eq rfl ?_
      -- both kinds of operand are read alike
      have rest : ∀ inner c1, Reads c.advance (Node.yield? inner) c1 →
          Ensures (match inner with
            | none => do
              report (.missingOperand o) t.location
              return none
            | some inner => return some (.unary o inner t.location)) c1
            fun n c' => Reads c (Node.yield? n) c' := by
        intro inner c1 read
        cases inner with
        | none => exact .bind_eq rfl (.pure ((taken.trans read).report _ _))
        | some inner => exact .pure (taken.trans read)
      split
      · exact .bind (hprimary _) rest
      · exact .bind (h _) rest
  · exact hprimary c

/-- Operands keep their words, however many levels are left. -/
theorem operand_keeps : ∀ levels, Keeps (operand levels)
  | 0 => tooDeep_keeps
  | levels + 1 => fun _ => .nested (prefixed_keeps (operand_keeps levels) _)

/-! ### An expression that starts with a name takes it -/

/-- The parser keeps its words, and takes a name at which it starts. -/
structure TakesNames (p : Parse (Option Node)) : Prop where
  keeps : Keeps p
  takes : ∀ {c : Cursor} {t : Token} {ts : List Token}, c.rest = t :: ts → t.kind = .identifier →
    Ensures p c fun n c' => Takes c (Node.yield? n) c'

theorem tier_takesNames {operand : Parse (Option Node)} (h : TakesNames operand) :
    ∀ k, TakesNames (tier operand k)
  | 0 => h
  | k + 1 => by
    refine ⟨tier_keeps h.keeps (k + 1), fun {c t ts} hrest hk => ?_⟩
    unfold tier binaryLevel
    refine .bind ((tier_takesNames h k).takes hrest hk) fun n c1 read => ?_
    cases n with
    | none => exact .pure read
    | some left =>
      refine .bind (chain_reads (6 - k) (tier_keeps h.keeps k) left c1) ?_
      rintro n c2 ⟨words, hyield, more⟩
      refine .pure ?_
      rw [Node.yield?, hyield]
      exact read.trans more

theorem primary_takesNames {expression : Parse (Option Node)} (h : Keeps expression) :
    TakesNames (primary expression) := by
  refine ⟨primary_keeps h, fun {c t ts} hrest hk => ?_⟩
  have taken := Takes.advance hrest
  rw [content_identifier hk] at taken
  unfold primary
  refine .bind_eq (peek_cons hrest) ?_
  simp only [hk]
  refine .bind_eq rfl (.bind_eq rfl ?_)
  split
  · exact .bind (argumentList_reads h _) fun args c1 read => .pure (taken.trans read)
  · exact .pure taken

theorem operand_takesNames : ∀ levels, TakesNames (operand levels)
  | 0 => ⟨operand_keeps 0, fun hrest _ => tooDeep_takes hrest⟩
  | levels + 1 => by
    refine ⟨operand_keeps (levels + 1), fun {c t ts} hrest hk => ?_⟩
    unfold operand prefixed
    refine .nested (.bind_eq (peek_cons hrest) ?_)
    simp only [hk, reduceCtorEq, if_false]
    exact (primary_takesNames (tier_keeps (operand_keeps levels) 6)).takes hrest hk

theorem expression_takesNames (levels : Nat) : TakesNames (expression levels) :=
  tier_takesNames (operand_takesNames levels) 6

/-! ### Lists of items -/

/-- A list of items reads the words of its items, if each item does. -/
theorem collectUntil_reads {α : Type} (stop : Token → Bool) {item : Parse (Option α)}
    {words : α → List Lexeme}
    (h : ∀ c, Ensures item c fun a c' => Reads c (a.toList.flatMap words) c') (c : Cursor) :
    Ensures (collectUntil stop item) c fun as c' => Reads c (as.flatMap words) c' := by
  unfold Ensures collectUntil
  fun_induction collectUntil.go stop item c with
  | case1 => exact .refl _
  | case2 => exact .refl _
  | case3 c t ts hrest _ found _ more ih =>
    show Reads c ((found.1.toList ++ more.1).flatMap words) more.2
    rw [List.flatMap_append]
    exact Reads.trans (h c) ih
  | case4 c t ts hrest _ found _ => exact h c

/-! ### Declarations -/

theorem typeName_reads (c : Cursor) : Ensures typeName c fun _ c' => Reads c [] c' := by
  have taken := Reads.skipWhile c Token.isType
  have types : ∀ t ∈ c.rest.takeWhile Token.isType, t.isType := List.all_eq_true.mp List.all_takeWhile
  rw [content_eq_nil fun t ht => Token.isType_not_content (types t ht)] at taken
  exact taken

theorem typeName_takes {c : Cursor} {t : Token} {ts : List Token} (hrest : c.rest = t :: ts)
    (ht : t.isType) : Ensures typeName c fun _ c' => Takes c [] c' := by
  refine ⟨typeName_reads c, ?_⟩
  show (c.rest.dropWhile Token.isType).length < c.rest.length
  rw [hrest, List.dropWhile_cons_of_pos ht]
  exact Nat.lt_succ_of_le (List.dropWhile_suffix _).length_le

theorem acceptName_reads (c : Cursor) :
    Ensures (acceptKind .identifier) c fun name c' =>
      Reads c (name.toList.map fun t => ident t.spelling) c' := by
  refine (acceptKind_reads .identifier c).mono fun name c' ⟨read, hk⟩ => ?_
  cases name with
  | none => exact read
  | some t =>
    rw [Option.toList_some, content_identifier (hk t rfl)] at read
    exact read

theorem parameter_reads (c : Cursor) :
    Ensures parameter c fun p c' => Reads c (p.toList.flatMap fun p => [ident p.name]) c' := by
  unfold parameter
  refine .peek (fun _ => .pure (.refl c)) fun t ts hrest => ?_
  dsimp only
  split
  · next comma =>
    have taken := Reads.advance hrest
    rw [content_of_is comma] at taken
    exact .bind_eq rfl (.pure taken)
  split
  · refine .bind (typeName_reads c) fun type c1 typed => ?_
    refine .bind (acceptName_reads c1) fun name c2 named => ?_
    have read := typed.trans named
    cases name with
    | some name => exact .pure read
    | none =>
      refine .bind_eq rfl ?_
      split
      · exact .pure read
      · exact .bind_eq rfl (.pure (read.report _ _))
  · exact .bind_eq rfl (.bind_eq rfl (.pure ((Reads.advance hrest).report _ _)))

theorem parameters_reads (c : Cursor) :
    Ensures parameters c fun ps c' => Reads c (ps.map fun p => ident p.name) c' := by
  unfold parameters
  refine .bind (acceptDelimiter_reads "(" c) fun _ c1 opened => ?_
  refine .bind (collectUntil_reads endsParameters parameter_reads c1) fun ps c2 read => ?_
  refine .bind (acceptDelimiter_reads ")" c2) fun _ c3 closed => .pure ?_
  rw [← List.map_eq_flatMap] at read
  simpa using (opened.trans read).trans closed

theorem blockBody_takes {statement : Parse (Option Node)} (h : Keeps statement) {c : Cursor}
    {t : Token} {ts : List Token} (hrest : c.rest = t :: ts) (ht : t.is .delimiter openBrace) :
    Ensures (blockBody statement) c fun body c' => Takes c (Node.yieldAll body) c' := by
  have opened := Takes.advance hrest
  rw [content_of_is ht] at opened
  unfold blockBody
  refine .bind_eq (accept_cons hrest ht) ?_
  refine .bind (collectUntil_reads _ h.item _) fun body c1 read => ?_
  refine .bind (acceptDelimiter_reads closeBrace c1) fun _ c2 closed => .pure ?_
  rw [← Node.yieldAll_eq] at read
  simpa [isContent] using (opened.trans read).trans closed

theorem functionRest_reads {statement : Parse (Option Node)} (h : Keeps statement)
    (type : String) (name : Token) (c : Cursor) :
    Ensures (functionRest statement type name) c fun n c' =>
      ∃ words, n.yield = ident name.spelling :: words ∧ Reads c words c' := by
  unfold functionRest
  refine .bind (parameters_reads c) fun ps c1 read => ?_
  refine .bind_eq rfl ?_
  split
  · next looks =>
    obtain ⟨t, ts, hrest, ht⟩ := Cursor.exists_of_looksAt looks
    refine .bind (blockBody_takes h hrest ht) fun body c2 more => .pure ?_
    exact ⟨_, by rw [Node.yield]; rfl, read.trans more.1⟩
  · refine .bind (acceptDelimiter_reads ";" c1) fun _ c2 closed => .pure ?_
    exact ⟨_, by rw [Node.yield]; rfl, read.trans closed⟩

/-- The words of an initializer, its equals sign included. -/
theorem initializer_reads {expression : Parse (Option Node)} (h : Keeps expression)
    (name : Token) (c : Cursor) :
    Ensures (initializer expression name) c fun init c' =>
      Reads c (init.elim [] fun e => op "=" :: e.yield) c' := by
  unfold initializer
  refine .bind (accept_reads .operator "=" c) fun found c1 taken => ?_
  cases found with
  | false => exact .pure taken
  | true =>
    refine .bind (h c1) fun init c2 read => ?_
    cases init with
    | some value => exact .pure (taken.trans read)
    | none => exact .bind_eq rfl (.pure ((taken.trans read).report _ _))

theorem skipDeclarators_reads (name : Token) (c : Cursor) :
    Ensures (skipDeclarators name) c fun _ c' => Reads c [] c' := by
  unfold skipDeclarators
  refine .bind_eq rfl ?_
  split
  · refine .bind_eq rfl ?_
    refine .bind_eq rfl ?_
    exact .bind_eq rfl (.pure ((Reads.refl c).report_trans (.skipWhile _ _)))
  · exact .pure (.refl c)

theorem variableRest_reads {expression : Parse (Option Node)} (h : Keeps expression)
    (type : String) (name : Token) (c : Cursor) :
    Ensures (variableRest expression type name) c fun n c' =>
      ∃ words, n.yield = ident name.spelling :: words ∧ Reads c words c' := by
  unfold variableRest
  refine .bind (initializer_reads h name c) fun init c1 read => ?_
  refine .bind (skipDeclarators_reads name c1) fun _ c2 skipped => ?_
  refine .bind (acceptDelimiter_reads ";" c2) fun _ c3 closed => .pure ?_
  have all := (read.trans skipped).trans closed
  simp only [List.append_nil] at all
  refine ⟨_, ?_, all⟩
  cases init <;> rw [Node.yield] <;> rfl

section

variable {statement expression : Parse (Option Node)} {c : Cursor} {t : Token} {ts : List Token}

theorem declaration_takes (hs : Keeps statement) (he : Keeps expression) (hrest : c.rest = t :: ts)
    (ht : t.isType) :
    Ensures (declaration statement expression) c fun n c' => Takes c (Node.yield? n) c' := by
  unfold declaration
  refine .bind_eq rfl ?_
  refine .bind (typeName_takes hrest ht) fun type c1 typed => ?_
  refine .bind (acceptName_reads c1) fun name c2 named => ?_
  have read := typed.trans named
  cases name with
  | none => exact .bind_eq rfl (.pure (read.report _ _))
  | some name =>
    refine .bind_eq rfl ?_
    split
    · refine .bind (functionRest_reads hs type name c2) fun n c3 ⟨words, hyield, more⟩ => .pure ?_
      rw [Node.yield?, hyield]
      exact read.trans more
    · refine .bind (variableRest_reads he type name c2) fun n c3 ⟨words, hyield, more⟩ => .pure ?_
      rw [Node.yield?, hyield]
      exact read.trans more

/-- The library reads some words, which are those of no tree. -/
theorem library_reads (line : Nat) (c : Cursor) :
    Ensures (library line) c fun _ c' => ∃ words, Reads c words c' := by
  unfold library
  refine .bind (acceptKind_reads .string c) fun found c1 ⟨taken, _⟩ => ?_
  cases found with
  | some t => exact .pure ⟨_, taken⟩
  | none =>
    refine .bind (accept_reads .operator "<" c1) fun angle c2 opened => ?_
    have read := taken.trans opened
    cases angle with
    | true =>
      refine .bind_eq rfl ?_
      refine .bind (accept_reads .operator ">" _) fun _ c3 closed => .pure ?_
      exact ⟨_, (read.trans (.skipWhile _ _)).trans closed⟩
    | false =>
      refine .bind_eq rfl ?_
      refine .bind_eq rfl ?_
      exact .bind_eq rfl (.pure ⟨[], read.report_trans (.skipWhile _ _)⟩)

theorem directive_takes (hrest : c.rest = t :: ts) (ht : t.is .delimiter "#") :
    Ensures (directive t) c fun n c' => Takes c (Node.yield? n) c' := by
  unfold directive
  refine .bind_eq rfl ?_
  refine .bind (accept_reads .identifier "include" c.advance) fun found c1 taken => ?_
  cases found with
  | true =>
    refine .bind (library_reads _ c1) fun library c2 ⟨words, read⟩ => .pure ?_
    exact .hash hrest ht (taken.trans read)
  | false =>
    refine .bind_eq rfl ?_
    refine .bind_eq rfl (.pure ?_)
    exact .hash hrest ht (taken.report_trans (.skipWhile _ _))

/-! ### Statements -/

theorem body_reads (h : Keeps statement) (c : Cursor) :
    Ensures (body statement) c fun n c' => Reads c n.yield c' := by
  unfold body
  refine .bind_eq rfl ?_
  refine .bind (h c) fun n c1 read => .pure ?_
  cases n with
  | none => exact read
  | some n => exact read

theorem condition_keeps (h : Keeps expression) : Keeps (condition expression) := by
  intro c
  unfold condition
  refine .bind (acceptDelimiter_reads "(" c) fun _ c1 opened => ?_
  refine .bind (h c1) fun n c2 read => ?_
  refine .bind (closeGroup_reads c2) fun _ c3 closed => .pure ?_
  simpa using (opened.trans read).trans closed

theorem branchStatement_takes (hs : Keeps statement) (he : Keeps expression)
    (hrest : c.rest = t :: ts) (ht : content [t] = [keyword "if"]) (start : Location) :
    Ensures (branchStatement statement expression start) c fun n c' =>
      Takes c (Node.yield? n) c' := by
  have taken := Takes.advance hrest
  rw [ht] at taken
  unfold branchStatement
  refine .bind_eq rfl ?_
  refine .bind (condition_keeps he _) fun test c1 tested => ?_
  refine .bind (body_reads hs c1) fun onTrue c2 yes => ?_
  refine .bind (accept_reads .keyword "else" c2) fun found c3 other => ?_
  have read := ((taken.trans tested).trans yes).trans other
  -- with its other branch or without, a test that is missing is reported last
  cases found with
  | true =>
    refine .bind_map (body_reads hs c3) fun onFalse c4 no => ?_
    have read := read.trans no
    cases test with
    | none => exact .bind_eq rfl (.pure (read.report _ _))
    | some test =>
      refine .pure ?_
      rw [Node.yield?, Node.yield]
      simpa [isContent, keyword, isTypeKeyword, typeKeywords] using read
  | false =>
    refine .bind_eq rfl ?_
    cases test with
    | none => exact .bind_eq rfl (.pure (read.report _ _))
    | some test =>
      refine .pure ?_
      rw [Node.yield?, Node.yield]
      simpa using read

theorem whileStatement_takes (hs : Keeps statement) (he : Keeps expression)
    (hrest : c.rest = t :: ts) (ht : content [t] = [keyword "while"]) (start : Location) :
    Ensures (whileStatement statement expression start) c fun n c' =>
      Takes c (Node.yield? n) c' := by
  have taken := Takes.advance hrest
  rw [ht] at taken
  unfold whileStatement
  refine .bind_eq rfl ?_
  refine .bind (condition_keeps he _) fun test c1 tested => ?_
  refine .bind (body_reads hs c1) fun repeated c2 more => ?_
  have read := (taken.trans tested).trans more
  cases test with
  | none => exact .bind_eq rfl (.pure (read.report _ _))
  | some test => exact .pure read

theorem nameStatement_takes (he : TakesNames expression) (hrest : c.rest = t :: ts)
    (hk : t.kind = .identifier) :
    Ensures (nameStatement expression) c fun n c' => Takes c (Node.yield? n) c' := by
  have plain : Ensures (nameStatement.plain expression) c fun n c' =>
      Takes c (Node.yield? n) c' := by
    unfold nameStatement.plain
    refine .bind (he.takes hrest hk) fun n c1 read => ?_
    refine .bind (acceptDelimiter_reads ";" c1) fun _ c2 closed => .pure ?_
    simpa using read.trans closed
  unfold nameStatement
  refine .bind_eq rfl ?_
  rw [hrest]
  cases ts with
  | nil => exact plain
  | cons operator ts =>
    dsimp only
    split
    · exact plain
    · next o ho =>
      obtain ⟨hop, symbol⟩ : operator.kind = .operator ∧ operator.spelling = o.symbol := by
        split at ho
        · next hop => exact ⟨hop, AssignOp.ofSymbol?_eq_some_iff.mp ho⟩
        · simp at ho
      have hrest' : c.advance.rest = operator :: ts := by rw [Cursor.advance_rest hrest]
      refine .bind_eq rfl ?_
      refine .bind_eq rfl ?_
      have read := (Takes.advance hrest).trans (.advance hrest')
      rw [content_identifier hk, content_operator hop, symbol] at read
      split
      · refine .bind (acceptDelimiter_reads ";" _) fun _ c1 closed => .pure ?_
        exact read.trans closed
      · refine .bind (he.keeps _) fun value c1 more => ?_
        have read := read.trans more
        cases value with
        | some value =>
          refine .bind (acceptDelimiter_reads ";" c1) fun _ c2 closed => .pure ?_
          rw [Node.yield?, Node.yield]
          simpa using read.trans closed
        | none =>
          refine .bind_eq rfl ?_
          refine .bind (acceptDelimiter_reads ";" _) fun _ c2 closed => .pure ?_
          exact read.report_trans closed

theorem forClause_keeps (hs : Keeps statement) (he : TakesNames expression) :
    Keeps (forInit.clause statement expression) := by
  intro c
  unfold forInit.clause
  refine .peek (fun _ => ?_) fun t ts hrest => ?_
  · exact .bind_eq rfl (.bind_eq rfl (.pure ((Reads.refl c).report _ _)))
  dsimp only
  split
  · next ht => exact (declaration_takes hs he.keeps hrest ht).mono fun _ _ read => read.1
  split
  · next hk => exact (nameStatement_takes he hrest hk).mono fun _ _ read => read.1
  · exact .bind_eq rfl (.pure ((Reads.refl c).report _ _))

theorem forInit_keeps (hs : Keeps statement) (he : TakesNames expression) :
    Keeps (forInit statement expression) := by
  intro c
  unfold forInit
  refine .bind (acceptDelimiter_reads ";" c) fun found c1 closed => ?_
  split
  · exact .pure closed
  refine .bind (forClause_keeps hs he c1) fun init c2 first => .bind_eq rfl ?_
  have read := closed.trans first
  split
  · split
    · exact .pure read
    · refine .bind (acceptDelimiter_reads ";" c2) fun _ c3 closed => .pure ?_
      simpa using read.trans closed
  · exact .pure read

theorem forCondition_keeps (he : Keeps expression) : Keeps (forCondition expression) := by
  intro c
  unfold forCondition
  refine .bind_eq rfl ?_
  split
  · exact .bind_eq rfl (.bind (acceptDelimiter_reads ";" c) fun _ c1 closed => .pure closed)
  · refine .bind (he c) fun test c1 read => ?_
    refine .bind (acceptDelimiter_reads ";" c1) fun _ c2 closed => .pure ?_
    simpa using read.trans closed

theorem forUpdate_keeps (he : TakesNames expression) : Keeps (forUpdate expression) := by
  intro c
  have finish : ∀ update c1, Reads c (Node.yield? update) c1 →
      Ensures (closeGroup >>= fun _ => pure update) c1 fun n c' => Reads c (Node.yield? n) c' := by
    intro update c1 read
    refine .bind (closeGroup_reads c1) fun _ c2 closed => .pure ?_
    simpa using read.trans closed
  unfold forUpdate
  refine .bind_eq rfl ?_
  split
  · exact .bind_eq rfl (finish none c (.refl c))
  · refine .peek (fun _ => .bind (he.keeps c) finish) fun t ts hrest => ?_
    dsimp only
    split
    · next hk =>
      exact .bind (nameStatement_takes he hrest hk) fun update c1 read => finish update c1 read.1
    · exact .bind (he.keeps c) finish

theorem forStatement_takes (hs : Keeps statement) (he : TakesNames expression)
    (hrest : c.rest = t :: ts) (ht : content [t] = [keyword "for"]) (start : Location) :
    Ensures (forStatement statement expression start) c fun n c' => Takes c n.yield c' := by
  have taken := Takes.advance hrest
  rw [ht] at taken
  unfold forStatement
  refine .bind_eq rfl ?_
  refine .bind (acceptDelimiter_reads "(" _) fun _ c1 opened => ?_
  refine .bind (forInit_keeps hs he c1) fun init c2 first => ?_
  refine .bind (forCondition_keeps he.keeps c2) fun test c3 second => ?_
  refine .bind (forUpdate_keeps he c3) fun update c4 third => ?_
  refine .bind (body_reads hs c4) fun repeated c5 more => .pure ?_
  rw [Node.yield]
  simpa using ((((taken.trans opened).trans first).trans second).trans third).trans more

theorem returnStatement_takes (he : Keeps expression) (hrest : c.rest = t :: ts)
    (ht : content [t] = [keyword "return"]) (start : Location) :
    Ensures (returnStatement expression start) c fun n c' => Takes c n.yield c' := by
  have taken := Takes.advance hrest
  rw [ht] at taken
  have finish : ∀ value c1, Reads c.advance (Node.yield? value) c1 →
      Ensures (acceptDelimiter ";" >>= fun _ => pure (Node.ret value start)) c1
        fun n c' => Takes c n.yield c' := by
    intro value c1 read
    refine .bind (acceptDelimiter_reads ";" c1) fun _ c2 closed => .pure ?_
    rw [Node.yield]
    simpa using (taken.trans read).trans closed
  unfold returnStatement
  refine .bind_eq rfl ?_
  refine .peek (fun _ => .bind_eq rfl (finish none _ (.refl _))) fun u us _ => ?_
  dsimp only
  split
  · exact .bind_eq rfl (finish none _ (.refl _))
  · exact .bind (he _) finish

theorem ioArguments_takes (he : Keeps expression) (hrest : c.rest = t :: ts) :
    Ensures (ioArguments expression) c fun args c' =>
      Takes c (content [t] ++ Node.yieldAll args) c' := by
  have taken := Takes.advance hrest
  unfold ioArguments
  refine .bind_eq rfl ?_
  refine .bind (argumentList_reads he _) fun args c1 read => ?_
  refine .bind (acceptDelimiter_reads ";" c1) fun _ c2 closed => .pure ?_
  simpa using (taken.trans read).trans closed

/-- What is skipped reads no words: it is a lone semicolon, or it is reported. -/
theorem skip_takes (hrest : c.rest = t :: ts) :
    Ensures (skip t) c fun _ c' => Takes c [] c' := by
  have taken := Takes.advance hrest
  unfold skip
  refine .bind_eq rfl ?_
  split
  · next semicolon =>
    rw [content_of_is semicolon] at taken
    exact .pure taken
  · exact taken.report _ _

theorem keywordStatement_takes (hs : Keeps statement) (he : TakesNames expression)
    (hrest : c.rest = t :: ts) (hk : t.kind = .keyword) :
    Ensures (keywordStatement statement expression t) c fun n c' =>
      Takes c (Node.yield? n) c' := by
  unfold keywordStatement
  split
  · next ht => exact declaration_takes hs he.keeps hrest ht
  next notType =>
  have word : content [t] = [keyword t.spelling] :=
    content_keyword hk fun h => notType (by simp [Token.isType, hk, h])
  split
  · next text => exact branchStatement_takes hs he.keeps hrest (by rw [word, text]) _
  split
  · next text => exact whileStatement_takes hs he.keeps hrest (by rw [word, text]) _
  split
  · next text =>
    exact .map (forStatement_takes hs he hrest (by rw [word, text]) _) fun n c' read => read
  split
  · next text =>
    exact .map (returnStatement_takes he.keeps hrest (by rw [word, text]) _) fun n c' read => read
  split
  · next text =>
    refine .bind (ioArguments_takes he.keeps hrest) fun args c1 read => .pure ?_
    rw [word, text] at read
    exact read
  split
  · next text =>
    refine .bind (ioArguments_takes he.keeps hrest) fun args c1 read => .pure ?_
    rw [word, text] at read
    exact read
  · exact .bind (skip_takes hrest) fun _ c1 read => .pure read

theorem statementFrom_takes (hs : Keeps statement) (he : TakesNames expression)
    (hrest : c.rest = t :: ts) :
    Ensures (statementFrom statement expression t) c fun n c' => Takes c (Node.yield? n) c' := by
  unfold statementFrom
  split
  · split
    · next ht => exact directive_takes hrest ht
    split
    · next ht => exact .bind (blockBody_takes hs hrest ht) fun body c1 read => .pure read
    · exact .bind (skip_takes hrest) fun _ c1 read => .pure read
  · next hk => exact keywordStatement_takes hs he hrest hk
  · next hk => exact nameStatement_takes he hrest hk
  · exact .bind (skip_takes hrest) fun _ c1 read => .pure read

end

/-! ### Programs -/

/-- Statements keep their words, however many levels are left. -/
theorem statement_keeps : ∀ levels, Keeps (statement levels)
  | 0 => tooDeep_keeps
  | levels + 1 => by
    intro c
    unfold statement
    refine .peek (fun _ => .pure (.refl c)) fun t ts hrest => ?_
    have taken := statementFrom_takes (c := { c with depth := c.depth + 1 }) (statement_keeps levels)
      (expression_takesNames levels) hrest
    exact .nested (taken.mono fun _ _ read => read.1)

/-- Away from the end of the input a statement takes at least one token. -/
theorem statement_takes {c : Cursor} {t : Token} {ts : List Token} (hrest : c.rest = t :: ts) :
    ∀ levels, Ensures (statement levels) c fun n c' => Takes c (Node.yield? n) c'
  | 0 => tooDeep_takes hrest
  | levels + 1 => by
    unfold statement
    refine .bind_eq (peek_cons hrest) (.nested ?_)
    exact statementFrom_takes (statement_keeps levels) (expression_takesNames levels) hrest

/-- Statements are read until none is left. -/
theorem collectUntil_exhausts {α : Type} {item : Parse (Option α)}
    (h : ∀ {c : Cursor} {t : Token} {ts : List Token}, c.rest = t :: ts →
      Ensures item c fun _ c' => c'.rest.length < c.rest.length) (c : Cursor) :
    Ensures (collectUntil (fun _ => false) item) c fun _ c' => c'.rest = [] := by
  unfold Ensures collectUntil
  fun_induction collectUntil.go (fun _ => false) item c with
  | case1 c hrest => exact hrest
  | case2 c t ts hrest stop => simp at stop
  | case3 c t ts hrest _ found _ more ih => exact ih
  | case4 c t ts hrest _ found stuck => exact absurd (h hrest) stuck

/-- A program reads all the tokens ahead. -/
theorem program_yields (c : Cursor) :
    Ensures program c fun n c' => Reads c n.yield c' ∧ c'.rest = [] := by
  have all : Ensures (collectUntil (fun _ => false) (statement maxNesting)) c fun body c' =>
      Reads c (body.flatMap Node.yield) c' ∧ c'.rest = [] :=
    ⟨collectUntil_reads _ (statement_keeps maxNesting).item c, collectUntil_exhausts (fun hrest =>
      (statement_takes hrest maxNesting).mono fun _ _ taken => taken.2) c⟩
  unfold program
  refine .bind all fun body c1 ⟨read, done⟩ => .pure ⟨?_, done⟩
  rwa [Node.yield, Node.yieldAll_eq]

/-- Without a report and a directive it reads all their content. -/
theorem program_reads (c : Cursor) :
    Ensures program c fun n c' => (∃ taken reports, c.rest = taken ++ c'.rest ∧ c'.log = reports ++ c.log ∧
      (reports = [] → (∀ t ∈ taken, ¬t.is .delimiter "#") → content taken = n.yield)) ∧ c'.rest = [] := by
  refine (program_yields c).mono fun n c' ⟨read, done⟩ => ⟨?_, done⟩
  obtain ⟨taken, reports, hrest, hlog, -, words⟩ := read
  exact ⟨taken, reports, hrest, hlog, words⟩

end Parse

theorem content_cons (t : Token) (ts : List Token) : content (t :: ts) = content [t] ++ content ts :=
  content_append [t] ts

/-- Newline tokens have no content, so dropping them changes none. -/
theorem content_dropNewlines (tokens : List Token) :
    content ((tokens.filter (·.kind ≠ .newline)).takeWhile (·.kind ≠ .endOfInput)) =
      content (tokens.takeWhile (·.kind ≠ .endOfInput)) := by
  induction tokens with
  | nil => rfl
  | cons t ts ih =>
    by_cases newline : t.kind = .newline
    · have silent : content [t] = [] := by simp [content, Token.lexeme, Lexeme.isContent, newline]
      rw [List.filter_cons_of_neg (by simp [newline]), ih,
        List.takeWhile_cons_of_pos (by simp [newline]), content_cons, silent, List.nil_append]
    · rw [List.filter_cons_of_pos (by simp [newline])]
      by_cases last : t.kind = .endOfInput
      · rw [List.takeWhile_cons_of_neg (by simp [last]), List.takeWhile_cons_of_neg (by simp [last])]
      · rw [List.takeWhile_cons_of_pos (by simp [last]), List.takeWhile_cons_of_pos (by simp [last]),
          content_cons, ih, ← content_cons]

/-- **The words of a tree are words of its tokens, in their order**, whatever is reported. -/
theorem parse_keeps_order (tokens : List Token) : (parseTokens tokens).tree.yield.Sublist (content tokens) := by
  obtain ⟨⟨taken, _, hrest, -, among, -⟩, done⟩ := Parse.program_yields (Cursor.ofTokens tokens [])
  rw [done, List.append_nil] at hrest
  have ahead : taken.Sublist tokens := by
    rw [← hrest]
    exact (List.takeWhile_sublist _).trans List.filter_sublist
  exact among.trans ((ahead.map Token.lexeme).filter Lexeme.isContent)

/-- **A tree without reports keeps every word.** For a token list without
directives that is read without a report, the content in front of the first
end-of-input mark is the yield of the tree. -/
theorem parse_keeps_content (tokens : List Token) (free : ∀ t ∈ tokens, ¬t.is .delimiter "#")
    (clean : (parseTokens tokens).diagnostics = []) :
    content (tokens.takeWhile (·.kind ≠ .endOfInput)) = (parseTokens tokens).tree.yield := by
  obtain ⟨⟨taken, reports, hrest, hlog, words⟩, done⟩ :=
    Parse.program_reads (Cursor.ofTokens tokens [])
  rw [done, List.append_nil] at hrest
  have silent : reports = [] := by
    rw [parseTokens_diagnostics, Cursor.diagnostics, List.reverse_eq_nil_iff, hlog] at clean
    exact (List.append_eq_nil_iff.mp clean).1
  have inside : ∀ t ∈ taken, t ∈ tokens := by
    rw [← hrest]
    exact fun t ht => (List.mem_filter.mp ((List.takeWhile_sublist _).mem ht)).1
  calc content (tokens.takeWhile (·.kind ≠ .endOfInput))
      = content (Cursor.ofTokens tokens []).rest := (content_dropNewlines tokens).symm
    _ = content taken := by rw [hrest]
    _ = (parseTokens tokens).tree.yield := words silent fun t ht => free t (inside t ht)

/-- The tokens of `if (x < 1) ; else x++`. -/
def branchTokens : List Token :=
  [⟨.keyword, some "if", ⟨1, 1⟩⟩, ⟨.delimiter, some "(", ⟨1, 4⟩⟩, ⟨.identifier, some "x", ⟨1, 5⟩⟩,
   ⟨.operator, some "<", ⟨1, 7⟩⟩, ⟨.number, some "1", ⟨1, 9⟩⟩, ⟨.delimiter, some ")", ⟨1, 10⟩⟩,
   ⟨.delimiter, some ";", ⟨1, 12⟩⟩, ⟨.keyword, some "else", ⟨1, 14⟩⟩,
   ⟨.identifier, some "x", ⟨1, 19⟩⟩, ⟨.operator, some "++", ⟨1, 20⟩⟩, .endAt ⟨1, 22⟩]

open Lexeme in
theorem parse_keeps_content_branch :
    (∀ t ∈ branchTokens, ¬t.is .delimiter "#") ∧ (parseTokens branchTokens).diagnostics = [] ∧
      (parseTokens branchTokens).tree.yield =
        [keyword "if", ident "x", op "<", (.number, "1"), keyword "else", ident "x", op "++"] := by
  have free : ∀ t ∈ branchTokens, ¬t.is .delimiter "#" := by decide
  have clean : (parseTokens branchTokens).diagnostics = [] := by decide +kernel
  refine ⟨free, clean, ?_⟩
  rw [← parse_keeps_content branchTokens free clean]
  decide

end MiniC
