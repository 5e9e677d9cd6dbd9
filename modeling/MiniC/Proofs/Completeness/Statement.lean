/-
# The parser reads every statement of the grammar

As for expressions: if the words ahead start with a statement of the grammar, the
parser takes its words, reports nothing and gives its tree, up to places
(`Parse.statement_completes`). All that must not follow is an `else` behind an open
statement, and no statement starts with one (`Grammar.Begins`).

Key definitions: `Grammar.Begins`, `Parse.NoElse`.
Key theorems: `Parse.declaration_completes`, `Parse.many_completes`, `Parse.statement_completes`,
`Parse.program_completes`.
-/
import MiniC.Proofs.Completeness.Expression

namespace MiniC

open Lexeme

namespace Grammar

/-- The phrases have a first word, which neither continues a branch nor closes a block. -/
def Begins (P : Phrase) : Prop :=
  ∀ {ls : List Lexeme} {n : Node}, P ls n →
    ∃ l more, ls = l :: more ∧ l ≠ keyword "else" ∧ l ≠ punct closeBrace

theorem declaration_start {Statement Expr : Phrase} {ls : List Lexeme} {n : Node}
    (h : Declaration Statement Expr ls n) :
    ∃ type more, ls = keyword type :: more ∧ isTypeKeyword type := by
  cases h with
  | prototype h _ _ typed => exact ⟨_, _, rfl, typed.1⟩
  | definition h _ _ typed _ => exact ⟨_, _, rfl, typed.1⟩
  | declared _ _ _ typed => exact ⟨_, _, rfl, typed⟩
  | initialized _ _ _ typed _ => exact ⟨_, _, rfl, typed⟩

theorem declaration_head {Statement Expr : Phrase} {ls : List Lexeme} {n : Node}
    (h : Declaration Statement Expr ls n) (more : List Lexeme) :
    (ls ++ more).head? ≠ some (punct ";") := by
  obtain ⟨type, rest, rfl, -⟩ := declaration_start h
  simp [keyword, punct]

theorem nameClause_start {Expr : Phrase} {ls : List Lexeme} {n : Node} (h : NameClause Expr ls n) :
    ∃ x more, ls = ident x :: more := by
  cases h with
  | _ => exact ⟨_, _, rfl⟩

theorem sentence_begins {Statement Expr : Phrase} : Begins (Sentence Statement Expr) := by
  intro ls n h
  cases h with
  | declaration h =>
    obtain ⟨type, more, rfl, typed⟩ := declaration_start h
    have notElse : type ≠ "else" := fun eq => absurd (eq ▸ typed) (by decide)
    exact ⟨_, _, rfl, fun eq => notElse (Prod.mk.inj eq).2, by simp [keyword, punct]⟩
  | clause h =>
    obtain ⟨x, more, rfl⟩ := nameClause_start h
    exact ⟨_, _, rfl, by simp [ident, keyword], by simp [ident, punct]⟩
  | _ => exact ⟨_, _, rfl, by decide, by decide⟩

theorem statement_begins : ∀ levels, Begins (Statement levels)
  | 0, _, _, h => h.elim
  | _ + 1, _, _, h => sentence_begins h

/-- No `else` heads statements one after the other. -/
theorem many_head {S : Phrase} (begins : Begins S) {ls more : List Lexeme} {ns : List Node}
    (h : Many S ls ns) (noElse : more.head? ≠ some (keyword "else")) :
    (ls ++ more).head? ≠ some (keyword "else") := by
  cases h with
  | nil => exact noElse
  | cons hn _ =>
    obtain ⟨l, rest, rfl, notElse, -⟩ := begins hn
    simpa using notElse

end Grammar

namespace Parse

open Grammar

/-- An open statement does not stand before an `else`. -/
def NoElse (n : Node) (more : List Lexeme) : Prop :=
  n.isOpen = true → more.head? ≠ some (keyword "else")

section

variable {statement expression : Parse (Option Node)} {S E : Phrase} {c : Cursor} {more : List Lexeme}

/-! ### Names and types -/

theorem typeName_words {type x : String} (h : c.words = keyword type :: ident x :: more)
    (ht : isTypeKeyword type) : typeName c = (type, c.advance) := by
  obtain ⟨t, us, hrest, hlex, hus⟩ := Cursor.rest_of_words h
  obtain ⟨u, ts, rfl, hname, -⟩ := List.map_eq_cons_iff.mp hus
  obtain ⟨hkind, rfl⟩ := Prod.mk.inj hlex
  have first : t.isType = true := by simp [Token.isType, hkind, ht]
  have second : u.isType = false := by simp [Token.isType, (Prod.mk.inj hname).1]
  have taken : c.rest.takeWhile Token.isType = [t] := by simp [hrest, first, second]
  have left : c.rest.dropWhile Token.isType = u :: ts := by simp [hrest, first, second]
  show (declaredType ((c.rest.takeWhile Token.isType).map Token.spelling), c.skipWhile Token.isType) = _
  rw [Cursor.skipWhile, taken, left, Cursor.advance_rest hrest]
  rfl

theorem acceptKind_words {kind : Token.Kind} {text : String} (h : c.words = (kind, text) :: more) :
    ∃ t, acceptKind kind c = (some t, c.advance) ∧ t.spelling = text := by
  obtain ⟨t, ts, hrest, -, hk, hs⟩ := peek_words h
  refine ⟨t, ?_, hs⟩
  unfold acceptKind
  simp only [hrest, hk, if_true]

/-- The semicolon that heads the words, if one does. -/
def semicolon (ls : List Lexeme) : List Lexeme :=
  if ls.head? = some (punct ";") then [punct ";"] else []

theorem semicolon_cons (ls : List Lexeme) : semicolon (punct ";" :: ls) = [punct ";"] := rfl

theorem semicolon_other {ls : List Lexeme} (h : ls.head? ≠ some (punct ";")) : semicolon ls = [] :=
  if_neg h

theorem acceptSemicolon (c : Cursor) :
    Ensures (acceptDelimiter ";") c fun _ c' => Spells c (semicolon c.words) c' := by
  unfold Ensures acceptDelimiter
  by_cases h : c.words.head? = some (punct ";")
  · obtain ⟨more, hc⟩ := List.head?_eq_some_iff.mp h
    rw [accept_words hc (by decide), hc, semicolon_cons]
    exact .advance hc
  · rw [accept_other (by decide) h, semicolon_other h]
    exact .refl c

/-! ### Parameters -/

theorem parameter_typed {type x : String} (h : c.words = keyword type :: ident x :: more)
    (ht : isTypeKeyword type) :
    ∃ c', parameter c = (some ⟨x, type⟩, c') ∧ Spells c [keyword type, ident x] c' := by
  obtain ⟨t, ts, hrest, hpeek, hk, hs⟩ := peek_words h
  have first := Spells.advance h
  obtain ⟨name, hname, rfl⟩ := acceptKind_words (first.ahead h)
  have comma : t.is .delimiter "," = false := by simp [Token.is, hk]
  have typed : t.isType = true := by simp [Token.isType, hk, hs, ht]
  refine ⟨c.advance.advance, ?_, first.trans (.advance (first.ahead h))⟩
  unfold parameter
  rw [bind_apply, hpeek]
  simp only [comma, typed, Bool.false_eq_true, if_false, if_true]
  rw [bind_apply, typeName_words h ht, bind_apply, hname]
  rfl

theorem parameter_comma (h : c.words = punct "," :: more) : parameter c = (none, c.advance) := by
  obtain ⟨t, ts, hrest, hpeek, hk, hs⟩ := peek_words h
  have comma : t.is .delimiter "," := Token.is_of_lexeme (by rw [Token.lexeme, hk, hs]) (by decide)
  unfold parameter
  rw [bind_apply, hpeek]
  simp only [if_pos comma]
  rfl

/-- Neither a type nor a comma ends a list of parameters. -/
theorem endsParameters_false {l : Lexeme} (h : c.words = l :: more)
    (hl : l = punct "," ∨ l.1 = .keyword) : ∃ t ts, c.rest = t :: ts ∧ endsParameters t = false := by
  obtain ⟨t, ts, hrest, rfl, -⟩ := Cursor.rest_of_words h
  refine ⟨t, ts, hrest, ?_⟩
  refine Bool.eq_false_iff.mpr fun ends => ?_
  simp only [endsParameters, Bool.or_eq_true] at ends
  rcases hl with hl | hl
  · rcases ends with (ends | ends) | ends <;> rw [Token.lexeme_of_is ends] at hl <;> simp [punct, openBrace] at hl
  · rcases ends with (ends | ends) | ends <;> rw [Token.lexeme_of_is ends] at hl <;> simp at hl

/-- The parenthesis ends the list. -/
theorem params_end (h : c.words = punct ")" :: more) :
    Ensures (collectUntil endsParameters parameter) c fun found c' => found = [] ∧ Spells c [] c' := by
  obtain ⟨t, ts, hrest, ht, -⟩ := Cursor.rest_of_words h
  have closes : endsParameters t := by
    simp [endsParameters, Token.is_of_lexeme ht (by decide)]
  unfold Ensures
  rw [collectUntil_stop parameter hrest closes]
  exact ⟨rfl, .refl c⟩

/-- One parameter, and those after it. -/
theorem params_step {type x : String} {ls : List Lexeme} {ps : List Param}
    (h : c.words = keyword type :: ident x :: more) (ht : isTypeKeyword type)
    (hps : ∀ c', Spells c [keyword type, ident x] c' →
      Ensures (collectUntil endsParameters parameter) c' fun found d => found = ps ∧ Spells c' ls d) :
    Ensures (collectUntil endsParameters parameter) c fun found c' =>
      found = ⟨x, type⟩ :: ps ∧ Spells c (keyword type :: ident x :: ls) c' := by
  obtain ⟨c1, hrun, moved⟩ := parameter_typed h ht
  obtain ⟨t, ts, hrest, goes⟩ := endsParameters_false h (.inr rfl)
  have shorter := moved.length_lt (by simp)
  unfold Ensures
  rw [collectUntil_step hrest goes hrun shorter, map_apply]
  obtain ⟨same, moved'⟩ := hps c1 moved
  exact ⟨by rw [same]; rfl, moved.trans moved'⟩

theorem params_completes :
    ∀ (ps : List Param) {c : Cursor}, (∀ p ∈ ps, isTypeKeyword p.type) →
      c.words = paramWords ps ++ punct ")" :: more →
      Ensures (collectUntil endsParameters parameter) c fun found c' =>
        found = ps ∧ Spells c (paramWords ps) c'
  | [], c, _, hc => params_end hc
  | [p], c, typed, hc =>
    params_step hc (typed p List.mem_cons_self) fun c' moved => params_end (moved.ahead hc)
  | p :: q :: ps, c, typed, hc => by
    refine params_step hc (typed p List.mem_cons_self) fun c1 moved => ?_
    have hc1 : c1.words = punct "," :: (paramWords (q :: ps) ++ punct ")" :: more) := moved.ahead hc
    have taken := Spells.advance hc1
    obtain ⟨t, ts, hrest, goes⟩ := endsParameters_false hc1 (.inl rfl)
    unfold Ensures
    rw [collectUntil_step hrest goes (parameter_comma hc1) (taken.length_lt (by simp)), map_apply]
    obtain ⟨same, moved'⟩ := params_completes (q :: ps) (fun p hp => typed p (List.mem_cons_of_mem _ hp))
      (taken.ahead hc1)
    exact ⟨by rw [same]; rfl, taken.trans moved'⟩

theorem parameters_completes {ps : List Param} (typed : ∀ p ∈ ps, isTypeKeyword p.type)
    (hc : c.words = punct "(" :: paramWords ps ++ punct ")" :: more) :
    Ensures parameters c fun found c' =>
      found = ps ∧ Spells c (punct "(" :: paramWords ps ++ [punct ")"]) c' := by
  have opened := Spells.advance hc
  have hc1 := opened.ahead hc
  unfold parameters
  refine .bind_eq (accept_words hc (by decide)) ?_
  refine .bind (params_completes ps typed hc1) ?_
  rintro _ c2 ⟨rfl, moved⟩
  have hc2 := moved.ahead hc1
  refine .bind_eq (accept_words hc2 (by decide)) (.pure ⟨rfl, ?_⟩)
  exact opened.trans (moved.trans (.advance hc2))

/-! ### Blocks -/

/-- Statements one after the other, up to where the parser stops. -/
theorem many_completes (h : Completes statement S NoElse) (begins : Begins S) {stop : Token → Bool}
    (goes : ∀ t, t.lexeme ≠ punct closeBrace → stop t = false)
    (ends : ∀ c, c.words = more → collectUntil stop statement c = ([], c))
    (noElse : more.head? ≠ some (keyword "else")) {ls : List Lexeme} {ns : List Node}
    (hns : Many S ls ns) (hc : c.words = ls ++ more) :
    Ensures (collectUntil stop statement) c fun body c' =>
      Node.eraseAll body = Node.eraseAll ns ∧ Spells c ls c' := by
  induction hns generalizing c with
  | nil =>
    unfold Ensures
    rw [ends c hc]
    exact ⟨rfl, .refl c⟩
  | cons hn hns rest_completes =>
    rw [List.append_assoc] at hc
    obtain ⟨n, c1, hrun, alike, moved⟩ := h.run hn (fun _ => many_head begins hns noElse) hc
    obtain ⟨l, rest, rfl, -, notBrace⟩ := begins hn
    obtain ⟨t, ts, hrest, rfl, -⟩ := Cursor.rest_of_words hc
    obtain ⟨alike', moved'⟩ := rest_completes (moved.ahead hc)
    unfold Ensures
    rw [collectUntil_step hrest (goes t notBrace) hrun (moved.length_lt (by simp)), map_apply]
    refine ⟨?_, moved.trans moved'⟩
    simp only [Option.toList_some, List.singleton_append, Node.eraseAll, alike, alike']

theorem blockBody_completes (h : Completes statement S NoElse) (begins : Begins S)
    {ls : List Lexeme} {ns : List Node} (hns : Many S ls ns)
    (hc : c.words = punct openBrace :: ls ++ punct closeBrace :: more) :
    Ensures (blockBody statement) c fun body c' =>
      Node.eraseAll body = Node.eraseAll ns ∧
        Spells c (punct openBrace :: ls ++ [punct closeBrace]) c' := by
  have opened := Spells.advance hc
  have hc1 := opened.ahead hc
  have goes : ∀ t : Token, t.lexeme ≠ punct closeBrace → t.is .delimiter closeBrace = false :=
    fun t ht => Bool.eq_false_iff.mpr fun brace => ht (Token.lexeme_of_is brace)
  have ends : ∀ d : Cursor, d.words = punct closeBrace :: more →
      collectUntil (·.is .delimiter closeBrace) statement d = ([], d) := by
    intro d hd
    obtain ⟨t, ts, hrest, ht, -⟩ := Cursor.rest_of_words hd
    exact collectUntil_stop statement hrest (Token.is_of_lexeme ht (by decide))
  unfold blockBody
  refine .bind_eq (accept_words hc (by decide)) ?_
  refine .bind (many_completes h begins goes ends (by simp [punct, keyword]) hns hc1) ?_
  rintro body c2 ⟨alike, moved⟩
  have hc2 := moved.ahead hc1
  refine .bind_eq (accept_words hc2 (by decide)) (.pure ⟨alike, ?_⟩)
  exact opened.trans (moved.trans (.advance hc2))

/-! ### Declarations -/

/-- Behind its type and name a declaration is a function or a variable. -/
theorem declaration_named {type x : String} {post : Option Node → Cursor → Prop}
    (h : c.words = keyword type :: ident x :: more) (ht : isTypeKeyword type)
    (call : ∀ name c', name.spelling = x → Spells c [keyword type, ident x] c' →
      more.head? = some (punct "(") →
      Ensures (functionRest statement type name) c' fun n c' => post (some n) c')
    (single : ∀ name c', name.spelling = x → Spells c [keyword type, ident x] c' →
      more.head? ≠ some (punct "(") →
      Ensures (variableRest expression type name) c' fun n c' => post (some n) c') :
    Ensures (declaration statement expression) c post := by
  have first := Spells.advance h
  have hc1 := first.ahead h
  obtain ⟨name, hname, hx⟩ := acceptKind_words hc1
  have named := first.trans (.advance hc1)
  have hc2 := named.ahead h
  unfold declaration
  refine .bind_eq rfl ?_
  refine .bind_eq (typeName_words h ht) ?_
  refine .bind_eq hname ?_
  refine .bind_eq rfl ?_
  split
  · next looks =>
    rw [Cursor.looksAt_iff (by decide), hc2] at looks
    exact .bind (call name _ hx named looks) fun n c' hn => .pure hn
  · next looks =>
    rw [Cursor.looksAt_iff (by decide), hc2] at looks
    exact .bind (single name _ hx named looks) fun n c' hn => .pure hn

theorem prototype_completes (type : String) (name : Token) {ps : List Param}
    (typed : ∀ p ∈ ps, isTypeKeyword p.type)
    (hc : c.words = punct "(" :: paramWords ps ++ punct ")" :: punct ";" :: more) :
    Ensures (functionRest statement type name) c fun n c' =>
      n.erase = .function ⟨name.spelling, type, ps, true⟩ [] .nowhere ∧
        Spells c (punct "(" :: paramWords ps ++ [punct ")", punct ";"]) c' := by
  unfold functionRest
  refine .bind (parameters_completes typed hc) ?_
  rintro _ c1 ⟨rfl, moved⟩
  have hc1 : c1.words = punct ";" :: more := moved.ahead (by simpa using hc)
  refine .bind_eq rfl ?_
  rw [if_neg (Cursor.not_looksAt_words hc1 (by decide) (by decide))]
  refine .bind_eq (accept_words hc1 (by decide)) (.pure ⟨rfl, ?_⟩)
  simpa using moved.trans (.advance hc1)

theorem definition_completes (h : Completes statement S NoElse) (begins : Begins S)
    (type : String) (name : Token) {ps : List Param} (typed : ∀ p ∈ ps, isTypeKeyword p.type)
    {ls : List Lexeme} {ns : List Node} (hns : Many S ls ns)
    (hc : c.words = punct "(" :: paramWords ps ++ punct ")" :: punct openBrace :: ls ++
      punct closeBrace :: more) :
    Ensures (functionRest statement type name) c fun n c' =>
      n.erase = .function ⟨name.spelling, type, ps, false⟩ (Node.eraseAll ns) .nowhere ∧
        Spells c (punct "(" :: paramWords ps ++ punct ")" :: punct openBrace :: ls ++
          [punct closeBrace]) c' := by
  unfold functionRest
  refine .bind (parameters_completes typed (by simpa using hc)) ?_
  rintro _ c1 ⟨rfl, moved⟩
  have hc1 : c1.words = punct openBrace :: ls ++ punct closeBrace :: more :=
    moved.ahead (by simpa using hc)
  refine .bind_eq rfl ?_
  rw [if_pos (Cursor.looksAt_words hc1 (by decide))]
  refine .bind (blockBody_completes h begins hns hc1) ?_
  rintro body c2 ⟨alike, moved'⟩
  refine .pure ⟨by simp [Node.erase, alike], ?_⟩
  simpa using moved.trans moved'

theorem initializer_completes (he : Completes expression E fun _ => Follows 6) (name : Token)
    {ls : List Lexeme} {e : Node} (hvalue : E ls e)
    (hc : c.words = op "=" :: ls ++ punct ";" :: more) :
    Ensures (initializer expression name) c fun init c' =>
      Node.erase? init = Node.erase? (some e) ∧ Spells c (op "=" :: ls) c' := by
  have taken := Spells.advance hc
  unfold initializer
  refine .bind_eq (accept_words hc (by decide)) ?_
  refine .bind (he hvalue (follows_punct (by decide) more) (taken.ahead hc)) ?_
  rintro _ c' ⟨e', rfl, alike, moved⟩
  exact .pure ⟨congrArg some alike, taken.trans moved⟩

theorem variableRest_completes (type : String) (name : Token) {ls : List Lexeme} {init : Option Node}
    (h : Ensures (initializer expression name) c fun n c' =>
      Node.erase? n = Node.erase? init ∧ Spells c ls c')
    (hc : c.words = ls ++ punct ";" :: more) :
    Ensures (variableRest expression type name) c fun n c' =>
      n.erase = .declare name.spelling type (Node.erase? init) .nowhere ∧
        Spells c (ls ++ [punct ";"]) c' := by
  unfold variableRest
  refine .bind h ?_
  rintro n c1 ⟨alike, moved⟩
  have hc1 := moved.ahead hc
  have single : skipDeclarators name c1 = ((), c1) := by
    have noComma : ¬c1.looksAt .delimiter "," :=
      Cursor.not_looksAt_words hc1 (by decide) (by decide)
    show (if c1.looksAt .delimiter "," then _ else pure () : Parse Unit) c1 = _
    rw [if_neg noComma]
    rfl
  refine .bind_eq single ?_
  refine .bind_eq (accept_words hc1 (by decide)) (.pure ⟨?_, moved.trans (.advance hc1)⟩)
  rw [Node.erase, alike]

theorem declaration_completes (hs : Completes statement S NoElse) (begins : Begins S)
    (he : Completes expression E fun _ => Follows 6) :
    Completes (declaration statement expression) (Declaration S E) fun _ _ => True := by
  intro ls more n c hn _ hc
  cases hn with
  | prototype h l proto typed =>
    obtain ⟨x, type, ps, _⟩ := h
    obtain rfl : _ = true := proto
    simp only [headerWords, List.cons_append, List.append_assoc, List.nil_append] at hc ⊢
    refine declaration_named hc typed.1 (fun name c1 hx moved _ => ?_) (fun _ _ _ _ var => absurd rfl var)
    refine (prototype_completes type name typed.2 (moved.ahead hc)).mono ?_
    rintro n c2 ⟨alike, moved'⟩
    exact ⟨n, rfl, by rw [alike, hx]; rfl, moved.trans moved'⟩
  | definition h l proto typed hbody =>
    obtain ⟨x, type, ps, _⟩ := h
    obtain rfl : _ = false := proto
    simp only [headerWords, List.cons_append, List.append_assoc, List.nil_append] at hc ⊢
    refine declaration_named hc typed.1 (fun name c1 hx moved _ => ?_) (fun _ _ _ _ var => absurd rfl var)
    refine (definition_completes hs begins type name typed.2 hbody (by simpa using moved.ahead hc)).mono ?_
    rintro n c2 ⟨alike, moved'⟩
    refine ⟨n, rfl, by rw [alike, hx]; rfl, ?_⟩
    simpa using moved.trans moved'
  | declared x type l typed =>
    refine declaration_named hc typed (fun _ _ _ _ call => ?_) (fun name c1 hx moved _ => ?_)
    · simp [punct] at call
    · have hc1 := moved.ahead hc
      have noValue : initializer expression name c1 = (none, c1) := by
        unfold initializer
        rw [bind_apply, accept_other (by decide) (by rw [hc1]; simp [punct])]
        rfl
      have none : Ensures (initializer expression name) c1 fun n c' =>
          Node.erase? n = Node.erase? none ∧ Spells c1 [] c' := by
        unfold Ensures
        rw [noValue]
        exact ⟨rfl, .refl c1⟩
      refine (variableRest_completes type name none hc1).mono ?_
      rintro n c2 ⟨alike, moved'⟩
      exact ⟨n, rfl, by rw [alike, hx]; rfl, moved.trans moved'⟩
  | initialized x type l typed hvalue =>
    simp only [List.cons_append, List.append_assoc, List.nil_append] at hc ⊢
    refine declaration_named hc typed (fun _ _ _ _ call => ?_) (fun name c1 hx moved _ => ?_)
    · simp [op, punct] at call
    · have hc1 := moved.ahead hc
      refine (variableRest_completes type name (initializer_completes he name hvalue hc1) hc1).mono ?_
      rintro n c2 ⟨alike, moved'⟩
      exact ⟨n, rfl, by rw [alike, hx]; rfl, moved.trans moved'⟩

/-! ### Assignments and expressions -/

theorem ofSymbol?_op {t : Token} {o : AssignOp} (h : t.lexeme = op o.symbol) :
    (if t.kind = .operator then AssignOp.ofSymbol? t.spelling else none) = some o := by
  obtain ⟨hk, hs⟩ := Prod.mk.inj h
  rw [if_pos hk, hs, AssignOp.ofSymbol?_eq_some_iff.mpr rfl]

theorem ofSymbol?_other {t : Token} (h : ∀ o : AssignOp, t.lexeme ≠ op o.symbol) :
    (if t.kind = .operator then AssignOp.ofSymbol? t.spelling else none) = none := by
  split
  · next hk =>
    refine Option.eq_none_iff_forall_ne_some.mpr fun o found => h o ?_
    rw [Token.lexeme, hk, AssignOp.ofSymbol?_eq_some_iff.mp found, op]
  · rfl

/-- A name and the assignment operator behind it. -/
theorem assigned_words {x : String} {o : AssignOp} (h : c.words = ident x :: op o.symbol :: more) :
    ∃ t u ts, c.rest = t :: u :: ts ∧ t.spelling = x ∧
      (if u.kind = .operator then AssignOp.ofSymbol? u.spelling else none) = some o ∧
      Spells c [ident x, op o.symbol] c.advance.advance := by
  obtain ⟨t, us, hrest, ht, hus⟩ := Cursor.rest_of_words h
  obtain ⟨u, ts, rfl, hu, -⟩ := List.map_eq_cons_iff.mp hus
  have first := Spells.advance h
  have second := Spells.advance (first.ahead h)
  exact ⟨t, u, ts, hrest, (Prod.mk.inj ht).2, ofSymbol?_op hu, first.trans second⟩

/-- Without an assignment operator behind its name the clause is an expression. -/
theorem nameStatement_plain {x : String} (h : c.words = ident x :: more)
    (other : ∀ l ∈ more.head?, ∀ o : AssignOp, l ≠ op o.symbol) :
    nameStatement expression c = nameStatement.plain expression c := by
  obtain ⟨t, ts, hrest, -, hts⟩ := Cursor.rest_of_words h
  have start : (get : Parse Cursor) c = (c, c) := rfl
  rw [nameStatement, bind_apply, start]
  dsimp only
  rw [hrest]
  cases ts with
  | nil => rfl
  | cons u us =>
    have notAssign : ∀ o : AssignOp, u.lexeme ≠ op o.symbol := other u.lexeme (by simp [← hts])
    simp only [ofSymbol?_other notAssign]

/-- The word behind the name that starts an expression is no assignment operator. -/
theorem expression_notAssign (names : NamesStart E) {x text : String} {ls ms : List Lexeme} {e : Node}
    (he : E (ident x :: ls) e) :
    ∀ l ∈ (ls ++ punct text :: ms).head?, ∀ o : AssignOp, l ≠ op o.symbol := by
  intro l hl o ho
  subst ho
  cases ls with
  | nil => simp [punct, op] at hl
  | cons l' ls =>
    obtain rfl : l' = op o.symbol := by simpa using hl
    rcases names he (op o.symbol) rfl with call | ⟨o', binary⟩
    · simp [punct, op] at call
    · have none := AssignOp.ofSymbol?_binary o'
      rw [← (Prod.mk.inj binary).2, AssignOp.ofSymbol?_eq_some_iff.mpr rfl] at none
      simp at none

/-- A clause that starts with a name is read with the semicolon behind it, if there is one. -/
theorem nameStatement_completes (he : Completes expression E fun _ => Follows 6) (names : NamesStart E)
    {ls ms : List Lexeme} {n : Node} {text : String} (hn : NameClause E ls n) (ne : text ≠ "(")
    (hc : c.words = ls ++ punct text :: ms) :
    Ensures (nameStatement expression) c fun n' c' =>
      ∃ e', n' = some e' ∧ e'.erase = n.erase ∧ Spells c (ls ++ semicolon (punct text :: ms)) c' := by
  cases hn with
  | step target o l isStep =>
    obtain ⟨t, u, ts, hrest, rfl, found, taken⟩ := assigned_words hc
    have hc2 := taken.ahead hc
    unfold nameStatement
    refine .bind_eq rfl ?_
    simp only [hrest, found, isStep, if_true]
    refine .bind_eq rfl (.bind_eq rfl ?_)
    refine .bind (acceptSemicolon _) fun _ c3 moved => .pure ⟨_, rfl, rfl, ?_⟩
    rw [hc2] at moved
    exact taken.trans moved
  | assign target o l isStep hvalue =>
    obtain ⟨t, u, ts, hrest, rfl, found, taken⟩ := assigned_words hc
    have hc2 := taken.ahead hc
    unfold nameStatement
    refine .bind_eq rfl ?_
    simp only [hrest, found, isStep, Bool.false_eq_true, if_false]
    refine .bind_eq rfl (.bind_eq rfl ?_)
    refine .bind (he hvalue (follows_punct ne ms) hc2) ?_
    rintro _ c3 ⟨e', rfl, alike, moved⟩
    have hc3 := moved.ahead hc2
    refine .bind (acceptSemicolon _) fun _ c4 moved' => .pure ⟨_, rfl, by simp [Node.erase, Node.erase?, alike], ?_⟩
    rw [hc3] at moved'
    exact taken.trans (moved.trans moved')
  | expression hvalue =>
    refine .of_eq (nameStatement_plain hc (expression_notAssign names hvalue)) ?_
    refine .bind (he hvalue (follows_punct ne ms) hc) ?_
    rintro _ c1 ⟨e', rfl, alike, moved⟩
    refine .bind (acceptSemicolon _) fun _ c2 moved' => .pure ⟨e', rfl, alike, ?_⟩
    rw [moved.ahead hc] at moved'
    exact moved.trans moved'

/-! ### Branches and loops -/

theorem body_completes (h : Completes statement S NoElse) {ls : List Lexeme} {n : Node} (hn : S ls n)
    (hmore : NoElse n more) (hc : c.words = ls ++ more) :
    Ensures (body statement) c fun n' c' => n'.erase = n.erase ∧ Spells c ls c' := by
  unfold body
  refine .bind_eq rfl ?_
  refine .bind (h hn hmore hc) ?_
  rintro _ c' ⟨n', rfl, alike, moved⟩
  exact .pure ⟨alike, moved⟩

theorem condition_completes (he : Completes expression E fun _ => Follows 6) {ls : List Lexeme} {e : Node}
    (htest : E ls e) (hc : c.words = punct "(" :: ls ++ punct ")" :: more) :
    Ensures (condition expression) c fun n c' =>
      ∃ e', n = some e' ∧ e'.erase = e.erase ∧ Spells c (punct "(" :: ls ++ [punct ")"]) c' := by
  have opened := Spells.advance hc
  have hc1 := opened.ahead hc
  unfold condition
  refine .bind_eq (accept_words hc (by decide)) ?_
  refine .bind (he htest (follows_punct (by decide) more) hc1) ?_
  rintro _ c2 ⟨e', rfl, alike, moved⟩
  have hc2 := moved.ahead hc1
  refine .bind_eq rfl (.pure ⟨e', rfl, alike, ?_⟩)
  rw [Cursor.closeGroup_words hc2]
  exact opened.trans (moved.trans (.advance hc2))

/-- Branches and loops start alike: a keyword, a condition in parentheses and a body. -/
theorem guarded_completes (hs : Completes statement S NoElse)
    (he : Completes expression E fun _ => Follows 6) {l : Lexeme} {ls ms : List Lexeme} {test n : Node}
    (htest : E ls test) (hbody : S ms n) (hmore : NoElse n more)
    (hc : c.words = l :: (punct "(" :: ls ++ punct ")" :: (ms ++ more)))
    {rest : Option Node → Node → Parse (Option Node)} {post : Option Node → Cursor → Prop}
    (h : ∀ test' n' c', test'.erase = test.erase → n'.erase = n.erase →
      Spells c (l :: (punct "(" :: ls ++ punct ")" :: ms)) c' → Ensures (rest (some test') n') c' post) :
    Ensures (do advance; rest (← condition expression) (← body statement)) c post := by
  have first := Spells.advance hc
  have hc1 := first.ahead hc
  refine .bind_eq rfl ?_
  refine .bind (condition_completes he htest hc1) ?_
  rintro _ c2 ⟨test', rfl, alikeTest, moved⟩
  have hc2 : c2.words = ms ++ more := moved.ahead (by simpa using hc1)
  refine .bind (body_completes hs hbody hmore hc2) ?_
  rintro n' c3 ⟨alike, moved'⟩
  refine h test' n' c3 alikeTest alike ?_
  simpa using first.trans (moved.trans moved')

/-- An `if` without an `else` is read, if no `else` follows. -/
theorem branch_completes (hs : Completes statement S NoElse) (he : Completes expression E fun _ => Follows 6)
    (start : Location) {ls ms : List Lexeme} {test onTrue : Node} (htest : E ls test)
    (hbody : S ms onTrue) (noElse : more.head? ≠ some (keyword "else"))
    (hc : c.words = keyword "if" :: (punct "(" :: ls ++ punct ")" :: (ms ++ more))) :
    Ensures (branchStatement statement expression start) c fun n c' =>
      ∃ n', n = some n' ∧ n'.erase = .branch test.erase onTrue.erase none .nowhere ∧
        Spells c (keyword "if" :: (punct "(" :: ls ++ punct ")" :: ms)) c' := by
  unfold branchStatement
  refine guarded_completes hs he htest hbody (fun _ => noElse) hc ?_
  intro test' onTrue' c1 alikeTest alike moved
  have hc1 : c1.words = more := moved.ahead (by simpa using hc)
  refine .bind_eq (accept_other (by decide) (by rwa [hc1])) ?_
  exact .bind_eq rfl (.pure ⟨_, rfl, by simp [Node.erase, Node.erase?, alikeTest, alike], moved⟩)

/-- An `else` goes to the `if` before it, if the statement between them is closed. -/
theorem branchElse_completes (hs : Completes statement S NoElse)
    (he : Completes expression E fun _ => Follows 6) (start : Location) {ls ms ns : List Lexeme}
    {test onTrue onFalse : Node} (htest : E ls test) (hbody : S ms onTrue) (closed : onTrue.isOpen = false)
    (helse : S ns onFalse) (hmore : NoElse onFalse more)
    (hc : c.words = keyword "if" :: (punct "(" :: ls ++ punct ")" :: (ms ++ keyword "else" :: (ns ++ more)))) :
    Ensures (branchStatement statement expression start) c fun n c' =>
      ∃ n', n = some n' ∧ n'.erase = .branch test.erase onTrue.erase (some onFalse.erase) .nowhere ∧
        Spells c (keyword "if" :: (punct "(" :: ls ++ punct ")" :: (ms ++ keyword "else" :: ns))) c' := by
  have mayFollow : NoElse onTrue (keyword "else" :: (ns ++ more)) := fun isOpen =>
    absurd isOpen (by simp [closed])
  unfold branchStatement
  refine guarded_completes hs he htest hbody mayFollow hc ?_
  intro test' onTrue' c1 alikeTest alike moved
  have hc1 : c1.words = keyword "else" :: (ns ++ more) := moved.ahead (by simpa using hc)
  have taken := Spells.advance hc1
  refine .bind_eq (accept_words hc1 (by decide)) ?_
  rw [if_pos rfl]
  refine .bind_map (body_completes hs helse hmore (taken.ahead hc1)) ?_
  rintro onFalse' c2 ⟨alikeElse, moved'⟩
  refine .pure ⟨_, rfl, by simp [Node.erase, Node.erase?, alikeTest, alike, alikeElse], ?_⟩
  simpa using moved.trans (taken.trans moved')

theorem while_completes (hs : Completes statement S NoElse) (he : Completes expression E fun _ => Follows 6)
    (start : Location) {ls ms : List Lexeme} {test n : Node} (htest : E ls test) (hbody : S ms n)
    (hmore : NoElse n more)
    (hc : c.words = keyword "while" :: (punct "(" :: ls ++ punct ")" :: (ms ++ more))) :
    Ensures (whileStatement statement expression start) c fun n' c' =>
      ∃ e', n' = some e' ∧ e'.erase = .whileLoop test.erase n.erase .nowhere ∧
        Spells c (keyword "while" :: (punct "(" :: ls ++ punct ")" :: ms)) c' := by
  unfold whileStatement
  refine guarded_completes hs he htest hbody hmore hc ?_
  intro test' n' c1 alikeTest alike moved
  exact .pure ⟨_, rfl, by simp [Node.erase, alikeTest, alike], moved⟩

/-! ### The clauses of a for loop -/

/-- A first clause that ends in a semicolon takes no other. -/
theorem forInit_closed {ls : List Lexeme} {n : Node} (other : c.words.head? ≠ some (punct ";"))
    (h : Ensures (forInit.clause statement expression) c fun n' c' =>
      ∃ e', n' = some e' ∧ e'.erase = n.erase ∧ Spells c ls c')
    (ends : ls.getLast? = some (punct ";")) :
    Ensures (forInit statement expression) c fun n' c' =>
      Node.erase? n' = some n.erase ∧ Spells c ls c' := by
  unfold forInit
  refine .bind_eq (accept_other (by decide) other) ?_
  refine .bind h ?_
  rintro _ c1 ⟨e', rfl, alike, moved⟩
  have last : c1.last.map Token.lexeme = some (punct ";") := by rw [moved.last, ends]; rfl
  obtain ⟨t, hlast, ht⟩ := Option.map_eq_some_iff.mp last
  have isSemicolon : t.is .delimiter ";" := Token.is_of_lexeme ht (by decide)
  refine .bind_eq rfl ?_
  simp only [hlast, if_pos isSemicolon]
  exact .pure ⟨congrArg some alike, moved⟩

/-- A first clause that ends in another word takes the semicolon behind it. -/
theorem forInit_separate {ls : List Lexeme} {n : Node} {l : Lexeme}
    (other : c.words.head? ≠ some (punct ";"))
    (h : Ensures (forInit.clause statement expression) c fun n' c' =>
      ∃ e', n' = some e' ∧ e'.erase = n.erase ∧ Spells c ls c')
    (ends : ls.getLast? = some l) (ne : l ≠ punct ";") (hc : c.words = ls ++ punct ";" :: more) :
    Ensures (forInit statement expression) c fun n' c' =>
      Node.erase? n' = some n.erase ∧ Spells c (ls ++ [punct ";"]) c' := by
  unfold forInit
  refine .bind_eq (accept_other (by decide) other) ?_
  refine .bind h ?_
  rintro _ c1 ⟨e', rfl, alike, moved⟩
  have last : c1.last.map Token.lexeme = some l := by rw [moved.last, ends]; rfl
  obtain ⟨t, hlast, rfl⟩ := Option.map_eq_some_iff.mp last
  have notSemicolon : ¬t.is .delimiter ";" := fun is => ne (Token.lexeme_of_is is)
  have hc1 := moved.ahead hc
  refine .bind_eq rfl ?_
  simp only [hlast, if_neg notSemicolon]
  exact .bind_eq (accept_words hc1 (by decide)) (.pure ⟨congrArg some alike, moved.trans (.advance hc1)⟩)

theorem forInit_declaration (hs : Completes statement S NoElse) (begins : Begins S)
    (he : Completes expression E fun _ => Follows 6) {ls : List Lexeme} {n : Node}
    (hn : Declaration S E ls n) (hc : c.words = ls ++ more) :
    Ensures (forInit.clause statement expression) c fun n' c' =>
      ∃ e', n' = some e' ∧ e'.erase = n.erase ∧ Spells c ls c' := by
  obtain ⟨type, rest, rfl, typed⟩ := declaration_start hn
  obtain ⟨t, _, _, hpeek, hk, rfl⟩ := peek_words hc
  have isType : t.isType := by simp [Token.isType, hk, typed]
  unfold forInit.clause
  refine .bind_eq hpeek ?_
  simp only [if_pos isType]
  exact declaration_completes hs begins he hn trivial hc

theorem forInit_name (he : Completes expression E fun _ => Follows 6) (names : NamesStart E)
    {ls : List Lexeme} {n : Node} (hn : NameClause E ls n) (hc : c.words = ls ++ punct ";" :: more) :
    Ensures (forInit.clause statement expression) c fun n' c' =>
      ∃ e', n' = some e' ∧ e'.erase = n.erase ∧ Spells c (ls ++ [punct ";"]) c' := by
  obtain ⟨x, rest, rfl⟩ := nameClause_start hn
  obtain ⟨t, _, _, hpeek, hk, -⟩ := peek_words hc
  have noType : t.isType = false := by simp [Token.isType, hk]
  unfold forInit.clause
  refine .bind_eq hpeek ?_
  simp only [noType, hk, Bool.false_eq_true, if_false, if_true]
  exact nameStatement_completes he names hn (by decide) hc

theorem forInit_completes (hs : Completes statement S NoElse) (begins : Begins S)
    (he : Completes expression E fun _ => Follows 6) (names : NamesStart E) {ls : List Lexeme}
    {init : Option Node} (hinit : ForInit S E ls init) (hc : c.words = ls ++ more) :
    Ensures (forInit statement expression) c fun n c' =>
      Node.erase? n = Node.erase? init ∧ Spells c ls c' := by
  cases hinit with
  | none =>
    unfold forInit
    exact .bind_eq (accept_words hc (by decide)) (.pure ⟨rfl, .advance hc⟩)
  | declaration hn ends =>
    have other : c.words.head? ≠ some (punct ";") := hc ▸ declaration_head hn _
    exact forInit_closed other (forInit_declaration hs begins he hn hc) ends
  | definition hn ends =>
    rw [List.append_assoc] at hc
    have other : c.words.head? ≠ some (punct ";") := hc ▸ declaration_head hn _
    exact forInit_separate other (forInit_declaration hs begins he hn hc) ends (by decide) hc
  | clause hn =>
    rw [List.append_assoc] at hc
    have other : c.words.head? ≠ some (punct ";") := by
      obtain ⟨x, rest, rfl⟩ := nameClause_start hn
      simp [hc, ident, punct]
    exact forInit_closed other (forInit_name he names hn hc) (by simp)

theorem forCondition_completes (he : Completes expression E fun _ => Follows 6) (opens : Opens E)
    {ls : List Lexeme} {test : Option Node} (htest : Optional E ls test)
    (hc : c.words = ls ++ punct ";" :: more) :
    Ensures (forCondition expression) c fun n c' =>
      Node.erase? n = Node.erase? test ∧ Spells c (ls ++ [punct ";"]) c' := by
  unfold forCondition
  refine .bind_eq rfl ?_
  cases htest with
  | none =>
    rw [if_pos (Cursor.looksAt_words hc (by decide))]
    refine .bind_eq rfl ?_
    exact .bind_eq (accept_words hc (by decide)) (.pure ⟨rfl, .advance hc⟩)
  | some htest =>
    rw [not_looksAt (opens htest) hc (by decide) rfl]
    refine .bind (he htest (follows_punct (by decide) more) hc) ?_
    rintro _ c1 ⟨e', rfl, alike, moved⟩
    have hc1 := moved.ahead hc
    exact .bind_eq (accept_words hc1 (by decide)) (.pure ⟨congrArg some alike, moved.trans (.advance hc1)⟩)

theorem forUpdate_completes (he : Completes expression E fun _ => Follows 6) (opens : Opens E)
    (names : NamesStart E) {ls : List Lexeme} {update : Option Node} (hupdate : ForUpdate E ls update)
    (hc : c.words = ls ++ punct ")" :: more) :
    Ensures (forUpdate expression) c fun n c' =>
      Node.erase? n = Node.erase? update ∧ Spells c (ls ++ [punct ")"]) c' := by
  have close : ∀ n c1, Node.erase? n = Node.erase? update ∧ Spells c ls c1 →
      Ensures (do closeGroup; return n) c1 fun n c' =>
        Node.erase? n = Node.erase? update ∧ Spells c (ls ++ [punct ")"]) c' := by
    rintro n c1 ⟨alike, moved⟩
    have hc1 := moved.ahead hc
    refine .bind_eq rfl (.pure ⟨alike, ?_⟩)
    rw [Cursor.closeGroup_words hc1]
    exact moved.trans (.advance hc1)
  unfold forUpdate
  refine .bind_eq rfl ?_
  cases hupdate with
  | none =>
    rw [if_pos (Cursor.looksAt_words hc (by decide))]
    exact .bind_eq rfl (close none c ⟨rfl, .refl c⟩)
  | clause hn =>
    have run := nameStatement_completes he names hn (by decide) hc
    obtain ⟨x, rest, rfl⟩ := nameClause_start hn
    obtain ⟨t, _, _, hpeek, hk, -⟩ := peek_words hc
    rw [not_looksAt ⟨_, _, rfl, rfl⟩ hc (by decide) rfl]
    refine .bind_eq hpeek ?_
    simp only [hk, if_true]
    refine .bind run ?_
    rintro _ c1 ⟨e', rfl, alike, moved⟩
    refine close _ _ ⟨congrArg some alike, ?_⟩
    simpa [semicolon, punct] using moved
  | expression hvalue noName =>
    have run := he hvalue (follows_punct (by decide) more) hc
    obtain ⟨⟨kind, text⟩, rest, rfl, hl⟩ := opens hvalue
    obtain ⟨t, _, _, hpeek, hk, -⟩ := peek_words hc
    have notName : kind ≠ .identifier := fun eq => noName text (by rw [eq]; rfl)
    rw [not_looksAt ⟨_, _, rfl, hl⟩ hc (by decide) rfl]
    refine .bind_eq hpeek ?_
    simp only [hk, if_neg notName]
    refine .bind run ?_
    rintro _ c1 ⟨e', rfl, alike, moved⟩
    exact close _ _ ⟨congrArg some alike, moved⟩

theorem for_completes (hs : Completes statement S NoElse) (begins : Begins S)
    (he : Completes expression E fun _ => Follows 6) (opens : Opens E) (names : NamesStart E)
    (start : Location) {is ls us ms : List Lexeme} {init test update : Option Node} {n : Node}
    (hinit : ForInit S E is init) (htest : Optional E ls test) (hupdate : ForUpdate E us update)
    (hbody : S ms n) (hmore : NoElse n more)
    (hc : c.words =
      keyword "for" :: punct "(" :: (is ++ (ls ++ punct ";" :: (us ++ punct ")" :: (ms ++ more))))) :
    Ensures (forStatement statement expression start) c fun n' c' =>
      n'.erase = .forLoop (Node.erase? init) (Node.erase? test) (Node.erase? update) n.erase .nowhere ∧
        Spells c (keyword "for" :: punct "(" :: (is ++ (ls ++ punct ";" :: (us ++ punct ")" :: ms)))) c' := by
  have first := Spells.advance hc
  have hc1 := first.ahead hc
  have opened := Spells.advance hc1
  have hc2 := opened.ahead hc1
  unfold forStatement
  refine .bind_eq rfl ?_
  refine .bind_eq (accept_words hc1 (by decide)) ?_
  refine .bind (forInit_completes hs begins he names hinit hc2) ?_
  rintro init' c3 ⟨alikeInit, movedInit⟩
  have hc3 := movedInit.ahead hc2
  refine .bind (forCondition_completes he opens htest hc3) ?_
  rintro test' c4 ⟨alikeTest, movedTest⟩
  have hc4 : c4.words = us ++ punct ")" :: (ms ++ more) := movedTest.ahead (by simpa using hc3)
  refine .bind (forUpdate_completes he opens names hupdate hc4) ?_
  rintro update' c5 ⟨alikeUpdate, movedUpdate⟩
  have hc5 : c5.words = ms ++ more := movedUpdate.ahead (by simpa using hc4)
  refine .bind (body_completes hs hbody hmore hc5) ?_
  rintro n' c6 ⟨alike, moved⟩
  refine .pure ⟨by simp [Node.erase, alikeInit, alikeTest, alikeUpdate, alike], ?_⟩
  simpa using first.trans (opened.trans (movedInit.trans (movedTest.trans (movedUpdate.trans moved))))

/-! ### The other statements -/

theorem return_completes (he : Completes expression E fun _ => Follows 6) (opens : Opens E)
    (start : Location) {ls : List Lexeme} {value : Option Node} (hvalue : Optional E ls value)
    (hc : c.words = keyword "return" :: (ls ++ punct ";" :: more)) :
    Ensures (returnStatement expression start) c fun n c' =>
      n.erase = .ret (Node.erase? value) .nowhere ∧
        Spells c (keyword "return" :: (ls ++ [punct ";"])) c' := by
  have first := Spells.advance hc
  have hc1 := first.ahead hc
  unfold returnStatement
  refine .bind_eq rfl ?_
  cases hvalue with
  | none =>
    obtain ⟨t, _, _, hpeek, hk, hs⟩ := peek_words hc1
    have ends : t.is .delimiter ";" := Token.is_of_lexeme (by rw [Token.lexeme, hk, hs]) (by decide)
    refine .bind_eq hpeek ?_
    simp only [ends, Bool.true_or, if_true]
    refine .bind_eq rfl ?_
    exact .bind_eq (accept_words hc1 (by decide)) (.pure ⟨rfl, first.trans (.advance hc1)⟩)
  | some hvalue =>
    have run := he hvalue (follows_punct (by decide) more) hc1
    have noSemicolon : c.advance.looksAt .delimiter ";" = false :=
      not_looksAt (opens hvalue) hc1 (by decide) rfl
    have noBrace : c.advance.looksAt .delimiter closeBrace = false :=
      not_looksAt (opens hvalue) hc1 (by decide) rfl
    obtain ⟨⟨kind, text⟩, rest, rfl, -⟩ := opens hvalue
    obtain ⟨t, _, hrest, hpeek, -, -⟩ := peek_words hc1
    rw [Cursor.looksAt_cons hrest] at noSemicolon noBrace
    refine .bind_eq hpeek ?_
    simp only [noSemicolon, noBrace, Bool.or_self, Bool.false_eq_true, if_false]
    refine .bind run ?_
    rintro _ c2 ⟨e', rfl, alike, moved⟩
    have hc2 := moved.ahead hc1
    refine .bind_eq (accept_words hc2 (by decide)) (.pure ⟨?_, first.trans (moved.trans (.advance hc2))⟩)
    rw [Node.erase, Node.erase?, alike, Node.erase?]

theorem ioArguments_completes (he : Completes expression E fun _ => Follows 6) (opens : Opens E)
    {l : Lexeme} {ls : List Lexeme} {args : List Node} (hargs : Arguments E ls args)
    (hc : c.words = l :: (ls ++ punct ";" :: more)) :
    Ensures (ioArguments expression) c fun found c' =>
      Node.eraseAll found = Node.eraseAll args ∧ Spells c (l :: (ls ++ [punct ";"])) c' := by
  have first := Spells.advance hc
  have hc1 := first.ahead hc
  unfold ioArguments
  refine .bind_eq rfl ?_
  refine .bind (argumentList_completes he opens hargs hc1) ?_
  rintro found c2 ⟨alike, moved⟩
  have hc2 := moved.ahead hc1
  exact .bind_eq (accept_words hc2 (by decide)) (.pure ⟨alike, first.trans (moved.trans (.advance hc2))⟩)

theorem inclusion_completes (t : Token) {library : String}
    (hc : c.words = punct "#" :: ident "include" :: (.string, library) :: more) :
    Ensures (directive t) c fun n c' =>
      n = some (.inclusion library t.location) ∧
        Spells c [punct "#", ident "include", (.string, library)] c' := by
  have first := Spells.advance hc
  have hc1 := first.ahead hc
  have second := Spells.advance hc1
  have hc2 := second.ahead hc1
  obtain ⟨u, hu, rfl⟩ := acceptKind_words hc2
  unfold directive
  refine .bind_eq rfl ?_
  refine .bind_eq (accept_words hc1 (by decide)) ?_
  have found : Parse.library t.location.line c.advance.advance = (u.spelling, c.advance.advance.advance) := by
    unfold Parse.library
    rw [bind_apply, hu]
    rfl
  exact .bind_eq found (.pure ⟨rfl, first.trans (second.trans (.advance hc2))⟩)

theorem head_token {t : Token} {ts : List Token} {kind : Token.Kind} {text : String}
    (hrest : c.rest = t :: ts) (hc : c.words = (kind, text) :: more) : t.kind = kind ∧ t.spelling = text := by
  have head : t.lexeme = (kind, text) := by
    rw [Cursor.words, hrest, List.map_cons] at hc
    exact (List.cons.inj hc).1
  exact Prod.mk.inj head

/-- A statement that starts with a keyword other than a type has that keyword's form. -/
theorem statementFrom_keyword {t : Token} {ts : List Token} {word : String} (hrest : c.rest = t :: ts)
    (hc : c.words = keyword word :: more) (noType : isTypeKeyword word = false) :
    statementFrom statement expression t =
      if word = "if" then branchStatement statement expression t.location
      else if word = "while" then whileStatement statement expression t.location
      else if word = "for" then some <$> forStatement statement expression t.location
      else if word = "return" then some <$> returnStatement expression t.location
      else if word = "printf" then do return some (.printf (← ioArguments expression) t.location)
      else if word = "scanf" then do return some (.scanf (← ioArguments expression) t.location)
      else do skip t; return none := by
  obtain ⟨hk, rfl⟩ := head_token hrest hc
  have notType : t.isType = false := by simp [Token.isType, noType]
  unfold statementFrom
  rw [hk]
  unfold keywordStatement
  rw [notType]
  rfl

/-- Statements read their phrases, if the statements and expressions one level down do. -/
theorem statementFrom_completes (hs : Completes statement S NoElse) (begins : Begins S)
    (he : Completes expression E fun _ => Follows 6) (opens : Opens E) (names : NamesStart E)
    {t : Token} {ts : List Token} {ls : List Lexeme} {n : Node} (hn : Sentence S E ls n)
    (hmore : NoElse n more) (hrest : c.rest = t :: ts) (hc : c.words = ls ++ more) :
    Ensures (statementFrom statement expression t) c fun n' c' =>
      ∃ e', n' = some e' ∧ e'.erase = n.erase ∧ Spells c ls c' := by
  cases hn with
  | inclusion library l =>
    obtain ⟨hk, hword⟩ := head_token hrest hc
    have hash : t.is .delimiter "#" := Token.is_of_lexeme (by rw [Token.lexeme, hk, hword]) (by decide)
    unfold statementFrom
    simp only [hk, if_pos hash]
    refine (inclusion_completes t hc).mono ?_
    rintro _ c' ⟨rfl, moved⟩
    exact ⟨_, rfl, rfl, moved⟩
  | declaration hn =>
    have run := declaration_completes hs begins he hn trivial hc
    obtain ⟨type, rest, rfl, typed⟩ := declaration_start hn
    obtain ⟨hk, rfl⟩ := head_token hrest hc
    have isType : t.isType := by simp [Token.isType, hk, typed]
    unfold statementFrom keywordStatement
    simp only [hk, if_pos isType]
    exact run
  | branch l htest hbody =>
    simp only [List.cons_append, List.append_assoc] at hc ⊢
    rw [statementFrom_keyword hrest hc (by decide), if_pos rfl]
    exact branch_completes hs he t.location htest hbody (hmore rfl) hc
  | branchElse l htest hbody closed helse =>
    simp only [List.cons_append, List.append_assoc] at hc ⊢
    rw [statementFrom_keyword hrest hc (by decide), if_pos rfl]
    exact branchElse_completes hs he t.location htest hbody closed helse hmore hc
  | whileLoop l htest hbody =>
    simp only [List.cons_append, List.append_assoc] at hc ⊢
    rw [statementFrom_keyword hrest hc (by decide), if_neg (by decide), if_pos rfl]
    exact while_completes hs he t.location htest hbody hmore hc
  | forLoop l hinit htest hupdate hbody =>
    simp only [List.cons_append, List.append_assoc] at hc ⊢
    rw [statementFrom_keyword hrest hc (by decide)]
    iterate 2 rw [if_neg (by decide)]
    rw [if_pos rfl]
    refine .map (for_completes hs begins he opens names t.location hinit htest hupdate hbody hmore hc) ?_
    rintro n' c' ⟨alike, moved⟩
    exact ⟨n', rfl, alike, moved⟩
  | ret l hvalue =>
    simp only [List.cons_append, List.append_assoc] at hc ⊢
    rw [statementFrom_keyword hrest hc (by decide)]
    iterate 3 rw [if_neg (by decide)]
    rw [if_pos rfl]
    refine .map (return_completes he opens t.location hvalue hc) ?_
    rintro n' c' ⟨alike, moved⟩
    exact ⟨n', rfl, alike, moved⟩
  | printf l hargs =>
    simp only [List.cons_append, List.append_assoc] at hc ⊢
    rw [statementFrom_keyword hrest hc (by decide)]
    iterate 4 rw [if_neg (by decide)]
    rw [if_pos rfl]
    refine .bind (ioArguments_completes he opens hargs hc) ?_
    rintro args c' ⟨alike, moved⟩
    exact .pure ⟨_, rfl, by simp [Node.erase, alike], moved⟩
  | scanf l hargs =>
    simp only [List.cons_append, List.append_assoc] at hc ⊢
    rw [statementFrom_keyword hrest hc (by decide)]
    iterate 5 rw [if_neg (by decide)]
    rw [if_pos rfl]
    refine .bind (ioArguments_completes he opens hargs hc) ?_
    rintro args c' ⟨alike, moved⟩
    exact .pure ⟨_, rfl, by simp [Node.erase, alike], moved⟩
  | block l hbody =>
    simp only [List.cons_append, List.append_assoc] at hc ⊢
    obtain ⟨hk, hword⟩ := head_token hrest hc
    have noHash : ¬t.is .delimiter "#" := fun is =>
      absurd (hword.symm.trans (Prod.mk.inj (Token.lexeme_of_is is)).2) (by decide)
    have brace : t.is .delimiter openBrace :=
      Token.is_of_lexeme (by rw [Token.lexeme, hk, hword]) (by decide)
    unfold statementFrom
    simp only [hk, if_neg noHash, if_pos brace]
    refine .bind (blockBody_completes hs begins hbody hc) ?_
    rintro body c' ⟨alike, moved⟩
    exact .pure ⟨_, rfl, by simp [Node.erase, alike], moved⟩
  | clause hn =>
    rw [List.append_assoc] at hc
    have run := nameStatement_completes he names hn (by decide) hc
    obtain ⟨x, rest, rfl⟩ := nameClause_start hn
    obtain ⟨hk, -⟩ := head_token hrest hc
    unfold statementFrom
    simp only [hk]
    exact run

/-- **The parser reads every statement** that needs no more levels than are left. -/
theorem statement_completes : ∀ levels, Completes (Parse.statement levels) (Statement levels) NoElse
  | 0, _, _, _, _, hn, _, _ => hn.elim
  | levels + 1, _, _, _, c, hn, hmore, hc => by
    obtain ⟨l, rest, rfl, -, -⟩ := statement_begins (levels + 1) hn
    obtain ⟨t, ts, hrest, -, -⟩ := Cursor.rest_of_words hc
    unfold Parse.statement
    refine .bind_eq (peek_cons hrest) (.nested ?_)
    have inner := statementFrom_completes (c := { c with depth := c.depth + 1 }) (statement_completes levels)
      (statement_begins levels) (expression_completes levels) (expression_opens levels)
      (expression_namesStart levels) hn hmore hrest hc
    exact inner.mono fun _ _ ⟨n, found, alike, moved⟩ => ⟨n, found, alike, moved.leave⟩

/-- The parser reads every program and reports nothing. -/
theorem program_completes {ns : List Node} (h : Many (Statement maxNesting) c.words ns) :
    Ensures program c fun n c' => n.erase = .program (Node.eraseAll ns) ∧ Spells c c.words c' := by
  have ends : ∀ d : Cursor, d.words = [] →
      collectUntil (fun _ => false) (Parse.statement maxNesting) d = ([], d) := fun d hd =>
    collectUntil_nil _ _ (List.map_eq_nil_iff.mp hd)
  unfold program
  refine .bind (many_completes (statement_completes maxNesting) (statement_begins maxNesting)
    (fun _ _ => rfl) ends (by simp) h (List.append_nil _).symm) ?_
  rintro body c' ⟨alike, moved⟩
  exact .pure ⟨by rw [Node.erase, alike], moved⟩

end

end Parse
end MiniC
