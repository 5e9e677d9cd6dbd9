/-
# Rendered expressions are read back

The text of an expression, read again as tokens, gives the words that its spelling
stands for (`render_scans`). A spelling of expressions is thus an orthography
(`Orthography.of`), and what is known about words carries over to texts. Blanks
keep a binary operator apart from its operands; the two marks stand right before
theirs, and no operand starts with a character that would extend them
(`render_head`).

The typed spelling is faithful, so its texts are read back as the expression they
were written for, with its strings escaped (`parse_typed_rendering`).

Key definitions: `Spelling.delimiter`, `Orthography.of`, `Vocabulary.written`, `Vocabulary.typed`.
Key theorems: `render_head`, `render_scans`, `parse_typed_rendering`.
-/
import MiniC.Proofs.Completeness.Expression
import MiniC.Proofs.Orthography
import MiniC.Proofs.Scan

namespace MiniC

open Lexeme

/-- The quote around strings. -/
def Spelling.delimiter : Spelling → Char
  | typed | indented => '"'
  | field => '\''

/-- A spelling of expressions, in words. An operator that is spelled with letters is
read as a name. -/
def Orthography.of (s : Spelling) : Orthography where
  symbol o := (if s.symbol o = o.symbol then .operator else .identifier, s.symbol o)
  mark
    | .neg => [op "-"]
    | .not => if s = .typed then [op "!"] else [ident "not"]
    | .addressOf => []
  groups := s.groups
  groupsPrefixed
    | .neg, e => e.isBinary || e.isNegation
    | .not, e => e.isBinary
    | .addressOf, _ => false
  text raw := String.ofList (Text.escape s.delimiter raw.toList)

/-- The words that a text can be read back from: names and numbers that are one token,
strings without a backslash alone at the end, and no address. -/
def Vocabulary.written : Vocabulary where
  name x := LexesAs x (ident x)
  number text _ := LexesAs text (.number, text)
  string raw := Text.paired raw.toList
  mark o := o ≠ .addressOf

/-! ### Where a text starts -/

/-- The text starts with such a character. -/
def StartsWith (P : Char → Prop) (text : String) : Prop := ∃ c cs, text.toList = c :: cs ∧ P c

theorem StartsWith.mono {P Q : Char → Prop} {text : String} (h : StartsWith P text)
    (imp : ∀ c, P c → Q c) : StartsWith Q text := by
  obtain ⟨c, cs, htext, hc⟩ := h
  exact ⟨c, cs, htext, imp c hc⟩

theorem StartsWith.grouped {P : Char → Prop} {text : String} (h : StartsWith P text) (paren : P '(')
    (parenthesized : Bool) : StartsWith P (grouped parenthesized text) := by
  cases parenthesized with
  | false => exact h
  | true => exact ⟨'(', text.toList ++ [')'], by simp [MiniC.grouped], paren⟩

theorem StartsWith.append {P : Char → Prop} {text : String} (h : StartsWith P text) (more : String) :
    StartsWith P (text ++ more) := by
  obtain ⟨c, cs, htext, hc⟩ := h
  exact ⟨c, cs ++ more.toList, by simp [htext], hc⟩

theorem quote_toList (s : Spelling) (raw : String) :
    (s.quote raw).toList = s.delimiter :: Text.escape s.delimiter raw.toList ++ [s.delimiter] := by
  cases s <;> simp [Spelling.quote, Text.quote, Text.singleQuote, Text.escapeQuotes, Spelling.delimiter]

/-- The character extends neither mark. -/
def Apart (c : Char) : Prop := c ≠ '=' ∧ c ≠ '-'

theorem apart_letter {c : Char} (h : Piece.isLetter c) : Apart c := by
  constructor <;> (rintro rfl; exact absurd h (by decide))

theorem apart_digit {c : Char} (h : c.isDigit) : Apart c := by
  constructor <;> (rintro rfl; exact absurd h (by decide))

/-- The text of a literal, a name or a call can stand behind a mark. -/
theorem primary_head (s : Spelling) {e : Node} (he : e.BuiltFrom .written) (primary : e.isPrimary) :
    StartsWith Apart (e.render s) := by
  cases he with
  | @number text kind l notString h =>
    obtain ⟨c, cs, htext, digit, -⟩ := h.number_chars
    refine ⟨c, cs, ?_, apart_digit digit⟩
    cases kind with
    | string => exact absurd rfl notString
    | int | float => exact htext
  | @string text l h =>
    have quote : Apart s.delimiter := by cases s <;> simp [Apart, Spelling.delimiter]
    exact ⟨s.delimiter, _, quote_toList s text, quote⟩
  | @identifier x l h =>
    obtain ⟨c, cs, hx, letter, -, -⟩ := h.name_chars
    exact ⟨c, cs, hx, apart_letter letter⟩
  | @call x args l h _ =>
    obtain ⟨c, cs, hx, letter, -, -⟩ := h.name_chars
    have name : StartsWith Apart x := ⟨c, cs, hx, apart_letter letter⟩
    exact ((name.append _).append _).append _
  | binary => simp [Node.isPrimary] at primary
  | unary => simp [Node.isPrimary] at primary

/-- No text of an expression starts with an equals sign. -/
theorem render_head (s : Spelling) {e : Node} (he : e.BuiltFrom .written) :
    StartsWith (· ≠ '=') (e.render s) := by
  induction he with
  | number l notString h => exact (primary_head s (.number l notString h) rfl).mono fun _ h => h.1
  | string l h => exact (primary_head s (.string l h) rfl).mono fun _ h => h.1
  | identifier l h => exact (primary_head s (.identifier l h) rfl).mono fun _ h => h.1
  | call l h args _ => exact (primary_head s (.call l h args) rfl).mono fun _ h => h.1
  | binary o l _ _ ih _ =>
    rw [Node.render]
    exact ((((ih.grouped (by decide) _).append _).append _).append _).append _
  | @unary o operand l mark _ _ =>
    cases o with
    | neg =>
      rw [Node.render]
      exact StartsWith.append ⟨'-', [], rfl, by decide⟩ _
    | not =>
      rw [Node.render]
      refine StartsWith.append ?_ _
      cases s with
      | typed => exact ⟨'!', [], rfl, by decide⟩
      | indented | field => exact ⟨'n', ['o', 't', ' '], rfl, by decide⟩
    | addressOf => exact absurd rfl mark

/-! ### Reading a text -/

/-- The text is read as these words before everything that cannot extend it. -/
def ReadsAs (text : String) (ls : List Lexeme) : Prop :=
  ∀ {rest : List Char}, Ends rest → Scans (text.toList ++ rest) ls rest

theorem ends_of (c : Char) (rest : List Char) (h : Piece.isWordChar c = false) (dot : c ≠ '.') :
    Ends (c :: rest) := by
  intro d hd
  obtain rfl : c = d := by simpa using hd
  exact ⟨h, dot⟩

theorem delimiter_scans {c : Char} (h : c = '(' ∨ c = ')' ∨ c = ',') (rest : List Char) :
    Scans (c :: rest) [punct (String.ofList [c])] rest := by
  have first : Piece.next c rest = (.delimiter c, rest) := by rcases h with rfl | rfl | rfl <;> rfl
  exact .piece first rfl (by simp)

theorem ReadsAs.grouped {text : String} {ls : List Lexeme} (h : ReadsAs text ls) (parenthesized : Bool) :
    ReadsAs (grouped parenthesized text) (parens parenthesized ls) := by
  cases parenthesized with
  | false => exact h
  | true =>
    intro rest _
    have inside := h (ends_of ')' rest (by decide) (by decide))
    simpa [MiniC.grouped, parens] using
      (delimiter_scans (.inl rfl) _).trans (inside.trans (delimiter_scans (.inr (.inl rfl)) rest))

theorem blank_scans (rest : List Char) : Scans (' ' :: rest) [] rest := by
  have first : Piece.next ' ' rest = (.blank ' ', rest) := rfl
  exact .piece first rfl (by simp)

/-- A symbol between blanks is one word. -/
theorem symbol_scans (o : BinOp) (rest : List Char) :
    Scans (o.symbol.toList ++ ' ' :: rest) [op o.symbol] (' ' :: rest) := by
  have one {c : Char} {rest : List Char} (h : Piece.next c (' ' :: rest) = (.operator [c], ' ' :: rest)) :
      Scans (c :: ' ' :: rest) [op (String.ofList [c])] (' ' :: rest) := .piece h rfl (by simp)
  have two {c d : Char} {rest : List Char}
      (h : Piece.next c (d :: ' ' :: rest) = (.operator [c, d], ' ' :: rest)) :
      Scans (c :: d :: ' ' :: rest) [op (String.ofList [c, d])] (' ' :: rest) := .piece h rfl (by simp)
  cases o with
  | or => exact two (c := '|') (d := '|') rfl
  | and => exact two (c := '&') (d := '&') rfl
  | eq => exact two (c := '=') (d := '=') rfl
  | ne => exact two (c := '!') (d := '=') rfl
  | le => exact two (c := '<') (d := '=') rfl
  | ge => exact two (c := '>') (d := '=') rfl
  | lt => exact one (c := '<') rfl
  | gt => exact one (c := '>') rfl
  | add => exact one (c := '+') rfl
  | sub => exact one (c := '-') rfl
  | mul => exact one (c := '*') rfl
  | div => exact one (c := '/') rfl
  | mod => exact one (c := '%') rfl

/-- A mark is one word before what makes no operator of two characters with it. -/
theorem mark_scans {m : Char} (hm : m = '-' ∨ m = '!') {text : String}
    (h : StartsWith (fun c => Piece.operatorPairs.contains (m, c) = false) text) (rest : List Char) :
    Scans (m :: (text.toList ++ rest)) [op (String.ofList [m])] (text.toList ++ rest) := by
  obtain ⟨c, cs, htext, alone⟩ := h
  have body : Piece.operatorBody m (text.toList ++ rest) = ([m], text.toList ++ rest) := by
    rw [htext, List.cons_append, Piece.operatorBody, alone]
    rfl
  have next : Piece.next m (text.toList ++ rest) =
      (.operator (Piece.operatorBody m (text.toList ++ rest)).1,
        (Piece.operatorBody m (text.toList ++ rest)).2) := by
    rcases hm with rfl | rfl
    · rfl
    · rfl
  rw [body] at next
  exact .piece next rfl (by simp)

theorem minus_head {c : Char} (h : Apart c) : Piece.operatorPairs.contains ('-', c) = false := by
  simp [Piece.operatorPairs, h.1, h.2]

theorem not_head {c : Char} (h : c ≠ '=') : Piece.operatorPairs.contains ('!', c) = false := by
  simp [Piece.operatorPairs, h]

/-! ### The words of a text are the words of the expression -/

theorem arguments_readsAs (s : Spelling) :
    ∀ {args : List Node}, (∀ a ∈ args, ReadsAs (a.render s) (a.spell (.of s))) →
      ReadsAs (String.intercalate ", " (Node.renderAll s args))
        (List.intercalate [punct ","] (Node.spellAll (.of s) args))
  | [], _, rest, _ => .refl rest
  | [a], h, rest, ends => by
    rw [Node.renderAll, Node.renderAll, String.intercalate_singleton, Node.spellAll, Node.spellAll,
      List.intercalate_singleton]
    exact h a List.mem_cons_self ends
  | a :: b :: args, h, rest, ends => by
    have others := arguments_readsAs s (fun c hc => h c (List.mem_cons_of_mem a hc)) ends
    have comma := (delimiter_scans (.inr (.inr rfl)) _).trans ((blank_scans _).trans others)
    have all := (h a List.mem_cons_self (ends_of ',' _ (by decide) (by decide))).trans comma
    rw [Node.renderAll, Node.renderAll, String.intercalate_cons_cons, Node.spellAll, Node.spellAll,
      List.intercalate_cons_cons]
    simpa [Node.renderAll, Node.spellAll] using all

/-- The operators of a spelling are read as its orthography has them. -/
theorem operator_scans (s : Spelling) (o : BinOp) (rest : List Char) :
    Scans ((s.symbol o).toList ++ ' ' :: rest) [(Orthography.of s).symbol o] (' ' :: rest) := by
  by_cases same : s.symbol o = o.symbol
  · have word := symbol_scans o rest
    rw [← same] at word
    simpa [Orthography.of, same, op] using word
  · have letters : s.symbol o = "and" ∨ s.symbol o = "or" := by
      cases s <;> cases o <;> simp [Spelling.symbol] at same ⊢
    have name : LexesAs (s.symbol o) (ident (s.symbol o)) := by
      rcases letters with eq | eq <;> rw [eq] <;> decide +kernel
    have word := name.scans_name (ends_of ' ' rest (by decide) (by decide))
    simpa [Orthography.of, same, ident] using word

theorem not_scans (s : Spelling) {text : String} (h : StartsWith (· ≠ '=') text) (rest : List Char) :
    Scans (s.notMark.toList ++ (text.toList ++ rest)) ((Orthography.of s).mark .not)
      (text.toList ++ rest) := by
  have typed := mark_scans (.inr rfl) (h.mono fun _ => not_head) rest
  have word (more : List Char) : Scans ("not ".toList ++ more) [ident "not"] more := by
    have first : Piece.next 'n' ('o' :: 't' :: ' ' :: more) = (.word ['n', 'o', 't'], ' ' :: more) := rfl
    exact (Scans.piece first rfl (by simp)).trans (blank_scans more)
  cases s with
  | typed => exact typed
  | indented | field => exact word _

/-- The operand of a minus does not extend it. -/
theorem minus_operand_head (s : Spelling) {e : Node} (he : e.BuiltFrom .written) :
    StartsWith Apart (grouped (e.isBinary || e.isNegation) (e.render s)) := by
  cases tight : e.isBinary || e.isNegation with
  | true => exact ⟨'(', (e.render s).toList ++ [')'], by simp [grouped], by simp [Apart]⟩
  | false =>
    refine primary_head s he ?_
    cases he with
    | @unary o _ _ mark _ => cases o <;> simp [Node.isBinary, Node.isNegation] at tight; exact absurd rfl mark
    | binary => simp [Node.isBinary] at tight
    | _ => rfl

/-- **The text of an expression is read as its words.** -/
theorem render_scans (s : Spelling) {e : Node} (he : e.BuiltFrom .written) :
    ReadsAs (e.render s) (e.spell (.of s)) := by
  induction he with
  | @number text kind l notString h =>
    intro rest ends
    have word := h.scans_number ends
    cases kind with
    | string => exact absurd rfl notString
    | int | float => exact word
  | @string text l h =>
    intro rest _
    have isQuote : Piece.isQuote s.delimiter := by cases s <;> rfl
    have word := scans_literal isQuote h rest
    rw [Node.render, quote_toList]
    simpa [Node.spell, Orthography.of] using word
  | identifier l h => exact h.scans_name
  | @call x args l h _ ih =>
    intro rest ends
    have inside := arguments_readsAs s ih (ends_of ')' rest (by decide) (by decide))
    have group := (delimiter_scans (.inl rfl) _).trans (inside.trans (delimiter_scans (.inr (.inl rfl)) rest))
    have whole := (h.scans_name (ends_of '(' _ (by decide) (by decide))).trans group
    rw [Node.render, Node.spell, argumentWords]
    simpa using whole
  | @binary left right o l _ _ ihLeft ihRight =>
    intro rest ends
    have second := (ihRight.grouped (s.groups o right true)) ends
    have symbol := (blank_scans _).trans ((operator_scans s o _).trans ((blank_scans _).trans second))
    have whole := ((ihLeft.grouped (s.groups o left false)) (ends_of ' ' _ (by decide) (by decide))).trans symbol
    rw [Node.render, Node.spell]
    simpa [Orthography.of] using whole
  | @unary o operand l mark he ih =>
    intro rest ends
    cases o with
    | neg =>
      have sign := mark_scans (.inl rfl) ((minus_operand_head s he).mono fun _ => minus_head) rest
      have inside := ih.grouped (operand.isBinary || operand.isNegation) ends
      rw [Node.render, Node.spell]
      simpa [Orthography.of] using sign.trans inside
    | not =>
      have head := (render_head s he).grouped (by decide) operand.isBinary
      have inside := ih.grouped operand.isBinary ends
      rw [Node.render, Node.spell, show (Orthography.of s).groupsPrefixed .not operand = operand.isBinary from rfl]
      simpa using (not_scans s head rest).trans inside
    | addressOf => exact absurd rfl mark

/-- The tokens of a text are the words of the expression and the end of the input. -/
theorem render_tokens (s : Spelling) {e : Node} (he : e.BuiltFrom .written) :
    wordsOf (tokenize (e.render s)).tokens = e.spell (.of s) ∧ (tokenize (e.render s)).diagnostics = [] := by
  have scans : Scans (e.render s).toList (e.spell (.of s)) [] := by
    have whole : Scans ((e.render s).toList ++ []) _ [] := render_scans s he (by simp [Ends])
    rwa [List.append_nil] at whole
  obtain ⟨tokens, clean⟩ := scans.tokens
  exact ⟨wordsOf_of_lexemes tokens scans.kinds, clean⟩

/-! ### The typed language -/

/-- What the parser reads back: the kind of a number is the one that its text has. -/
def Vocabulary.typed : Vocabulary :=
  { Vocabulary.written with
    number := fun text kind => LexesAs text (.number, text) ∧ kind = Parse.numberKind text }

theorem Node.BuiltFrom.mono {v w : Vocabulary} {e : Node} (h : e.BuiltFrom v)
    (name : ∀ {x}, v.name x → w.name x) (number : ∀ {text kind}, v.number text kind → w.number text kind)
    (string : ∀ {raw}, v.string raw → w.string raw) (mark : ∀ {o}, v.mark o → w.mark o) : e.BuiltFrom w := by
  induction h with
  | number l notString h => exact .number l notString (number h)
  | string l h => exact .string l (string h)
  | identifier l h => exact .identifier l (name h)
  | call l h _ ih => exact .call l (name h) ih
  | binary o l _ _ ihLeft ihRight => exact .binary o l ihLeft ihRight
  | unary l h _ ih => exact .unary l (mark h) ih

theorem typed_faithful : (Orthography.of .typed).Faithful .typed where
  number h := h.2
  symbol o := by cases o <;> rfl
  mark {o} h := by
    cases o with
    | addressOf => exact absurd rfl h
    | neg | not => rfl
  groups h := by simpa [Orthography.of, Spelling.groups] using h
  groupsPrefixed {o e} h tight := by
    cases o with
    | addressOf => exact absurd rfl h
    | neg => exact (Bool.or_eq_false_iff.mp tight).1
    | not => exact tight
  groupsAddress h := absurd rfl h

/-- **The typed text of an expression is read back as the expression.** Its tokens are
all read, neither lexer nor parser reports anything, and the tree is the expression
up to places, with the quotes in its strings escaped. -/
theorem parse_typed_rendering {e : Node} (he : e.BuiltFrom .typed)
    (shallow : e.depth (.of .typed) ≤ maxNesting) :
    (tokenize (e.render .typed)).diagnostics = [] ∧
      ∃ e' c, Parse.expression maxNesting (.ofTokens (tokenize (e.render .typed)).tokens []) = (some e', c) ∧
        c.rest = [] ∧ c.diagnostics = [] ∧ e'.erase = (e.mapStrings Text.escapeQuotes).erase := by
  have written : e.BuiltFrom .written := he.mono id (fun h => h.1) id id
  obtain ⟨words, clean⟩ := render_tokens .typed written
  have phrase := spell_expression typed_faithful he shallow
  have start : (Cursor.ofTokens (tokenize (e.render .typed)).tokens []).words = e.spell (.of .typed) ++ [] := by
    rw [Cursor.ofTokens_words, words, List.append_nil]
  obtain ⟨e', c, run, alike, moved⟩ :=
    Parse.Completes.run (Parse.expression_completes maxNesting) phrase (follows_nil 6) start
  refine ⟨clean, e', c, run, List.map_eq_nil_iff.mp (moved.ahead start), ?_, alike⟩
  rw [Cursor.diagnostics, moved.log]
  rfl

/-- The expression `(a - (b - 1.5)) * -(-f("\"", !a))`. -/
def quotedCall : Node :=
  let name (x : String) : Node := .identifier x .nowhere
  .binary .mul
    (.binary .sub (name "a") (.binary .sub (name "b") (.literal "1.5" .float .nowhere) .nowhere) .nowhere)
    (.unary .neg (.unary .neg
      (.call "f" [.literal "\"" .string .nowhere, .unary .not (name "a") .nowhere] .nowhere) .nowhere) .nowhere)
    .nowhere

theorem quotedCall_builtFrom : quotedCall.BuiltFrom .typed := by
  have neg : Vocabulary.typed.mark .neg := show UnaryOp.neg ≠ .addressOf by decide
  have not : Vocabulary.typed.mark .not := show UnaryOp.not ≠ .addressOf by decide
  have name : ∀ x ∈ ["a", "b", "f"], Vocabulary.typed.name x :=
    show ∀ x ∈ ["a", "b", "f"], LexesAs x (ident x) by decide +kernel
  have a : (Node.identifier "a" .nowhere).BuiltFrom .typed := .identifier _ (name "a" (by decide))
  have b : (Node.identifier "b" .nowhere).BuiltFrom .typed := .identifier _ (name "b" (by decide))
  have number : (Node.literal "1.5" .float .nowhere).BuiltFrom .typed :=
    .number _ (by decide) ⟨by decide +kernel, by decide⟩
  have quote : (Node.literal "\"" .string .nowhere).BuiltFrom .typed :=
    .string _ (show Text.paired "\"".toList by decide)
  refine .binary _ _ (.binary _ _ a (.binary _ _ b number)) (.unary _ neg (.unary _ neg ?call))
  exact .call _ (name "f" (by decide)) (by simpa using ⟨quote, .unary _ not a⟩)

theorem parse_typed_rendering_quotedCall :
    quotedCall.BuiltFrom .typed ∧ quotedCall.depth (.of .typed) = 6 ∧
      quotedCall.render .typed = "(a - (b - 1.5)) * -(-f(\"\\\"\", !a))" ∧
      ∃ e' c, Parse.expression maxNesting (.ofTokens (tokenize (quotedCall.render .typed)).tokens []) =
        (some e', c) ∧ c.rest = [] ∧ c.diagnostics = [] ∧
          e'.erase = (quotedCall.mapStrings Text.escapeQuotes).erase :=
  ⟨quotedCall_builtFrom, by decide, by decide +kernel,
    (parse_typed_rendering quotedCall_builtFrom (by decide)).2⟩

end MiniC
