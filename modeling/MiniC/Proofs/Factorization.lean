/-
# A text has one factorization into longest pieces

What may stand as one piece of a text is said class by class, next to what follows
it (`Piece.Formed`): a comment or literal without its end mark reaches the end of
the text. A text may then be cut in many ways, but only one takes the longest piece
at every place (`Factors`), and this is the cut that the lexer makes
(`factors_iff`). That a comment wins over the operators that start with a slash is
part of it, for the comment is the longer piece.

The tokens and diagnostics follow from the cut: every lexeme gives the token of its
class, every fault its diagnostic, each at the place that the newlines and
characters before it give (`tokenize_exact`).

Key definitions: `Piece.Formed`, `Longest`, `Factors`, `startsAfter`, `placeAfter`,
`Piece.Denotes`, `Piece.Fault`.
Key theorems: `longest_iff`, `factors_iff`, `after_eq_placeAfter`, `tokenize_exact`.
-/
import Mathlib.Data.List.Infix
import Mathlib.Data.List.Induction
import MiniC.Proofs.Scan

namespace MiniC

namespace Piece

/-- The raw text of a literal: no bare quote, and behind every backslash the
character that it escapes. -/
inductive Raw (quote : Char) : List Char → Prop
  | nil : Raw quote []
  | plain {c : Char} {cs : List Char} : c ≠ quote → c ≠ '\\' → Raw quote cs → Raw quote (c :: cs)
  | escaped {c : Char} {cs : List Char} : Raw quote cs → Raw quote ('\\' :: c :: cs)

/-- The piece may stand before `rest`. -/
inductive Formed : Piece → List Char → Prop
  | blank {c : Char} {rest : List Char} : c ≠ '\n' → Text.isBlank c → Formed (blank c) rest
  | newline {rest : List Char} : Formed newline rest
  | lineComment {body rest : List Char} : '\n' ∉ body → Formed (lineComment body) rest
  | blockComment {body rest : List Char} : ¬['*', '/'] <:+: body → Formed (blockComment body true) rest
  | unclosedComment {body : List Char} : ¬['*', '/'] <:+: body → Formed (blockComment body false) []
  | literal {quote : Char} {raw rest : List Char} :
      isQuote quote → Raw quote raw → Formed (literal quote raw true) rest
  | unclosedLiteral {quote : Char} {raw : List Char} :
      isQuote quote → Raw quote raw → Formed (literal quote raw false) []
  -- The escaped character would stand behind the end of the text.
  | danglingLiteral {quote : Char} {raw : List Char} :
      isQuote quote → Raw quote raw → Formed (literal quote (raw ++ ['\\']) false) []
  | whole {digits rest : List Char} :
      digits ≠ [] → (∀ c ∈ digits, c.isDigit) → Formed (number digits) rest
  | decimal {digits fraction rest : List Char} :
      digits ≠ [] → (∀ c ∈ digits, c.isDigit) → (∀ c ∈ fraction, c.isDigit) →
      Formed (number (digits ++ '.' :: fraction)) rest
  | word {c : Char} {letters rest : List Char} :
      isLetter c → (∀ d ∈ letters, isWordChar d) → Formed (word (c :: letters)) rest
  | operator {c : Char} {rest : List Char} : c ∈ operatorChars → Formed (operator [c]) rest
  | operatorPair {c d : Char} {rest : List Char} :
      (c, d) ∈ operatorPairs → Formed (operator [c, d]) rest
  | delimiter {c : Char} {rest : List Char} : c ∈ delimiterChars → Formed (delimiter c) rest
  | unknown {c : Char} {rest : List Char} :
      c ≠ '\n' → ¬Text.isBlank c → ¬isQuote c → ¬c.isDigit → ¬isLetter c →
      c ∉ operatorChars → c ∉ delimiterChars → Formed (unknown c) rest

end Piece

open Piece (Raw Formed)

/-- No piece that may stand at this place of the text `p.chars ++ rest` is longer. -/
def Longest (p : Piece) (rest : List Char) : Prop :=
  p.Formed rest ∧ ∀ (q : Piece) (after : List Char), q.Formed after →
    q.chars ++ after = p.chars ++ rest → q.chars.length ≤ p.chars.length

/-- The text is cut into the pieces, each the longest one at its place. -/
inductive Factors : List Char → List Piece → Prop
  | nil : Factors [] []
  | cons {p : Piece} {rest : List Char} {ps : List Piece} :
      Longest p rest → Factors rest ps → Factors (p.chars ++ rest) (p :: ps)

/-! ### What the lexer takes is well formed -/

namespace Piece

theorem blockBody_free (cs : List Char) : ¬['*', '/'] <:+: (blockBody cs).1 := by
  fun_induction blockBody cs with
  | case1 => simp
  | case2 rest => simp
  | case3 c rest noMark body ih =>
    rw [List.infix_cons_iff]
    rintro (mark | later)
    · -- The end mark would start here, but then the comment ends here.
      obtain ⟨rfl, slash⟩ := List.cons_prefix_cons.mp mark
      obtain ⟨tail, htail⟩ := slash
      have whole := blockBody_chars rest
      rw [← htail] at whole
      exact noMark _ rfl whole.symm
    · exact ih later

theorem blockBody_unclosed {cs : List Char} (h : (blockBody cs).2.1 = false) :
    (blockBody cs).2.2 = [] := by
  fun_induction blockBody cs with
  | case1 => rfl
  | case2 rest => simp at h
  | case3 c rest _ body ih => exact ih h

/-- The body of a literal as the lexer takes it. -/
theorem literalBody_raw (quote : Char) (cs : List Char) :
    (literalBody quote cs).2.1 = true ∧ Raw quote (literalBody quote cs).1 ∨
      (literalBody quote cs).2 = (false, []) ∧
        (Raw quote (literalBody quote cs).1 ∨
          ∃ raw, Raw quote raw ∧ (literalBody quote cs).1 = raw ++ ['\\']) := by
  fun_induction literalBody quote cs with
  | case1 => exact .inr ⟨rfl, .inl .nil⟩
  | case2 rest => exact .inl ⟨rfl, .nil⟩
  | case3 => exact .inr ⟨rfl, .inr ⟨[], .nil, rfl⟩⟩
  | case4 _ escaped rest raw ih =>
    rcases ih with ⟨closed, ih⟩ | ⟨unclosed, ih | ⟨front, ih, dangling⟩⟩
    · exact .inl ⟨closed, .escaped ih⟩
    · exact .inr ⟨unclosed, .inl (.escaped ih)⟩
    · exact .inr ⟨unclosed, .inr ⟨_, .escaped ih, by rw [dangling]; rfl⟩⟩
  | case5 c rest ne plain raw ih =>
    rcases ih with ⟨closed, ih⟩ | ⟨unclosed, ih | ⟨front, ih, dangling⟩⟩
    · exact .inl ⟨closed, .plain ne plain ih⟩
    · exact .inr ⟨unclosed, .inl (.plain ne plain ih)⟩
    · exact .inr ⟨unclosed, .inr ⟨_, .plain ne plain ih, by rw [dangling]; rfl⟩⟩

theorem formed_literal {quote : Char} (isQuote : isQuote quote) (cs : List Char) :
    Formed (literal quote (literalBody quote cs).1 (literalBody quote cs).2.1)
      (literalBody quote cs).2.2 := by
  rcases literalBody_raw quote cs with ⟨closed, raw⟩ | ⟨unclosed, raw | ⟨front, raw, dangling⟩⟩
  · rw [closed]
    exact .literal isQuote raw
  · rw [unclosed]
    exact .unclosedLiteral isQuote raw
  · rw [unclosed, dangling]
    exact .danglingLiteral isQuote raw

theorem formed_blockComment (cs : List Char) :
    Formed (blockComment (blockBody cs).1 (blockBody cs).2.1) (blockBody cs).2.2 := by
  have free := blockBody_free cs
  cases closed : (blockBody cs).2.1 with
  | true => exact .blockComment free
  | false =>
    rw [blockBody_unclosed closed]
    exact .unclosedComment free

theorem formed_number {c : Char} (digit : c.isDigit) (cs : List Char) :
    Formed (number (numberBody (c :: cs)).1) (numberBody (c :: cs)).2 := by
  have some : (c :: cs).takeWhile Char.isDigit ≠ [] := by simp [digit]
  unfold numberBody
  split
  · exact .decimal some (fun _ => List.mem_takeWhile_imp) fun _ => List.mem_takeWhile_imp
  · exact .whole some fun _ => List.mem_takeWhile_imp

theorem formed_operator {c : Char} (symbol : c ∈ operatorChars) (cs : List Char) :
    Formed (operator (operatorBody c cs).1) (operatorBody c cs).2 := by
  cases cs with
  | nil => exact .operator symbol
  | cons d rest =>
    simp only [operatorBody]
    split
    · next pair => exact .operatorPair (by simpa using pair)
    · exact .operator symbol

/-- The piece that the lexer takes may stand there. -/
theorem next_formed (c : Char) (cs : List Char) : (next c cs).1.Formed (next c cs).2 := by
  apply next_cases (motive := fun r => r.1.Formed r.2)
  case newline => exact fun _ => .newline
  case blank => exact .blank
  case lineComment =>
    intro rest _ _
    refine .lineComment fun member => ?_
    simpa using List.mem_takeWhile_imp member
  case blockComment => exact fun rest _ _ => formed_blockComment rest
  case literal => exact fun isQuote => formed_literal isQuote cs
  case number => exact fun digit => formed_number digit cs
  case word => exact fun letter => .word letter fun _ => List.mem_takeWhile_imp
  case operator => exact fun symbol _ => formed_operator (by simpa using symbol) cs
  case delimiter => exact fun symbol => .delimiter (by simpa using symbol)
  case unknown =>
    intro newline blank quote digit letter symbol delimiter
    exact .unknown newline blank quote digit letter (by simpa using symbol) (by simpa using delimiter)

/-! ### No piece that may stand there is longer -/

variable {quote c d : Char} {cs rest : List Char}

theorem blockBody_cons (noMark : ¬['*', '/'] <+: c :: cs) :
    blockBody (c :: cs) = (c :: (blockBody cs).1, (blockBody cs).2) := by
  rw [blockBody.eq_def]
  split
  · contradiction
  · next rest eq =>
    obtain ⟨rfl, rfl⟩ := List.cons.inj eq
    exact absurd ⟨rest, rfl⟩ noMark
  · next eq =>
    obtain ⟨rfl, rfl⟩ := List.cons.inj eq
    rfl

/-- A body without an end mark is passed, unless its last star and what follows
make one. -/
theorem blockBody_append {body : List Char} (free : ¬['*', '/'] <:+: body)
    (noSlash : rest.head? ≠ some '/') :
    blockBody (body ++ rest) = (body ++ (blockBody rest).1, (blockBody rest).2) := by
  induction body with
  | nil => rfl
  | cons c body ih =>
    rw [List.infix_cons_iff, not_or] at free
    obtain ⟨notHere, notLater⟩ := free
    have noMark : ¬['*', '/'] <+: c :: (body ++ rest) := by
      intro mark
      obtain ⟨rfl, slash⟩ := List.cons_prefix_cons.mp mark
      cases body with
      | nil =>
        obtain ⟨tail, rfl⟩ := slash
        exact noSlash rfl
      | cons d body =>
        obtain ⟨rfl, -⟩ := List.cons_prefix_cons.mp slash
        exact notHere ⟨body, rfl⟩
    rw [List.cons_append, blockBody_cons noMark, ih notLater, List.cons_append]

theorem Raw.literalBody_append {raw : List Char} (h : Raw quote raw) (ne : quote ≠ '\\') :
    literalBody quote (raw ++ rest) = (raw ++ (literalBody quote rest).1, (literalBody quote rest).2) := by
  induction h with
  | nil => rfl
  | plain notQuote plain _ ih =>
    rw [List.cons_append, literalBody_other _ plain notQuote, ih, List.cons_append]
  | escaped _ ih =>
    rw [List.cons_append, List.cons_append, literalBody_pair _ ne, ih, List.cons_append, List.cons_append]

theorem quote_ne_backslash (h : isQuote quote) : quote ≠ '\\' := by
  rintro rfl
  exact absurd h (by decide)

theorem literalBody_dangling (ne : quote ≠ '\\') : literalBody quote ['\\'] = (['\\'], false, []) := by
  rw [literalBody.eq_def]
  simp [ne.symm]

/-- A character of an operator or delimiter opens no other piece. -/
theorem symbol_plain (h : c ∈ operatorChars ++ delimiterChars) :
    c ≠ '\n' ∧ ¬Text.isBlank c ∧ ¬isQuote c ∧ ¬c.isDigit ∧ ¬isLetter c := by
  have all : (operatorChars ++ delimiterChars).all fun c =>
      c ≠ '\n' && !Text.isBlank c && !isQuote c && !c.isDigit && !isLetter c := by decide
  simpa [and_assoc] using List.all_eq_true.mp all c h

theorem operator_not_delimiter (h : c ∈ delimiterChars) : c ∉ operatorChars ∧ c ≠ '/' := by
  have all : delimiterChars.all fun c => !operatorChars.contains c && c ≠ '/' := by decide
  simpa using List.all_eq_true.mp all c h

theorem next_blank (notNewline : c ≠ '\n') (blank : Text.isBlank c) : next c cs = (.blank c, cs) := by
  rw [next, if_neg notNewline, if_pos blank]

theorem next_operator (h : c ∈ operatorChars)
    (noComment : c = '/' → cs.head? ≠ some '/' ∧ cs.head? ≠ some '*') :
    next c cs = (.operator (operatorBody c cs).1, (operatorBody c cs).2) := by
  obtain ⟨notNewline, notBlank, notQuote, notDigit, notLetter⟩ := symbol_plain (List.mem_append_left _ h)
  have notLine : ¬(c = '/' && cs.head? = some '/') = true := by simpa using fun slash => (noComment slash).1
  have notBlock : ¬(c = '/' && cs.head? = some '*') = true := by simpa using fun slash => (noComment slash).2
  rw [next, if_neg notNewline, if_neg notBlank, if_neg notLine, if_neg notBlock, if_neg notQuote,
    if_neg notDigit, if_neg notLetter, if_pos (by simpa using h)]

theorem next_delimiter (h : c ∈ delimiterChars) : next c cs = (.delimiter c, cs) := by
  obtain ⟨notNewline, notBlank, notQuote, notDigit, notLetter⟩ := symbol_plain (List.mem_append_right _ h)
  obtain ⟨notOperator, notSlash⟩ := operator_not_delimiter h
  rw [next, if_neg notNewline, if_neg notBlank, if_neg (by simp [notSlash]), if_neg (by simp [notSlash]),
    if_neg notQuote, if_neg notDigit, if_neg notLetter, if_neg (by simpa using notOperator),
    if_pos (by simpa using h)]

theorem next_unknown (notNewline : c ≠ '\n') (notBlank : ¬Text.isBlank c) (notQuote : ¬isQuote c)
    (notDigit : ¬c.isDigit) (notLetter : ¬isLetter c) (notOperator : c ∉ operatorChars)
    (notDelimiter : c ∉ delimiterChars) : next c cs = (.unknown c, cs) := by
  have notSlash : c ≠ '/' := by
    rintro rfl
    exact notOperator (by decide)
  rw [next, if_neg notNewline, if_neg notBlank, if_neg (by simp [notSlash]), if_neg (by simp [notSlash]),
    if_neg notQuote, if_neg notDigit, if_neg notLetter, if_neg (by simpa using notOperator),
    if_neg (by simpa using notDelimiter)]

theorem next_lineComment (body : List Char) (rest : List Char) (inLine : '\n' ∉ body) :
    next '/' ('/' :: (body ++ rest)) =
      (.lineComment (body ++ rest.takeWhile (· ≠ '\n')), rest.dropWhile (· ≠ '\n')) := by
  have all : ∀ c ∈ body, decide (c ≠ '\n') = true := by
    intro c member
    simp only [decide_eq_true_eq]
    rintro rfl
    exact inLine member
  show (Piece.lineComment ((body ++ rest).takeWhile (· ≠ '\n')), (body ++ rest).dropWhile (· ≠ '\n')) = _
  rw [List.takeWhile_append_of_pos all, List.dropWhile_append_of_pos all]

theorem next_blockComment (cs : List Char) : next '/' ('*' :: cs) =
    (.blockComment (blockBody cs).1 (blockBody cs).2.1, (blockBody cs).2.2) := rfl

theorem numberBody_whole {digits : List Char} (all : ∀ c ∈ digits, c.isDigit) (rest : List Char) :
    digits.length ≤ (numberBody (digits ++ rest)).1.length := by
  unfold numberBody
  rw [List.takeWhile_append_of_pos all]
  split
  · simp only [List.length_append]
    omega
  · simp only [List.length_append]
    omega

theorem numberBody_decimal {digits fraction : List Char} (all : ∀ c ∈ digits, c.isDigit)
    (tail : ∀ c ∈ fraction, c.isDigit) (rest : List Char) :
    (digits ++ '.' :: fraction).length ≤ (numberBody (digits ++ '.' :: fraction ++ rest)).1.length := by
  have dot : ∀ c ∈ ('.' :: (fraction ++ rest)).head?, c.isDigit = false := by simp
  obtain ⟨taken, left⟩ := takeWhile_append_stop all dot
  have regroup : digits ++ '.' :: fraction ++ rest = digits ++ '.' :: (fraction ++ rest) := by simp
  simp only [numberBody, regroup, taken, left, List.takeWhile_append_of_pos tail, List.length_append,
    List.length_cons]
  omega

/-- The lexer takes `q` before `rest`, or a piece of more characters. -/
def Yields (text : Piece × List Char) (q : Piece) (rest : List Char) : Prop :=
  q.chars.length ≤ text.1.chars.length ∧ (text.1.chars.length ≤ q.chars.length → text = (q, rest))

theorem Yields.of_eq {text : Piece × List Char} {q : Piece} (h : text = (q, rest)) : Yields text q rest := by
  subst h
  exact ⟨Nat.le_refl _, fun _ => rfl⟩

/-- In a class where every further character is part of the piece, the longer
piece of two covers the other. -/
theorem Yields.of_class (make : List Char → Piece) (lead : List Char) {taken left cs : List Char}
    (spelled : ∀ cs, (make cs).chars = lead ++ cs) (same : taken ++ left = cs ++ rest)
    (length : cs.length ≤ taken.length) : Yields (make taken, left) (make cs) rest := by
  constructor
  · simp only [spelled, List.length_append]
    omega
  · intro fits
    simp only [spelled, List.length_append] at fits
    obtain ⟨rfl, rfl⟩ := List.append_inj same (by omega)
    rfl

theorem yields_operator (symbol : c ∈ operatorChars) : Yields (next c rest) (operator [c]) rest := by
  have first := next_chars c rest
  have covered := List.length_pos_iff.mpr (next_chars_ne_nil c rest)
  refine ⟨covered, fun short => ?_⟩
  by_cases comment : c = '/' ∧ (rest.head? = some '/' ∨ rest.head? = some '*')
  · -- A comment has two characters at least.
    obtain ⟨rfl, slash | star⟩ := comment
    · obtain ⟨tail, rfl⟩ := List.head?_eq_some_iff.mp slash
      rw [show '/' :: tail = '/' :: ([] ++ tail) from rfl, next_lineComment [] tail (by simp)] at short
      simp [chars] at short
    · obtain ⟨tail, rfl⟩ := List.head?_eq_some_iff.mp star
      rw [next_blockComment] at short
      simp [chars] at short
  · have noComment : c = '/' → rest.head? ≠ some '/' ∧ rest.head? ≠ some '*' := by
      intro slash
      exact ⟨fun h => comment ⟨slash, .inl h⟩, fun h => comment ⟨slash, .inr h⟩⟩
    rw [next_operator symbol noComment] at short ⊢
    cases rest with
    | nil => rfl
    | cons d rest =>
      simp only [operatorBody] at short ⊢
      split at short
      · simp [chars] at short
      · next single => rw [if_neg single]

theorem next_operatorPair (pair : (c, d) ∈ operatorPairs) : next c (d :: rest) = (operator [c, d], rest) := by
  have first : operatorPairs.all fun p =>
      operatorChars.contains p.1 && !(p.1 = '/' && (p.2 = '/' || p.2 = '*')) := by decide
  have here := List.all_eq_true.mp first (c, d) pair
  obtain ⟨symbol, apart⟩ : c ∈ operatorChars ∧ (c = '/' → d ≠ '/' ∧ d ≠ '*') := by
    simpa [imp_iff_not_or] using here
  rw [next_operator symbol (by simpa using apart), operatorBody, if_pos (by simpa using pair)]

/-- **No piece that may stand there is longer**, and one as long is the lexer's. -/
theorem Formed.yields {q : Piece} (h : q.Formed rest) (text : q.chars ++ rest = c :: cs) :
    Yields (next c cs) q rest := by
  cases h with
  | blank notNewline blank =>
    obtain ⟨rfl, rfl⟩ := List.cons.inj text
    exact .of_eq (next_blank notNewline blank)
  | newline =>
    obtain ⟨rfl, rfl⟩ := List.cons.inj text
    exact .of_eq rfl
  | @lineComment body _ inLine =>
    obtain ⟨rfl, rfl⟩ : '/' = c ∧ '/' :: (body ++ rest) = cs := by simpa [chars] using text
    rw [next_lineComment body rest inLine]
    refine .of_class .lineComment ['/', '/'] (fun _ => rfl) ?_ (by simp)
    rw [List.append_assoc, List.takeWhile_append_dropWhile]
  | @blockComment body _ free =>
    obtain ⟨rfl, rfl⟩ : '/' = c ∧ '*' :: (body ++ '*' :: '/' :: rest) = cs := by simpa [chars] using text
    refine .of_eq ?_
    rw [next_blockComment, blockBody_append free (by simp)]
    simp [blockBody]
  | @unclosedComment body free =>
    obtain ⟨rfl, rfl⟩ : '/' = c ∧ '*' :: (body ++ []) = cs := by simpa [chars] using text
    refine .of_eq ?_
    rw [next_blockComment, blockBody_append free (by simp)]
    simp [blockBody]
  | @literal quote raw _ isQuote isRaw =>
    obtain ⟨rfl, rfl⟩ : quote = c ∧ raw ++ quote :: rest = cs := by simpa [chars] using text
    refine .of_eq ?_
    rw [next_quote isQuote, isRaw.literalBody_append (quote_ne_backslash isQuote), literalBody_quote]
    simp
  | @unclosedLiteral quote raw isQuote isRaw =>
    obtain ⟨rfl, rfl⟩ : quote = c ∧ raw ++ [] = cs := by simpa [chars] using text
    refine .of_eq ?_
    rw [next_quote isQuote, isRaw.literalBody_append (quote_ne_backslash isQuote)]
    simp [literalBody]
  | @danglingLiteral quote raw isQuote isRaw =>
    obtain ⟨rfl, rfl⟩ : quote = c ∧ raw ++ ['\\'] = cs := by simpa [chars] using text
    have ne := quote_ne_backslash isQuote
    refine .of_eq ?_
    rw [next_quote isQuote, isRaw.literalBody_append ne, literalBody_dangling ne]
  | @whole digits _ some all =>
    obtain ⟨d, ds, rfl⟩ := List.exists_cons_of_ne_nil some
    obtain ⟨rfl, rfl⟩ : d = c ∧ ds ++ rest = cs := by simpa [chars] using text
    rw [next_number (all d List.mem_cons_self)]
    exact .of_class .number [] (fun _ => rfl) (numberBody_chars _)
      (numberBody_whole all rest)
  | @decimal digits fraction _ some all tail =>
    obtain ⟨d, ds, rfl⟩ := List.exists_cons_of_ne_nil some
    obtain ⟨rfl, rfl⟩ : d = c ∧ ds ++ '.' :: fraction ++ rest = cs := by simpa [chars] using text
    rw [next_number (all d List.mem_cons_self)]
    exact .of_class .number [] (fun _ => rfl) (numberBody_chars _)
      (numberBody_decimal all tail rest)
  | @word d letters _ letter all =>
    obtain ⟨rfl, rfl⟩ : d = c ∧ letters ++ rest = cs := by simpa [chars] using text
    rw [next_word letter, List.takeWhile_append_of_pos all, List.dropWhile_append_of_pos all]
    refine .of_class .word [] (fun _ => rfl) ?_ (by simp)
    rw [← List.cons_append, List.append_assoc, List.takeWhile_append_dropWhile]
  | operator symbol =>
    obtain ⟨rfl, rfl⟩ := List.cons.inj text
    exact yields_operator symbol
  | operatorPair pair =>
    obtain ⟨rfl, rfl⟩ := List.cons.inj text
    exact .of_eq (next_operatorPair pair)
  | delimiter symbol =>
    obtain ⟨rfl, rfl⟩ := List.cons.inj text
    exact .of_eq (next_delimiter symbol)
  | unknown notNewline notBlank notQuote notDigit notLetter notOperator notDelimiter =>
    obtain ⟨rfl, rfl⟩ := List.cons.inj text
    exact .of_eq (next_unknown notNewline notBlank notQuote notDigit notLetter notOperator notDelimiter)

end Piece

/-- The longest piece at a place is the one that the lexer takes. -/
theorem longest_iff {p : Piece} {rest : List Char} {c : Char} {cs : List Char}
    (text : p.chars ++ rest = c :: cs) : Longest p rest ↔ Piece.next c cs = (p, rest) := by
  constructor
  · rintro ⟨formed, longest⟩
    have taken := longest _ _ (Piece.next_formed c cs) (by rw [Piece.next_chars, text])
    exact (formed.yields text).2 taken
  · intro first
    have formed := Piece.next_formed c cs
    rw [first] at formed
    refine ⟨formed, fun q after other same => ?_⟩
    have yields := other.yields (same.trans text)
    rw [first] at yields
    exact yields.1

theorem Piece.Formed.chars_ne_nil {p : Piece} {rest : List Char} (h : p.Formed rest) : p.chars ≠ [] := by
  cases h with
  | whole some => exact some
  | decimal some => exact List.append_ne_nil_of_left_ne_nil some _
  | _ => exact List.cons_ne_nil _ _

/-- **A text is cut into longest pieces in one way**, the lexer's. -/
theorem factors_iff {cs : List Char} {ps : List Piece} : Factors cs ps ↔ ps = pieces cs := by
  constructor
  · intro h
    induction h with
    | nil => rw [pieces]
    | @cons p rest ps longest _ ih =>
      cases text : p.chars ++ rest with
      | nil => exact absurd (List.append_eq_nil_iff.mp text).1 longest.1.chars_ne_nil
      | cons c cs =>
        have first := (longest_iff text).mp longest
        rw [pieces, first, ih]
  · rintro rfl
    fun_induction pieces cs with
    | case1 => exact .nil
    | case2 c cs ih =>
      have longest := (longest_iff (Piece.next_chars c cs)).mpr rfl
      have cut := Factors.cons longest ih
      rwa [Piece.next_chars] at cut

theorem Factors.covered {cs : List Char} {ps : List Piece} (h : Factors cs ps) :
    ps.flatMap Piece.chars = cs ∧ ∀ p ∈ ps, p.chars ≠ [] := by
  induction h with
  | nil => exact ⟨rfl, by simp⟩
  | @cons p rest ps longest _ ih =>
    rw [List.flatMap_cons, ih.1]
    exact ⟨rfl, List.forall_mem_cons.mpr ⟨longest.1.chars_ne_nil, ih.2⟩⟩

/-! ### Places -/

/-- The place right behind `before`, by counting: the newlines in it, and the
characters since the last one. -/
def placeAfter (before : List Char) : Location :=
  ⟨1 + before.count '\n', 1 + (before.reverse.takeWhile (· ≠ '\n')).length⟩

theorem after_eq_placeAfter (before : List Char) : Location.start.after before = placeAfter before := by
  induction before using List.reverseRecOn with
  | nil => rfl
  | append_singleton before c ih =>
    rw [Location.after_append, ih, Location.after_cons, Location.after_nil, Location.step]
    by_cases newline : c = '\n'
    · rw [if_pos newline]
      simp [placeAfter, newline, Nat.add_assoc]
    · rw [if_neg newline]
      simp [placeAfter, newline, Nat.add_comm]

/-- The one place comes before the other in reading order. -/
def Location.Precedes (l m : Location) : Prop :=
  l.line < m.line ∨ l.line = m.line ∧ l.column < m.column

theorem Location.Precedes.trans {k l m : Location} (h : k.Precedes l) (h' : l.Precedes m) : k.Precedes m := by
  unfold Location.Precedes at *
  omega

theorem Location.precedes_step (l : Location) (c : Char) : l.Precedes (l.step c) := by
  unfold Location.Precedes Location.step
  split
  · exact .inl (Nat.lt_succ_self _)
  · exact .inr ⟨rfl, Nat.lt_succ_self _⟩

theorem Location.precedes_after (l : Location) {cs : List Char} (some : cs ≠ []) : l.Precedes (l.after cs) := by
  induction cs generalizing l with
  | nil => exact absurd rfl some
  | cons c cs ih =>
    have first := l.precedes_step c
    rw [Location.after_cons]
    by_cases rest : cs = []
    · subst rest
      exact first
    · exact first.trans (ih (l.step c) rest)

/-- The pieces with the text before each, the first one behind `before`. -/
def startsAfter (before : List Char) : List Piece → List (List Char × Piece)
  | [] => []
  | p :: ps => (before, p) :: startsAfter (before ++ p.chars) ps

theorem place_eq_startsAfter (before : List Char) (ps : List Piece) :
    place (Location.start.after before) ps =
      (startsAfter before ps).map fun s => (s.2, placeAfter s.1) := by
  induction ps generalizing before with
  | nil => rfl
  | cons p ps ih =>
    rw [place, ← Location.after_append, ih, startsAfter, List.map_cons, after_eq_placeAfter]

/-- The starts of the pieces come one after the other, and all before the end. -/
theorem startsAfter_increasing {ps : List Piece} (some : ∀ p ∈ ps, p.chars ≠ []) (before : List Char) :
    (((startsAfter before ps).map fun s => placeAfter s.1) ++
      [placeAfter (before ++ ps.flatMap Piece.chars)]).Pairwise Location.Precedes := by
  induction ps generalizing before with
  | nil => exact List.pairwise_singleton _ _
  | cons p ps ih =>
    obtain ⟨here, later⟩ := List.forall_mem_cons.mp some
    have rest := ih later (before ++ p.chars)
    rw [startsAfter, List.map_cons, List.cons_append, List.flatMap_cons, ← List.append_assoc]
    refine List.pairwise_cons.mpr ⟨?_, rest⟩
    have next : (placeAfter before).Precedes (placeAfter (before ++ p.chars)) := by
      rw [← after_eq_placeAfter, ← after_eq_placeAfter, Location.after_append]
      exact Location.precedes_after _ here
    -- The first of the later starts is right behind the piece.
    cases ps with
    | nil =>
      rw [List.flatMap_nil, List.append_nil]
      simpa [startsAfter] using next
    | cons q qs =>
      rw [startsAfter, List.map_cons, List.cons_append] at rest ⊢
      intro l member
      rcases List.mem_cons.mp member with rfl | member
      · exact next
      · exact next.trans ((List.pairwise_cons.mp rest).1 l member)

/-! ### Tokens and diagnostics -/

namespace Piece

/-- A lexeme gives a token of this kind and text. -/
inductive Denotes : Piece → Token.Kind → List Char → Prop
  | keyword {letters : List Char} :
      String.ofList letters ∈ keywords → Denotes (word letters) .keyword letters
  | identifier {letters : List Char} :
      String.ofList letters ∉ keywords → Denotes (word letters) .identifier letters
  | number {digits : List Char} : Denotes (number digits) .number digits
  | string {quote : Char} {raw : List Char} {closed : Bool} : Denotes (literal quote raw closed) .string raw
  | operator {symbol : List Char} : Denotes (operator symbol) .operator symbol
  | delimiter {c : Char} : Denotes (delimiter c) .delimiter [c]
  | newline : Denotes newline .newline ['\n']

/-- A piece is wrong in the way that the message says. -/
inductive Fault : Piece → String → Prop
  | unknown {c : Char} : Fault (unknown c) ("Skipped unrecognized character '" ++ c.toString ++ "'")
  | literal {quote : Char} {raw : List Char} : Fault (literal quote raw false) "Unterminated string literal"
  | comment {body : List Char} : Fault (blockComment body false) "Unterminated block comment"

def isLexeme : Piece → Bool
  | blank _ | lineComment _ | blockComment _ _ | unknown _ => false
  | _ => true

def isFaulty : Piece → Bool
  | unknown _ | literal _ _ false | blockComment _ false => true
  | _ => false

theorem denotes_of_isLexeme (p : Piece) (h : p.isLexeme) :
    ∃ kind text, p.lexeme? = some (kind, text) ∧ p.Denotes kind text := by
  cases p with
  | word letters =>
    by_cases reserved : String.ofList letters ∈ keywords
    · have known : isKeyword (String.ofList letters) = true := by simpa [isKeyword] using reserved
      exact ⟨_, _, by rw [lexeme?, if_pos known], .keyword reserved⟩
    · have other : ¬isKeyword (String.ofList letters) = true := by simpa [isKeyword] using reserved
      exact ⟨_, _, by rw [lexeme?, if_neg other], .identifier reserved⟩
  | newline => exact ⟨_, _, rfl, .newline⟩
  | literal quote raw closed => exact ⟨_, _, rfl, .string⟩
  | number digits => exact ⟨_, _, rfl, .number⟩
  | operator symbol => exact ⟨_, _, rfl, .operator⟩
  | delimiter c => exact ⟨_, _, rfl, .delimiter⟩
  | blank | lineComment | blockComment | unknown => cases h

theorem lexeme?_of_trivia (p : Piece) (h : p.isLexeme = false) : p.lexeme? = none := by
  cases p with
  | blank | lineComment | blockComment | unknown => rfl
  | _ => cases h

theorem fault_of_isFaulty (p : Piece) (h : p.isFaulty) :
    ∃ problem, p.problem? = some problem ∧ p.Fault problem.message := by
  cases p with
  | unknown c => exact ⟨_, rfl, .unknown⟩
  | literal quote raw closed =>
    cases closed with
    | true => cases h
    | false => exact ⟨_, rfl, .literal⟩
  | blockComment body closed =>
    cases closed with
    | true => cases h
    | false => exact ⟨_, rfl, .comment⟩
  | _ => cases h

theorem problem?_of_sound (p : Piece) (h : p.isFaulty = false) : p.problem? = none := by
  cases p with
  | unknown c => cases h
  | literal quote raw closed =>
    cases closed with
    | true => rfl
    | false => cases h
  | blockComment body closed =>
    cases closed with
    | true => rfl
    | false => cases h
  | _ => rfl

end Piece

/-- The token is the one of the lexeme that stands behind `start.1`. -/
def TokenOf (start : List Char × Piece) (t : Token) : Prop :=
  ∃ kind text, start.2.Denotes kind text ∧ t = ⟨kind, some (String.ofList text), placeAfter start.1⟩

/-- The diagnostic is the one of the piece that stands behind `start.1`. -/
def DiagnosticOf (start : List Char × Piece) (d : Diagnostic) : Prop :=
  ∃ message, start.2.Fault message ∧ d = ⟨.lexer, message, placeAfter start.1⟩

/-- Taking the answers of those elements that have one answers them one for one. -/
theorem forall₂_filterMap {α β : Type} {R : α → β → Prop} {keep : α → Bool} {f : α → Option β}
    (kept : ∀ a, keep a → ∃ b, f a = some b ∧ R a b) (dropped : ∀ a, keep a = false → f a = none)
    (as : List α) : List.Forall₂ R (as.filter keep) (as.filterMap f) := by
  induction as with
  | nil => exact .nil
  | cons a as ih =>
    cases hk : keep a with
    | true =>
      obtain ⟨b, answer, related⟩ := kept a hk
      rw [List.filter_cons_of_pos hk, List.filterMap_cons_some answer]
      exact .cons related ih
    | false =>
      rw [List.filter_cons_of_neg (by simp [hk]), List.filterMap_cons_none (dropped a hk)]
      exact ih

theorem tokens_of_starts (starts : List (List Char × Piece)) :
    List.Forall₂ TokenOf (starts.filter (·.2.isLexeme))
      (starts.filterMap fun s => s.2.token? (placeAfter s.1)) := by
  refine forall₂_filterMap ?_ ?_ starts
  · rintro ⟨before, p⟩ lexeme
    obtain ⟨kind, text, known, denotes⟩ := p.denotes_of_isLexeme lexeme
    refine ⟨_, ?_, kind, text, denotes, rfl⟩
    rw [Piece.token?, known]
    rfl
  · rintro ⟨before, p⟩ other
    rw [Piece.token?, p.lexeme?_of_trivia other]
    rfl

theorem diagnostics_of_starts (starts : List (List Char × Piece)) :
    List.Forall₂ DiagnosticOf (starts.filter (·.2.isFaulty))
      (starts.filterMap fun s => s.2.diagnostic? (placeAfter s.1)) := by
  refine forall₂_filterMap ?_ ?_ starts
  · rintro ⟨before, p⟩ faulty
    obtain ⟨problem, known, fault⟩ := p.fault_of_isFaulty faulty
    refine ⟨_, ?_, problem.message, fault, rfl⟩
    rw [Piece.diagnostic?, known]
    rfl
  · rintro ⟨before, p⟩ sound
    rw [Piece.diagnostic?, p.problem?_of_sound sound]
    rfl

theorem locations_of_tokens {starts : List (List Char × Piece)} {ts : List Token}
    (h : List.Forall₂ TokenOf starts ts) : ts.map Token.location = starts.map fun s => placeAfter s.1 := by
  induction h with
  | nil => rfl
  | cons first _ ih =>
    obtain ⟨kind, text, -, rfl⟩ := first
    rw [List.map_cons, List.map_cons, ih]

theorem tokenize_starts (source : String) :
    (tokenize source).tokens =
        ((startsAfter [] (pieces source.toList)).filterMap fun s => s.2.token? (placeAfter s.1)) ++
          [⟨.endOfInput, none, placeAfter source.toList⟩] ∧
      (tokenize source).diagnostics =
        (startsAfter [] (pieces source.toList)).filterMap fun s => s.2.diagnostic? (placeAfter s.1) := by
  have placed : place .start (pieces source.toList) =
      (startsAfter [] (pieces source.toList)).map fun s => (s.2, placeAfter s.1) :=
    place_eq_startsAfter [] _
  simp only [tokenize, placed, List.filterMap_map, after_eq_placeAfter]
  exact ⟨rfl, rfl⟩

/-- **The tokens of a text are exactly its lexemes.** The text is cut into longest
pieces in one way; every lexeme among them gives one token, in order, at the place
where it starts, and one end mark follows; every faulty piece gives one diagnostic,
and the places of the tokens increase. -/
theorem tokenize_exact (source : String) :
    ∃ ps, (∀ qs, Factors source.toList qs ↔ qs = ps) ∧
      (∃ ts, (tokenize source).tokens = ts ++ [⟨.endOfInput, none, placeAfter source.toList⟩] ∧
        List.Forall₂ TokenOf ((startsAfter [] ps).filter (·.2.isLexeme)) ts) ∧
      List.Forall₂ DiagnosticOf ((startsAfter [] ps).filter (·.2.isFaulty)) (tokenize source).diagnostics ∧
      (tokenize source).tokens.Pairwise fun t u => t.location.Precedes u.location := by
  have cut : Factors source.toList (pieces source.toList) := factors_iff.mpr rfl
  obtain ⟨covers, some⟩ := cut.covered
  obtain ⟨tokens, diagnostics⟩ := tokenize_starts source
  have answered := tokens_of_starts (startsAfter [] (pieces source.toList))
  refine ⟨pieces source.toList, fun qs => factors_iff, ⟨_, tokens, answered⟩, ?_, ?_⟩
  · rw [diagnostics]
    exact diagnostics_of_starts _
  · have increasing := startsAfter_increasing some []
    rw [List.nil_append, covers] at increasing
    rw [tokens, ← List.pairwise_map (f := Token.location), List.map_append, locations_of_tokens answered]
    exact increasing.sublist ((List.filter_sublist.map _).append_right _)

end MiniC
