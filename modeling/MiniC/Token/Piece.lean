/-
# The pieces of a source text

A source text is read as a row of pieces: blanks, comments, characters no rule
takes, and lexemes. Every piece keeps the characters it covers, so the pieces of
a text put together again are the text (`pieces_chars`). A piece is chosen by its
first character and takes as much as its class allows; a comment wins over the
operators that start with a slash.

Key definitions: `Piece`, `Piece.chars`, `Piece.next`, `pieces`.
Key theorems: `Piece.next_cases`, `Piece.next_chars`, `pieces_chars`.
-/
import MiniC.Text.Blank

namespace MiniC

/-- What stands at one place of a source text. `closed` tells whether the end
mark of a comment or literal was found before the end of the text. -/
inductive Piece where
  | blank (c : Char)
  | newline
  | lineComment (body : List Char)
  | blockComment (body : List Char) (closed : Bool)
  | literal (quote : Char) (raw : List Char) (closed : Bool)
  | number (digits : List Char)
  | word (letters : List Char)
  | operator (symbol : List Char)
  | delimiter (c : Char)
  | unknown (c : Char)
  deriving DecidableEq

namespace Piece

/-- The characters of the text that the piece covers. -/
def chars : Piece → List Char
  | blank c => [c]
  | newline => ['\n']
  | lineComment body => '/' :: '/' :: body
  | blockComment body closed => '/' :: '*' :: body ++ if closed then ['*', '/'] else []
  | literal quote raw closed => quote :: raw ++ if closed then [quote] else []
  | number digits => digits
  | word letters => letters
  | operator symbol => symbol
  | delimiter c => [c]
  | unknown c => [c]

def isQuote (c : Char) : Bool := c = '"' || c = '\''

def isLetter (c : Char) : Bool := c.isAlpha || c = '_'

def isWordChar (c : Char) : Bool := c.isAlphanum || c = '_'

def operatorChars : List Char :=
  ['+', '-', '*', '/', '%', '=', '<', '>', '!', '&', '|', '^', '~', '?', ':']

def delimiterChars : List Char :=
  ['(', ')', '\x7b', '\x7d', '[', ']', ';', ',', '#', '.']

/-- The operators of two characters. -/
def operatorPairs : List (Char × Char) :=
  [('=', '='), ('!', '='), ('<', '='), ('>', '='), ('+', '+'), ('-', '-'), ('&', '&'), ('|', '|'),
   ('+', '='), ('-', '='), ('*', '='), ('/', '='), ('%', '='), ('<', '<'), ('>', '>')]

/-- The body of a block comment up to the first end mark, whether there is one,
and what follows. -/
def blockBody : List Char → List Char × Bool × List Char
  | [] => ([], false, [])
  | '*' :: '/' :: rest => ([], true, rest)
  | c :: rest =>
    let body := blockBody rest
    (c :: body.1, body.2)

/-- The raw text of a literal up to the first unescaped `quote`, whether there
is one, and what follows. A backslash takes the next character with it. -/
def literalBody (quote : Char) : List Char → List Char × Bool × List Char
  | [] => ([], false, [])
  | c :: rest =>
    if c = quote then ([], true, rest)
    else if c = '\\' then
      match rest with
      | [] => ([c], false, [])
      | escaped :: rest =>
        let raw := literalBody quote rest
        (c :: escaped :: raw.1, raw.2)
    else
      let raw := literalBody quote rest
      (c :: raw.1, raw.2)

/-- The digits of a number with at most one point among them, and what follows. -/
def numberBody (cs : List Char) : List Char × List Char :=
  let whole := cs.takeWhile Char.isDigit
  match cs.dropWhile Char.isDigit with
  | '.' :: rest => (whole ++ '.' :: rest.takeWhile Char.isDigit, rest.dropWhile Char.isDigit)
  | rest => (whole, rest)

/-- An operator that starts with `c`, of two characters where the table has the
pair, and what follows. -/
def operatorBody (c : Char) : List Char → List Char × List Char
  | [] => ([c], [])
  | d :: rest => if operatorPairs.contains (c, d) then ([c, d], rest) else ([c], d :: rest)

/-- The piece at the front of the text `c :: cs`, and what follows it. -/
def next (c : Char) (cs : List Char) : Piece × List Char :=
  if c = '\n' then (newline, cs)
  else if Text.isBlank c then (blank c, cs)
  else if c = '/' && cs.head? = some '/' then
    (lineComment (cs.tail.takeWhile (· ≠ '\n')), cs.tail.dropWhile (· ≠ '\n'))
  else if c = '/' && cs.head? = some '*' then
    let body := blockBody cs.tail
    (blockComment body.1 body.2.1, body.2.2)
  else if isQuote c then
    let raw := literalBody c cs
    (literal c raw.1 raw.2.1, raw.2.2)
  else if c.isDigit then
    let digits := numberBody (c :: cs)
    (number digits.1, digits.2)
  else if isLetter c then
    (word (c :: cs.takeWhile isWordChar), cs.dropWhile isWordChar)
  else if operatorChars.contains c then
    let symbol := operatorBody c cs
    (operator symbol.1, symbol.2)
  else if delimiterChars.contains c then (delimiter c, cs)
  else (unknown c, cs)

theorem blockBody_chars (cs : List Char) :
    (blockBody cs).1 ++ (if (blockBody cs).2.1 then ['*', '/'] else []) ++ (blockBody cs).2.2 = cs := by
  fun_induction blockBody cs with
  | case1 => rfl
  | case2 rest => simp
  | case3 c rest _ body ih => simpa using ih

theorem literalBody_chars (quote : Char) (cs : List Char) :
    (literalBody quote cs).1 ++ (if (literalBody quote cs).2.1 then [quote] else []) ++
      (literalBody quote cs).2.2 = cs := by
  fun_induction literalBody quote cs with
  | case1 => rfl
  | case2 rest => simp
  | case3 => simp
  | case4 _ escaped rest raw ih => simpa using ih
  | case5 c rest _ _ raw ih => simpa using ih

theorem numberBody_chars (cs : List Char) : (numberBody cs).1 ++ (numberBody cs).2 = cs := by
  have whole := List.takeWhile_append_dropWhile (p := Char.isDigit) (l := cs)
  unfold numberBody
  split
  next rest h =>
    rw [h] at whole
    simpa [List.takeWhile_append_dropWhile] using whole
  next => exact whole

theorem operatorBody_chars (c : Char) (cs : List Char) :
    (operatorBody c cs).1 ++ (operatorBody c cs).2 = c :: cs := by
  cases cs with
  | nil => rfl
  | cons d rest =>
    simp only [operatorBody]
    split <;> rfl

theorem operatorBody_ne_nil (c : Char) (cs : List Char) : (operatorBody c cs).1 ≠ [] := by
  cases cs with
  | nil => simp [operatorBody]
  | cons d rest =>
    simp only [operatorBody]
    split <;> simp

theorem numberBody_ne_nil {c : Char} (h : c.isDigit) (cs : List Char) :
    (numberBody (c :: cs)).1 ≠ [] := by
  unfold numberBody
  split <;> simp [h]

/-- The ways in which a piece is chosen. -/
theorem next_cases {motive : Piece × List Char → Prop} {c : Char} {cs : List Char}
    (newline : c = '\n' → motive (newline, cs))
    (blank : c ≠ '\n' → Text.isBlank c → motive (blank c, cs))
    (lineComment : ∀ rest, c = '/' → cs = '/' :: rest →
      motive (lineComment (rest.takeWhile (· ≠ '\n')), rest.dropWhile (· ≠ '\n')))
    (blockComment : ∀ rest, c = '/' → cs = '*' :: rest →
      motive (blockComment (blockBody rest).1 (blockBody rest).2.1, (blockBody rest).2.2))
    (literal : isQuote c →
      motive (literal c (literalBody c cs).1 (literalBody c cs).2.1, (literalBody c cs).2.2))
    (number : c.isDigit → motive (number (numberBody (c :: cs)).1, (numberBody (c :: cs)).2))
    (word : isLetter c →
      motive (word (c :: cs.takeWhile isWordChar), cs.dropWhile isWordChar))
    (operator : operatorChars.contains c →
      ¬(c = '/' ∧ (cs.head? = some '/' ∨ cs.head? = some '*')) →
      motive (operator (operatorBody c cs).1, (operatorBody c cs).2))
    (delimiter : delimiterChars.contains c → motive (delimiter c, cs))
    (unknown : c ≠ '\n' → ¬Text.isBlank c → ¬isQuote c → ¬c.isDigit → ¬isLetter c →
      ¬operatorChars.contains c → ¬delimiterChars.contains c → motive (unknown c, cs)) :
    motive (next c cs) := by
  unfold next
  by_cases isNewline : c = '\n'
  · rw [if_pos isNewline]
    exact newline isNewline
  rw [if_neg isNewline]
  by_cases isBlank : Text.isBlank c
  · rw [if_pos isBlank]
    exact blank isNewline isBlank
  rw [if_neg isBlank]
  by_cases isLine : (c = '/' && cs.head? = some '/') = true
  · rw [if_pos isLine]
    obtain ⟨slash, head⟩ : c = '/' ∧ cs.head? = some '/' := by simpa using isLine
    obtain ⟨rest, rfl⟩ := List.head?_eq_some_iff.mp head
    exact lineComment rest slash rfl
  rw [if_neg isLine]
  by_cases isBlock : (c = '/' && cs.head? = some '*') = true
  · rw [if_pos isBlock]
    obtain ⟨slash, head⟩ : c = '/' ∧ cs.head? = some '*' := by simpa using isBlock
    obtain ⟨rest, rfl⟩ := List.head?_eq_some_iff.mp head
    exact blockComment rest slash rfl
  rw [if_neg isBlock]
  by_cases opensLiteral : isQuote c
  · rw [if_pos opensLiteral]
    exact literal opensLiteral
  rw [if_neg opensLiteral]
  by_cases opensNumber : c.isDigit
  · rw [if_pos opensNumber]
    exact number opensNumber
  rw [if_neg opensNumber]
  by_cases opensWord : isLetter c
  · rw [if_pos opensWord]
    exact word opensWord
  rw [if_neg opensWord]
  by_cases opensOperator : operatorChars.contains c
  · rw [if_pos opensOperator]
    refine operator opensOperator fun ⟨slash, head⟩ => ?_
    rcases head with head | head
    · exact isLine (by simp [slash, head])
    · exact isBlock (by simp [slash, head])
  rw [if_neg opensOperator]
  by_cases isDelimiter : delimiterChars.contains c
  · rw [if_pos isDelimiter]
    exact delimiter isDelimiter
  rw [if_neg isDelimiter]
  exact unknown isNewline isBlank opensLiteral opensNumber opensWord opensOperator isDelimiter

/-- Nothing is lost: the piece and what follows it make up the text. -/
theorem next_chars (c : Char) (cs : List Char) :
    (next c cs).1.chars ++ (next c cs).2 = c :: cs := by
  apply next_cases (motive := fun r => r.1.chars ++ r.2 = c :: cs)
  case newline =>
    rintro rfl
    rfl
  case blank => intro _ _; rfl
  case lineComment =>
    rintro rest rfl rfl
    exact congrArg (fun cs => '/' :: '/' :: cs) List.takeWhile_append_dropWhile
  case blockComment =>
    rintro rest rfl rfl
    exact congrArg (fun cs => '/' :: '*' :: cs) (blockBody_chars rest)
  case literal => exact fun _ => congrArg (c :: ·) (literalBody_chars c cs)
  case number => exact fun _ => numberBody_chars (c :: cs)
  case word => exact fun _ => congrArg (c :: ·) List.takeWhile_append_dropWhile
  case operator => exact fun _ _ => operatorBody_chars c cs
  case delimiter => intro _; rfl
  case unknown => intros; rfl

/-- A piece covers at least one character. -/
theorem next_chars_ne_nil (c : Char) (cs : List Char) : (next c cs).1.chars ≠ [] := by
  apply next_cases (motive := fun r => r.1.chars ≠ [])
  case number => exact fun isDigit => numberBody_ne_nil isDigit cs
  case operator => exact fun _ _ => operatorBody_ne_nil c cs
  all_goals
    intros
    exact List.cons_ne_nil _ _

theorem next_shorter (c : Char) (cs : List Char) : (next c cs).2.length < (c :: cs).length := by
  have covered := List.length_pos_iff.mpr (next_chars_ne_nil c cs)
  have all := congrArg List.length (next_chars c cs)
  rw [List.length_append] at all
  omega

end Piece

/-- The pieces of a text, in order. -/
def pieces : List Char → List Piece
  | [] => []
  | c :: cs => (Piece.next c cs).1 :: pieces (Piece.next c cs).2
termination_by cs => cs.length
decreasing_by exact Piece.next_shorter c cs

/-- The pieces of a text put together again are the text. -/
theorem pieces_chars (cs : List Char) : (pieces cs).flatMap Piece.chars = cs := by
  fun_induction pieces cs with
  | case1 => rfl
  | case2 c cs ih => rw [List.flatMap_cons, ih, Piece.next_chars]

end MiniC
